import ModbusSecurity.BurstErrors
import ModbusSecurity.SecureFraming

/-! # The CRC16 of a frame against bursts

The receiver's comparison is the question whether the register ends at zero, so what it
detects is what the reflected register cannot lose. -/
namespace ModbusSecurity.BurstDetection
open ByteStrings BitPacking ReflectedCrc BurstErrors SecureFraming

/-- The CRC16 behind a message, low byte first. -/
def appendCrc (m : Bytes) : Bytes :=
  let crc := secureFrameCrc16 m
  m ++ [crc.setWidth 8, (crc >>> 8).setWidth 8]

/-- The receiver recomputes the CRC16 of all but the last two bytes. -/
def Checks (s : Bytes) : Prop := crcCalc s = crcRecv s

/-- Errors of a burst of at most `n` bits do not get past the receiver. -/
def DetectsBursts (n : ℕ) (s : Bytes) : Prop :=
  ∀ e : Bytes, e.length = s.length → IsBurst n (bitAt e) → ¬ Checks (xorBytes s e)

private theorem generator_msb : (0xA001 : BitVec 16).msb = true := by decide

/-- The high byte of a check waits above the low one. -/
theorem crcBits_high (x : BitVec 16) (high : Byte) : crcBits 0xA001 8 x ^^^ high.setWidth 16 =
    crcBits 0xA001 8 (x ^^^ high.setWidth 16 <<< 8) := by
  have hwide : (high.setWidth 16).toNat * 2 ^ 8 < 2 ^ 16 := by
    have := high.isLt
    rw [BitVec.toNat_setWidth, Nat.mod_eq_of_lt (by omega)]
    omega
  rw [crcBits_xor, crcBits_shiftLeft _ _ hwide]

theorem checks_iff (t : Bytes) (low high : Byte) :
    Checks (t ++ [low, high]) ↔ secureFrameCrc16 (t ++ [low, high]) = 0 := by
  have hcalc : crcCalc (t ++ [low, high]) = secureFrameCrc16 t := by
    simp [crcCalc, crcLen]
  have hrecv : crcRecv (t ++ [low, high]) = low.setWidth 16 ^^^ high.setWidth 16 <<< 8 := by
    rw [crcRecv_eq_xor]
    simp [List.getD_eq_getElem?_getD]
  have hregister : secureFrameCrc16 (t ++ [low, high]) = crcBits 0xA001 8 (crcBits 0xA001 8
      (secureFrameCrc16 t ^^^ (low.setWidth 16 ^^^ high.setWidth 16 <<< 8))) := by
    rw [← BitVec.xor_assoc, ← crcBits_high, secureFrameCrc16, crcBytes, List.foldl_append]
    rfl
  rw [Checks, hcalc, hrecv, hregister, ← BitVec.xor_eq_zero_iff]
  constructor
  · intro h
    rw [h]
    exact (congrArg _ (crcBits_zero _ 8)).trans (crcBits_zero _ 8)
  · intro h
    exact eq_zero_of_crcBits generator_msb (eq_zero_of_crcBits generator_msb h)

theorem checks_appendCrc (m : Bytes) : Checks (appendCrc m) := by
  have hcalc : crcCalc (appendCrc m) = secureFrameCrc16 m := by
    simp [crcCalc, appendCrc, crcLen]
  have hrecv : crcRecv (appendCrc m) = secureFrameCrc16 m := by
    simp [crcRecv, appendCrc, List.getD_eq_getElem?_getD, bytes_of_crc]
  rw [Checks, hcalc, hrecv]

/-- An error changes the register by what it leaves in an empty one. -/
theorem secureFrameCrc16_error {s e : Bytes} (hlen : e.length = s.length) :
    secureFrameCrc16 (xorBytes s e) =
      secureFrameCrc16 s ^^^ crcBytes (0xA001 : BitVec 16) 0 e := by
  have hlinear := crcBytes_xor (0xA001 : BitVec 16) 0xFFFF 0 hlen.symm
  rwa [show (0xFFFF : BitVec 16) ^^^ 0 = 0xFFFF from rfl] at hlinear

/-- The last two bytes of a string, one by one. -/
theorem exists_append_two {s : Bytes} (h : 2 ≤ s.length) : ∃ t low high, s = t ++ [low, high] := by
  obtain ⟨low, high, hlast⟩ := List.length_eq_two.mp
    (show (s.drop (s.length - 2)).length = 2 by rw [List.length_drop]; omega)
  exact ⟨s.take (s.length - 2), low, high, by rw [← hlast, List.take_append_drop]⟩

theorem checks_iff_remainder {s : Bytes} (h : 2 ≤ s.length) :
    Checks s ↔ secureFrameCrc16 s = 0 := by
  obtain ⟨t, low, high, rfl⟩ := exists_append_two h
  exact checks_iff t low high

theorem error_ne_zero {e : Bytes} (h : IsBurst 16 (bitAt e)) :
    crcBytes (0xA001 : BitVec 16) 0 e ≠ 0 := by
  have hend : ∀ i, e.length * 8 ≤ i → bitAt e i = false := by
    intro i hi
    have hpast : e.length ≤ i / 8 := by omega
    simp [bitAt, List.getD_eq_getElem?_getD, List.getElem?_eq_none hpast]
  rw [crcBytes_eq_feed _ _ (by omega)]
  exact crcFeed_burst generator_msb h hend

theorem detectsBursts_appendCrc (m : Bytes) : DetectsBursts 16 (appendCrc m) := by
  have hlong : 2 ≤ (appendCrc m).length := by simp [appendCrc]
  have hclean := (checks_iff_remainder hlong).mp (checks_appendCrc m)
  intro e hlen hburst hchecks
  have hsum : secureFrameCrc16 (xorBytes (appendCrc m) e) = 0 :=
    (checks_iff_remainder (by rw [length_xorBytes]; omega)).mp hchecks
  rw [secureFrameCrc16_error hlen, hclean] at hsum
  exact error_ne_zero hburst (BitVec.zero_xor.symm.trans hsum)

/-- Every message passes with its CRC16, and with no burst of up to 16 bits on top of it. -/
theorem crc16_detects_bursts (m : Bytes) :
    Checks (appendCrc m) ∧ DetectsBursts 16 (appendCrc m) :=
  ⟨checks_appendCrc m, detectsBursts_appendCrc m⟩

end ModbusSecurity.BurstDetection
