import ModbusSecurity.ByteStrings

/-! # Reflected cyclic redundancy checks

The bitwise algorithm over a register of any width: low bit first, with the polynomial
applied after a right shift. It is linear over exclusive or. -/
namespace ModbusSecurity.ReflectedCrc
open ByteStrings
variable {w : ℕ}

def crcBit (poly crc : BitVec w) : BitVec w :=
  if crc.getLsbD 0 then (crc >>> 1) ^^^ poly else crc >>> 1

def crcBits (poly : BitVec w) : ℕ → BitVec w → BitVec w
  | 0, crc => crc
  | n + 1, crc => crcBits poly n (crcBit poly crc)

def crcByte (poly crc : BitVec w) (b : Byte) : BitVec w := crcBits poly 8 (crc ^^^ b.setWidth w)

def crcBytes (poly crc : BitVec w) (bs : Bytes) : BitVec w := bs.foldl (crcByte poly) crc

theorem crcBit_xor (poly a b : BitVec w) :
    crcBit poly (a ^^^ b) = crcBit poly a ^^^ crcBit poly b := by
  have hcancel : a >>> 1 ^^^ poly ^^^ (b >>> 1 ^^^ poly) = a >>> 1 ^^^ b >>> 1 := by
    rw [BitVec.xor_assoc, BitVec.xor_comm poly, BitVec.xor_assoc, BitVec.xor_self, BitVec.xor_zero]
  unfold crcBit
  simp only [BitVec.getLsbD_xor, BitVec.ushiftRight_xor_distrib]
  cases a.getLsbD 0 <;> cases b.getLsbD 0
  · simp
  · simp [BitVec.xor_assoc]
  · simp only [Bool.xor_false, if_true, Bool.false_eq_true, if_false]
    ac_rfl
  · simp [hcancel]

theorem crcBits_xor (poly : BitVec w) (n : ℕ) (a b : BitVec w) :
    crcBits poly n (a ^^^ b) = crcBits poly n a ^^^ crcBits poly n b := by
  induction n generalizing a b with
  | zero => rfl
  | succ n ih => simp only [crcBits, crcBit_xor, ih]

theorem crcByte_xor (poly x y : BitVec w) (a b : Byte) :
    crcByte poly (x ^^^ y) (a ^^^ b) = crcByte poly x a ^^^ crcByte poly y b := by
  have hsplit : x ^^^ y ^^^ (a ^^^ b).setWidth w = x ^^^ a.setWidth w ^^^ (y ^^^ b.setWidth w) := by
    rw [BitVec.setWidth_xor]
    ac_rfl
  rw [crcByte, hsplit, crcBits_xor]
  rfl

/-- The check of an exclusive or is the exclusive or of the checks. -/
theorem crcBytes_xor (poly x y : BitVec w) {a b : Bytes} (h : a.length = b.length) :
    crcBytes poly (x ^^^ y) (xorBytes a b) = crcBytes poly x a ^^^ crcBytes poly y b := by
  induction a generalizing b x y with
  | nil =>
    obtain rfl : b = [] := List.length_eq_zero_iff.mp h.symm
    rfl
  | cons c a ih =>
    cases b with
    | nil => cases h
    | cons d b =>
      have hl : a.length = b.length := Nat.succ.inj h
      have hstep := ih (crcByte poly x c) (crcByte poly y d) hl
      rw [← crcByte_xor] at hstep
      exact hstep

end ModbusSecurity.ReflectedCrc
