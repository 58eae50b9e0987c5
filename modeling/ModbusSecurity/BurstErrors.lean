import ModbusSecurity.BitPacking
import ModbusSecurity.ReflectedCrc

/-! # Burst errors under a reflected check

The register bit by bit. A polynomial with its top bit set makes every step injective, so
bits that fit into the register at once are never lost. -/
namespace ModbusSecurity.BurstErrors
open ByteStrings BitPacking ReflectedCrc
variable {w : ℕ}

/-- The register after the bits `f 0, …, f (n - 1)`, each added at the low end. -/
def crcFeed (poly crc : BitVec w) (f : ℕ → Bool) : ℕ → BitVec w
  | 0 => crc
  | n + 1 => crcBit poly (crcFeed poly crc f n ^^^ BitVec.setWidth w (BitVec.ofBool (f n)))

/-- The set bits are some, and lie within `n` consecutive positions. -/
def IsBurst (n : ℕ) (f : ℕ → Bool) : Prop :=
  (∃ j, f j = true) ∧ ∃ p, ∀ j, f j = true → p ≤ j ∧ j < p + n

section Shifts
variable (poly : BitVec w)

@[simp] theorem crcBit_zero : crcBit poly 0#w = 0#w := by simp [crcBit]

@[simp] theorem crcBits_zero (n : ℕ) : crcBits poly n 0#w = 0#w := by
  induction n with
  | zero => rfl
  | succ n ih => rw [crcBits, crcBit_zero, ih]

theorem crcBits_succ (n : ℕ) (x : BitVec w) :
    crcBits poly (n + 1) x = crcBit poly (crcBits poly n x) := by
  induction n generalizing x with
  | zero => rfl
  | succ n ih => exact ih (crcBit poly x)

/-- A bit that leaves no trace above the register comes back down. -/
theorem crcBit_shiftLeft {x : BitVec w} (h : x.toNat * 2 < 2 ^ w) : crcBit poly (x <<< 1) = x := by
  have hlow : (x <<< 1).getLsbD 0 = false := by simp
  rw [crcBit, hlow, if_neg Bool.false_ne_true]
  apply BitVec.eq_of_toNat_eq
  rw [BitVec.toNat_ushiftRight, BitVec.toNat_shiftLeft, Nat.shiftLeft_eq, Nat.shiftRight_eq_div_pow,
    pow_one, Nat.mod_eq_of_lt h]
  omega

theorem crcBits_shiftLeft {x : BitVec w} (n : ℕ) (h : x.toNat * 2 ^ n < 2 ^ w) :
    crcBits poly n (x <<< n) = x := by
  induction n with
  | zero => simp [crcBits]
  | succ n ih =>
    have hn : x.toNat * 2 ^ n * 2 < 2 ^ w := by rwa [pow_succ, ← Nat.mul_assoc] at h
    have hshift : (x <<< n).toNat = x.toNat * 2 ^ n := by
      rw [BitVec.toNat_shiftLeft, Nat.shiftLeft_eq, Nat.mod_eq_of_lt (by omega)]
    rw [BitVec.shiftLeft_add, crcBits, crcBit_shiftLeft poly (by rwa [hshift])]
    exact ih (by omega)

end Shifts

theorem eq_zero_of_crcBit {poly x : BitVec w} (hpoly : poly.msb = true) (h : crcBit poly x = 0) :
    x = 0 := by
  rw [crcBit] at h
  split at h
  · rename_i hlow
    have heq : x >>> 1 = poly := BitVec.xor_eq_zero_iff.mp h
    rw [← heq, BitVec.msb_ushiftRight] at hpoly
    simp at hpoly
  · rename_i hlow
    refine BitVec.eq_of_getLsbD_eq fun i hi => ?_
    cases i with
    | zero => simpa using hlow
    | succ i =>
      have hbit : (x >>> 1).getLsbD i = false := by rw [h]; simp
      rw [BitVec.getLsbD_ushiftRight, Nat.add_comm] at hbit
      simpa using hbit

theorem eq_zero_of_crcBits {poly x : BitVec w} (hpoly : poly.msb = true) {n : ℕ}
    (h : crcBits poly n x = 0) : x = 0 := by
  induction n generalizing x with
  | zero => exact h
  | succ n ih => exact eq_zero_of_crcBit hpoly (ih h)

section Feeding
variable (poly crc : BitVec w)

theorem crcFeed_congr {f g : ℕ → Bool} {n : ℕ} (h : ∀ i < n, f i = g i) :
    crcFeed poly crc f n = crcFeed poly crc g n := by
  induction n with
  | zero => rfl
  | succ n ih =>
    rw [crcFeed, crcFeed, h n n.lt_succ_self, ih fun i hi => h i (Nat.lt_succ_of_lt hi)]

theorem crcFeed_zeros {f : ℕ → Bool} {n : ℕ} (h : ∀ i < n, f i = false) :
    crcFeed poly 0#w f n = 0#w := by
  induction n with
  | zero => rfl
  | succ n ih =>
    rw [crcFeed, ih fun i hi => h i (Nat.lt_succ_of_lt hi), h n n.lt_succ_self]
    simp

theorem crcFeed_add (f : ℕ → Bool) (m n : ℕ) :
    crcFeed poly crc f (m + n) = crcFeed poly (crcFeed poly crc f m) (fun i => f (m + i)) n := by
  induction n with
  | zero => rfl
  | succ n ih => rw [← Nat.add_assoc, crcFeed, ih, crcFeed]

/-- The lowest bit of what is left of a byte, and the rest of it. -/
theorem setWidth_split (b : Byte) (k : ℕ) : (b >>> k).setWidth w =
    (BitVec.ofBool (b.getLsbD k)).setWidth w ^^^ (b >>> (k + 1)).setWidth w <<< 1 := by
  refine BitVec.eq_of_getLsbD_eq fun i hi => ?_
  cases i with
  | zero => simp [hi]
  | succ i => simp [hi, Nat.add_assoc, Nat.add_comm 1 i]

/-- The bits of a byte that are still to come wait in the register. -/
theorem crcFeed_byte (hw : 8 ≤ w) (b : Byte) (k : ℕ) :
    crcFeed poly crc b.getLsbD k ^^^ (b >>> k).setWidth w =
      crcBits poly k (crc ^^^ b.setWidth w) := by
  induction k with
  | zero => simp [crcFeed, crcBits]
  | succ k ih =>
    have hrest : ((b >>> (k + 1)).setWidth w).toNat * 2 < 2 ^ w := by
      have hwide : 2 ^ 8 ≤ 2 ^ w := Nat.pow_le_pow_right Nat.two_pos hw
      have hmod := Nat.mod_le (b >>> (k + 1)).toNat (2 ^ w)
      have hhalf : (b >>> (k + 1)).toNat * 2 < 2 ^ 8 := by
        have hle : b.toNat / 2 ^ (k + 1) ≤ b.toNat / 2 :=
          Nat.div_le_div_left (Nat.le_self_pow (Nat.succ_ne_zero k) 2) Nat.two_pos
        rw [BitVec.toNat_ushiftRight, Nat.shiftRight_eq_div_pow]
        omega
      rw [BitVec.toNat_setWidth]
      omega
    rw [crcBits_succ, ← ih, setWidth_split b k, ← BitVec.xor_assoc, crcBit_xor,
      crcBit_shiftLeft poly hrest]
    rfl

theorem crcByte_eq_feed (hw : 8 ≤ w) (b : Byte) :
    crcByte poly crc b = crcFeed poly crc b.getLsbD 8 := by
  have h := crcFeed_byte poly crc hw b 8
  have hnone : b >>> 8 = 0#8 := BitVec.ushiftRight_eq_zero le_rfl
  rw [hnone] at h
  simpa [crcByte] using h.symm

theorem crcBytes_eq_feed (hw : 8 ≤ w) (bs : Bytes) :
    crcBytes poly crc bs = crcFeed poly crc (bitAt bs) (bs.length * 8) := by
  induction bs using List.reverseRecOn with
  | nil => rfl
  | append_singleton bs b ih =>
    have hfront : ∀ i < bs.length * 8, bitAt bs i = bitAt (bs ++ [b]) i := by
      intro i hi
      have hlt : i / 8 < bs.length := by omega
      simp [bitAt, List.getD_eq_getElem?_getD, List.getElem?_append_left hlt]
    have hlast : ∀ i < 8, b.getLsbD i = bitAt (bs ++ [b]) (bs.length * 8 + i) := by
      intro i hi
      have hdiv : (bs.length * 8 + i) / 8 = bs.length := by omega
      have hmod : (bs.length * 8 + i) % 8 = i := by omega
      simp [bitAt, hdiv, hmod]
    rw [List.length_append, List.length_singleton, Nat.succ_mul, crcFeed_add,
      ← crcFeed_congr poly crc hfront, ← ih, ← crcFeed_congr poly _ hlast, ← crcByte_eq_feed poly _ hw,
      crcBytes, List.foldl_append]
    rfl

end Feeding

/-- The first bits from `j` on, side by side. -/
def loadBits (f : ℕ → Bool) (j : ℕ) : ℕ → BitVec w
  | 0 => 0
  | k + 1 => loadBits f j k ^^^ BitVec.setWidth w (BitVec.ofBool (f (j + k))) <<< k

theorem getLsbD_loadBits_zero (hw : 0 < w) (f : ℕ → Bool) (j k : ℕ) :
    (loadBits f j (k + 1) : BitVec w).getLsbD 0 = f j := by
  induction k with
  | zero => simp [loadBits, hw]
  | succ k ih =>
    rw [loadBits, BitVec.getLsbD_xor, ih]
    simp

/-- As long as the bits fit into the register, feeding them is loading them. -/
theorem crcFeed_load (poly : BitVec w) {f : ℕ → Bool} {j : ℕ} (hbefore : ∀ i < j, f i = false)
    (hafter : ∀ i, j + w ≤ i → f i = false) (k : ℕ) :
    crcFeed poly 0 f (j + k) = crcBits poly k (loadBits f j k) := by
  induction k with
  | zero =>
    exact crcFeed_zeros poly hbefore
  | succ k ih =>
    have hbit : crcBits poly k (BitVec.setWidth w (BitVec.ofBool (f (j + k))) <<< k) =
        BitVec.setWidth w (BitVec.ofBool (f (j + k))) := by
      cases hf : f (j + k) with
      | false => simp
      | true =>
        have hk : k < w := by
          by_contra hk
          rw [hafter (j + k) (by omega)] at hf
          cases hf
        apply crcBits_shiftLeft
        have hone : (BitVec.setWidth w (BitVec.ofBool true)).toNat = 1 := by
          rw [BitVec.toNat_setWidth]
          exact Nat.mod_eq_of_lt (Nat.one_lt_two_pow (by omega))
        rw [hone, Nat.one_mul]
        exact Nat.pow_lt_pow_right Nat.one_lt_two hk
    rw [← Nat.add_assoc, crcFeed, ih, crcBits_succ, loadBits, crcBits_xor, hbit]

/-- A burst no longer than the register leaves something in it, however many bits follow. -/
theorem crcFeed_burst {poly : BitVec w} (hpoly : poly.msb = true) {f : ℕ → Bool}
    (h : IsBurst w f) {n : ℕ} (hn : ∀ i, n ≤ i → f i = false) : crcFeed poly 0 f n ≠ 0 := by
  obtain ⟨hset, p, hwindow⟩ := h
  have hw : 0 < w := by
    obtain ⟨j, hj⟩ := hset
    have := hwindow j hj
    omega
  have hfirst := Nat.find_spec hset
  have hbefore : ∀ i < Nat.find hset, f i = false := fun i hi => by
    simpa using Nat.find_min hset hi
  have hafter : ∀ i, Nat.find hset + w ≤ i → f i = false := by
    intro i hi
    by_contra hf
    have := hwindow i (by simpa using hf)
    have := hwindow _ hfirst
    omega
  generalize Nat.find hset = j at hfirst hbefore hafter
  obtain ⟨k, rfl⟩ : ∃ k, n = j + (k + 1) := by
    refine ⟨n - j - 1, ?_⟩
    by_contra hlt
    rw [hn j (by omega)] at hfirst
    cases hfirst
  intro hzero
  rw [crcFeed_load poly hbefore hafter] at hzero
  have hbit := getLsbD_loadBits_zero hw f j k
  rw [eq_zero_of_crcBits hpoly hzero, hfirst] at hbit
  simp at hbit

end ModbusSecurity.BurstErrors
