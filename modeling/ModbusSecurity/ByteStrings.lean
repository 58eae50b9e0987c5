import Mathlib.Data.List.Induction
import Mathlib.Tactic.Ring
import Mathlib.Tactic.Linarith

/-! # Byte strings

Exclusive or of byte strings and their big-endian values. Nothing here names a
protocol: the modules above use it for cipher blocks, counters and checksums. -/
namespace ModbusSecurity.ByteStrings

abbrev Byte := BitVec 8
abbrev Bytes := List Byte

/-- Bytewise exclusive or, cut to the shorter string. -/
def xorBytes (a b : Bytes) : Bytes := List.zipWith (· ^^^ ·) a b

@[simp] theorem length_xorBytes (a b : Bytes) :
    (xorBytes a b).length = min a.length b.length := by simp [xorBytes]

@[simp] theorem xorBytes_nil (b : Bytes) : xorBytes [] b = [] := rfl

theorem xorBytes_append {a b c d : Bytes} (h : a.length = c.length) :
    xorBytes (a ++ b) (c ++ d) = xorBytes a c ++ xorBytes b d := by
  simp [xorBytes, List.zipWith_append h]

theorem getElem?_xorBytes {a b : Bytes} {i : ℕ} (ha : i < a.length) (hb : i < b.length) :
    (xorBytes a b)[i]? = some (a[i] ^^^ b[i]) := by
  simp [xorBytes, ha, hb]

/-- Only as much of the second string as the first one covers is read. -/
theorem xorBytes_take_right (a b : Bytes) : xorBytes a (b.take a.length) = xorBytes a b := by
  induction a generalizing b with
  | nil => rfl
  | cons x a ih =>
    cases b with
    | nil => rfl
    | cons y b => simpa [xorBytes] using ih b

/-- Exclusive or with two pads is exclusive or with their exclusive or. -/
theorem xorBytes_assoc (a k l : Bytes) :
    xorBytes (xorBytes a k) l = xorBytes a (xorBytes k l) := by
  induction a generalizing k l with
  | nil => rfl
  | cons x a ih =>
    cases k with
    | nil => simp [xorBytes]
    | cons y k =>
      cases l with
      | nil => simp [xorBytes]
      | cons z l => simpa [xorBytes, BitVec.xor_assoc] using ih k l

/-- A pad at least as long as the text removes itself. -/
theorem xorBytes_cancel {a k : Bytes} (h : a.length ≤ k.length) :
    xorBytes (xorBytes a k) k = a := by
  induction a generalizing k with
  | nil => rfl
  | cons x a ih =>
    cases k with
    | nil => simp at h
    | cons y k =>
      have ht : a.length ≤ k.length := by simpa using h
      have hx : x ^^^ y ^^^ y = x := by rw [BitVec.xor_assoc, BitVec.xor_self, BitVec.xor_zero]
      simpa [xorBytes, hx] using ih ht

/-- The number a byte string denotes, most significant byte first. -/
def beValue (bs : Bytes) : ℕ := bs.foldl (fun n b => 256 * n + b.toNat) 0

/-- The last `k` big-endian bytes of `n`. -/
def beBytes : ℕ → ℕ → Bytes
  | 0, _ => []
  | k + 1, n => beBytes k (n / 256) ++ [BitVec.ofNat 8 n]

@[simp] theorem length_beBytes (k n : ℕ) : (beBytes k n).length = k := by
  induction k generalizing n with
  | zero => rfl
  | succ k ih => simp [beBytes, ih]

private theorem foldl_beValue (bs : Bytes) (n : ℕ) :
    bs.foldl (fun n b => 256 * n + b.toNat) n = 256 ^ bs.length * n + beValue bs := by
  induction bs generalizing n with
  | nil => simp [beValue]
  | cons b bs ih =>
    simp only [beValue, List.foldl_cons, List.length_cons, ih (256 * n + b.toNat),
      ih (256 * 0 + b.toNat)]
    ring

@[simp] theorem beValue_nil : beValue [] = 0 := rfl

theorem beValue_append (a b : Bytes) :
    beValue (a ++ b) = 256 ^ b.length * beValue a + beValue b := by
  rw [beValue, List.foldl_append, foldl_beValue]
  rfl

theorem beValue_cons (b : Byte) (bs : Bytes) :
    beValue (b :: bs) = 256 ^ bs.length * b.toNat + beValue bs := by
  simpa [beValue] using beValue_append [b] bs

theorem beValue_lt (bs : Bytes) : beValue bs < 256 ^ bs.length := by
  induction bs with
  | nil => simp
  | cons b bs ih =>
    have hb : b.toNat ≤ 255 := by have := b.isLt; omega
    have hm := Nat.mul_le_mul_left (256 ^ bs.length) hb
    rw [beValue_cons, List.length_cons, pow_succ]
    omega

theorem beValue_beBytes (k n : ℕ) : beValue (beBytes k n) = n % 256 ^ k := by
  induction k generalizing n with
  | zero => simp [beBytes, Nat.mod_one]
  | succ k ih =>
    have hlast : beValue [BitVec.ofNat 8 n] = n % 256 := by simp [beValue]
    rw [beBytes, beValue_append, ih, hlast, List.length_singleton, pow_one, pow_succ',
      Nat.mod_mul]
    omega

theorem beBytes_beValue (bs : Bytes) : beBytes bs.length (beValue bs) = bs := by
  induction bs using List.reverseRecOn with
  | nil => rfl
  | append_singleton bs b ih =>
    have hb := b.isLt
    have hv : beValue (bs ++ [b]) = 256 * beValue bs + b.toNat := by
      rw [beValue_append]
      simp [beValue]
    have hd : (256 * beValue bs + b.toNat) / 256 = beValue bs := by omega
    have hl : BitVec.ofNat 8 (256 * beValue bs + b.toNat) = b := by
      apply BitVec.eq_of_toNat_eq
      simp
      omega
    rw [hv, List.length_append, List.length_singleton, beBytes, hd, hl, ih]

/-- Byte strings of one length are told apart by their values. -/
theorem beValue_injective {a b : Bytes} (hl : a.length = b.length) (h : beValue a = beValue b) :
    a = b := by
  rw [← beBytes_beValue a, ← beBytes_beValue b, hl, h]

end ModbusSecurity.ByteStrings
