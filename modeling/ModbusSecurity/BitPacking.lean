import ModbusSecurity.ByteStrings

/-! # Bits packed into bytes, lowest bit first -/
namespace ModbusSecurity.BitPacking
open ByteStrings

def bitsToBytes (nb : ℕ) : ℕ := (nb + 7) / 8

/-- Bit `j` of a byte string. -/
def bitAt (buf : Bytes) (j : ℕ) : Bool := (buf.getD (j / 8) 0).getLsbD (j % 8)

/-- `buf[i / 8] |= 1 << (i % 8)`. -/
def setBit (buf : Bytes) (i : ℕ) : Bytes := buf.modify (i / 8) (· ||| BitVec.twoPow 8 (i % 8))

/-- A cleared buffer in which the bits `i < qty` with `bit i` are set one by one. -/
def packBits (bit : ℕ → Bool) (qty : ℕ) : Bytes :=
  (List.range qty).foldl (fun buf i => if bit i then setBit buf i else buf)
    (List.replicate (bitsToBytes qty) 0)

/-- The bytes hold the bits `bit i` for `i < qty`, and zeros behind them. -/
structure HoldsBits (buf : Bytes) (qty : ℕ) (bit : ℕ → Bool) : Prop where
  length : buf.length = bitsToBytes qty
  bits : ∀ i, i < qty → bitAt buf i = bit i
  padding : ∀ i, qty ≤ i → bitAt buf i = false

@[simp] theorem length_setBit (buf : Bytes) (i : ℕ) : (setBit buf i).length = buf.length := by
  simp [setBit]

theorem bitAt_setBit {buf : Bytes} {i : ℕ} (hi : i / 8 < buf.length) (j : ℕ) :
    bitAt (setBit buf i) j = (bitAt buf j || decide (i = j)) := by
  have hmod : i % 8 < 8 := Nat.mod_lt _ (by omega)
  simp only [bitAt, setBit, List.getD_eq_getElem?_getD, List.getElem?_modify]
  by_cases hdiv : i / 8 = j / 8
  · have hj : j / 8 < buf.length := hdiv ▸ hi
    have hiff : i % 8 = j % 8 ↔ i = j := by omega
    simp [hdiv, hj, BitVec.getLsbD_twoPow, hmod, hiff]
  · have hne : i ≠ j := by rintro rfl; exact hdiv rfl
    simp [hdiv, hne]

private theorem packBits_loop (bit : ℕ → Bool) (size k : ℕ) (hk : k ≤ 8 * size) :
    let buf := (List.range k).foldl (fun buf i => if bit i then setBit buf i else buf)
      (List.replicate size 0)
    buf.length = size ∧ ∀ j, bitAt buf j = (decide (j < k) && bit j) := by
  induction k with
  | zero =>
    refine ⟨by simp, fun j => ?_⟩
    by_cases hj : j / 8 < size
    · simp [bitAt, List.getD_eq_getElem?_getD, hj]
    · simp [bitAt, List.getD_eq_getElem?_getD, hj]
  | succ k ih =>
    obtain ⟨hlen, hbits⟩ := ih (by omega)
    simp only [List.range_succ, List.foldl_append, List.foldl_cons, List.foldl_nil]
    cases hb : bit k with
    | false =>
      refine ⟨hlen, fun j => ?_⟩
      rw [if_neg (by simp), hbits]
      by_cases hjk : j = k
      · simp [hjk, hb]
      · simp [show j < k + 1 ↔ j < k by omega]
    | true =>
      rw [if_pos rfl]
      refine ⟨by rw [length_setBit, hlen], fun j => ?_⟩
      rw [bitAt_setBit (by omega), hbits]
      by_cases hjk : k = j
      · simp [← hjk, hb]
      · simp [hjk, show j < k + 1 ↔ j < k by omega]

theorem holdsBits_packBits (bit : ℕ → Bool) (qty : ℕ) : HoldsBits (packBits bit qty) qty bit := by
  obtain ⟨hlen, hbits⟩ := packBits_loop bit (bitsToBytes qty) qty (by simp only [bitsToBytes]; omega)
  refine ⟨hlen, fun i hi => ?_, fun i hi => ?_⟩
  · rw [packBits, hbits, decide_eq_true hi, Bool.true_and]
  · rw [packBits, hbits, decide_eq_false (by omega), Bool.false_and]

end ModbusSecurity.BitPacking
