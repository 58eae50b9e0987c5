import ModbusSecurity.ByteStrings

/-! # Input taken block by block

A state takes blocks of `n` symbols. What does not fill a block waits, and an input may arrive
in any pieces. Nothing here names a hash function or a cipher. -/
namespace ModbusSecurity.BlockStreams
open ByteStrings
variable {σ α β : Type*}

/-- The first `k` blocks, and what is behind them. -/
def takeBlocks (f : σ → List α → σ) (n : ℕ) : ℕ → σ → List α → σ × List α
  | 0, s, xs => (s, xs)
  | k + 1, s, xs => takeBlocks f n k (f s (xs.take n)) (xs.drop n)

/-- All the whole blocks, and what waits. -/
def absorb (f : σ → List α → σ) (n : ℕ) (s : σ) (xs : List α) : σ × List α :=
  takeBlocks f n (xs.length / n) s xs

/-- Induction block by block. -/
@[elab_as_elim]
theorem block_induction {n : ℕ} (hn : 0 < n) {motive : List α → Prop}
    (short : ∀ xs, xs.length < n → motive xs)
    (block : ∀ xs, n ≤ xs.length → motive (xs.drop n) → motive xs) (xs : List α) : motive xs := by
  induction hlen : xs.length using Nat.strongRecOn generalizing xs with
  | ind len ih =>
    by_cases h : n ≤ xs.length
    · exact block xs h (ih (xs.drop n).length (by rw [List.length_drop]; omega) _ rfl)
    · exact short xs (by omega)

section Absorption
variable {f : σ → List α → σ} {n : ℕ} {s : σ} {xs ys : List α}

theorem absorb_short (h : xs.length < n) : absorb f n s xs = (s, xs) := by
  rw [absorb, Nat.div_eq_of_lt h, takeBlocks]

theorem absorb_block (hn : 0 < n) (h : n ≤ xs.length) :
    absorb f n s xs = absorb f n (f s (xs.take n)) (xs.drop n) := by
  rw [absorb, Nat.div_eq_sub_div hn h, takeBlocks, absorb, List.length_drop]

@[simp] theorem absorb_nil : absorb f n s [] = (s, []) := by
  simp [absorb, takeBlocks]

/-- An exact block leaves nothing behind. -/
theorem absorb_exact (hn : 0 < n) (h : xs.length = n) : absorb f n s xs = (f s xs, []) := by
  rw [absorb_block hn (Nat.le_of_eq h.symm), List.take_of_length_le (Nat.le_of_eq h),
    List.drop_of_length_le (Nat.le_of_eq h), absorb_nil]

theorem absorb_append (hn : 0 < n) (s : σ) (xs ys : List α) :
    absorb f n s (xs ++ ys) = absorb f n (absorb f n s xs).1 ((absorb f n s xs).2 ++ ys) := by
  induction xs using block_induction hn generalizing s with
  | short xs h =>
    have hshort : absorb f n s xs = (s, xs) := absorb_short h
    rw [hshort]
  | block xs h ih =>
    have hboth : n ≤ (xs ++ ys).length := by
      rw [List.length_append]
      omega
    rw [absorb_block hn hboth, List.take_append_of_le_length h, List.drop_append_of_le_length h, ih,
      absorb_block hn h]

theorem length_absorb (hn : 0 < n) (s : σ) (xs : List α) :
    (absorb f n s xs).2.length = xs.length % n := by
  induction xs using block_induction hn generalizing s with
  | short xs h => rw [absorb_short h, Nat.mod_eq_of_lt h]
  | block xs h ih => rw [absorb_block hn h, ih, List.length_drop, ← Nat.mod_eq_sub_mod h]

theorem absorb_waits (hn : 0 < n) (s : σ) (xs : List α) : (absorb f n s xs).2.length < n := by
  rw [length_absorb hn]
  exact Nat.mod_lt _ hn

/-- What waits is filled up by the next piece. -/
theorem absorb_fill (hn : 0 < n) (hlo : xs.length < n) (h : n ≤ xs.length + ys.length) :
    absorb f n s (xs ++ ys) =
      absorb f n (f s (xs ++ ys.take (n - xs.length))) (ys.drop (n - xs.length)) := by
  have hle : n ≤ (xs ++ ys).length := by
    rw [List.length_append]
    exact h
  rw [absorb_block hn hle, List.take_append, List.drop_append, List.take_of_length_le hlo.le,
    List.drop_of_length_le hlo.le, List.nil_append]

/-- Steps that agree under a map of the states. -/
theorem absorb_image {τ : Type*} {φ : σ → τ} {g : τ → List α → τ} (hn : 0 < n)
    (hg : ∀ s b, φ (f s b) = g (φ s) b) (s : σ) (xs : List α) :
    absorb g n (φ s) xs = (φ (absorb f n s xs).1, (absorb f n s xs).2) := by
  induction xs using block_induction hn generalizing s with
  | short xs h => rw [absorb_short h, absorb_short h]
  | block xs h ih => rw [absorb_block hn h, ← hg, ih, absorb_block hn h]

end Absorption

theorem length_flatMap_of_length {w : ℕ} {enc : α → List β} (hw : ∀ a, (enc a).length = w)
    (xs : List α) : (xs.flatMap enc).length = w * xs.length := by
  induction xs with
  | nil => rfl
  | cons x xs ih => rw [List.flatMap_cons, List.length_append, hw, ih, List.length_cons]; ring

theorem take_flatMap_of_length {w : ℕ} {enc : α → List β} (hw : ∀ a, (enc a).length = w) (k : ℕ)
    (xs : List α) : (xs.flatMap enc).take (w * k) = (xs.take k).flatMap enc := by
  induction xs generalizing k with
  | nil => simp
  | cons x xs ih =>
    cases k with
    | zero => simp
    | succ k =>
      rw [List.flatMap_cons, List.take_append, hw, Nat.mul_succ, Nat.add_sub_cancel, ih,
        List.take_of_length_le (by rw [hw]; omega), List.take_succ_cons, List.flatMap_cons]

theorem drop_flatMap_of_length {w : ℕ} {enc : α → List β} (hw : ∀ a, (enc a).length = w) (k : ℕ)
    (xs : List α) : (xs.flatMap enc).drop (w * k) = (xs.drop k).flatMap enc := by
  induction xs generalizing k with
  | nil => simp
  | cons x xs ih =>
    cases k with
    | zero => simp
    | succ k =>
      rw [List.flatMap_cons, List.drop_append, hw, Nat.mul_succ, Nat.add_sub_cancel, ih,
        List.drop_of_length_le (by rw [hw]; omega), List.drop_succ_cons, List.nil_append]

/-- Blocks of encoded symbols against blocks of symbols. -/
theorem absorb_flatMap {w n : ℕ} {enc : α → List β} {f : σ → List α → σ} {g : σ → List β → σ}
    (hw : ∀ a, (enc a).length = w) (hpos : 0 < w) (hn : 0 < n)
    (hg : ∀ s b, b.length = n → g s (b.flatMap enc) = f s b) (s : σ) (xs : List α) :
    absorb g (w * n) s (xs.flatMap enc) =
      ((absorb f n s xs).1, (absorb f n s xs).2.flatMap enc) := by
  have hbits := length_flatMap_of_length hw xs
  induction xs using block_induction hn generalizing s with
  | short xs h =>
    have hlt : (xs.flatMap enc).length < w * n := by
      rw [hbits]
      exact Nat.mul_lt_mul_of_pos_left h hpos
    rw [absorb_short hlt, absorb_short h]
  | block xs h ih =>
    have hle : w * n ≤ (xs.flatMap enc).length := by
      rw [hbits]
      exact Nat.mul_le_mul_left w h
    have hfirst : (xs.take n).length = n := by rw [List.length_take, Nat.min_eq_left h]
    rw [absorb_block (Nat.mul_pos hpos hn) hle, take_flatMap_of_length hw, drop_flatMap_of_length hw,
      hg _ _ hfirst, absorb_block hn h, ih _ (length_flatMap_of_length hw _)]

def bits (b : Byte) : List Bool := List.ofFn fun i : Fin 8 => b.getMsbD i

def bitsOf (bs : Bytes) : List Bool := bs.flatMap bits

def byteOf (bs : List Bool) : Byte := BitVec.ofNat 8 (bs.foldl (fun v b => 2 * v + b.toNat) 0)

/-- Eight bits a byte; fewer at the end are left out. -/
def bytesOf (bs : List Bool) : Bytes :=
  (absorb (fun out b => out ++ [byteOf b]) 8 [] bs).1

@[simp] theorem length_bits (b : Byte) : (bits b).length = 8 := rfl

theorem byteOf_bits : ∀ b : Byte, byteOf (bits b) = b := by decide +kernel

@[simp] theorem length_bitsOf (bs : Bytes) : (bitsOf bs).length = 8 * bs.length :=
  length_flatMap_of_length length_bits bs

@[simp] theorem bitsOf_cons (b : Byte) (bs : Bytes) : bitsOf (b :: bs) = bits b ++ bitsOf bs :=
  List.flatMap_cons

@[simp] theorem bitsOf_append (a b : Bytes) : bitsOf (a ++ b) = bitsOf a ++ bitsOf b :=
  List.flatMap_append

theorem bitsOf_zeros (m : ℕ) : bitsOf (List.replicate m 0) = List.replicate (8 * m) false := by
  induction m with
  | zero => rfl
  | succ m ih =>
    rw [List.replicate_succ, bitsOf_cons, ih, Nat.mul_succ, Nat.add_comm, ← List.replicate_append_replicate]
    rfl

theorem take_bitsOf (k : ℕ) (bs : Bytes) : (bitsOf bs).take (8 * k) = bitsOf (bs.take k) :=
  take_flatMap_of_length length_bits k bs

theorem drop_bitsOf (k : ℕ) (bs : Bytes) : (bitsOf bs).drop (8 * k) = bitsOf (bs.drop k) :=
  drop_flatMap_of_length length_bits k bs

private theorem bytesOf_loop (out bs : Bytes) :
    (absorb (fun out b => out ++ [byteOf b]) 8 out (bitsOf bs)).1 = out ++ bs := by
  induction bs generalizing out with
  | nil => simp [bitsOf]
  | cons b bs ih =>
    have hlen : (bitsOf (b :: bs)).length = 8 * (bs.length + 1) := length_bitsOf (b :: bs)
    have htake : (bitsOf (b :: bs)).take 8 = bits b := take_bitsOf 1 (b :: bs)
    have hdrop : (bitsOf (b :: bs)).drop 8 = bitsOf bs := drop_bitsOf 1 (b :: bs)
    rw [absorb_block (by decide) (by omega), htake, hdrop, ih, byteOf_bits, List.append_assoc]
    rfl

theorem bytesOf_bitsOf (bs : Bytes) : bytesOf (bitsOf bs) = bs := bytesOf_loop [] bs

theorem length_bytesOf (bs : List Bool) : (bytesOf bs).length = bs.length / 8 := by
  have hloop : ∀ out : Bytes, (absorb (fun out b => out ++ [byteOf b]) 8 out bs).1.length =
      out.length + bs.length / 8 := by
    induction bs using block_induction (show 0 < 8 by decide) with
    | short bs h =>
      intro out
      rw [absorb_short h, Nat.div_eq_of_lt h, Nat.add_zero]
    | block bs h ih =>
      intro out
      rw [absorb_block (by decide) h, ih, List.length_append, List.length_singleton,
        List.length_drop]
      omega
  exact (hloop []).trans (Nat.zero_add _)

private theorem bits_byteOf : ∀ a b c d e f g h : Bool,
    bits (byteOf [a, b, c, d, e, f, g, h]) = [a, b, c, d, e, f, g, h] := by decide +kernel

theorem bitsOf_bytesOf {bs : List Bool} (h : bs.length % 8 = 0) : bitsOf (bytesOf bs) = bs := by
  have hloop : ∀ out : Bytes, bitsOf (absorb (fun out b => out ++ [byteOf b]) 8 out bs).1 =
      bitsOf out ++ bs := by
    induction bs using block_induction (show 0 < 8 by decide) with
    | short bs hlt =>
      intro out
      have hnil : bs = [] := List.eq_nil_of_length_eq_zero (by omega)
      rw [absorb_short hlt, hnil, List.append_nil]
    | block bs hle ih =>
      intro out
      have height : (bs.take 8).length = 8 := by rw [List.length_take, Nat.min_eq_left hle]
      obtain ⟨a, b, c, d, e, f, g, i, hbyte⟩ :
          ∃ a b c d e f g i, bs.take 8 = [a, b, c, d, e, f, g, i] := by
        match bs.take 8, height with
        | [a, b, c, d, e, f, g, i], _ => exact ⟨a, b, c, d, e, f, g, i, rfl⟩
      have hbits : bits (byteOf (bs.take 8)) = bs.take 8 := by
        rw [hbyte]
        exact bits_byteOf a b c d e f g i
      rw [absorb_block (by decide) hle, ih (by rw [List.length_drop]; omega), bitsOf_append,
        bitsOf_cons, hbits, List.append_assoc]
      simp [bitsOf]
  exact hloop []

theorem bitsOf_injective {a b : Bytes} (h : bitsOf a = bitsOf b) : a = b := by
  rw [← bytesOf_bitsOf a, h, bytesOf_bitsOf]

theorem getElem_bits (b : Byte) {i : ℕ} (h : i < (bits b).length) : (bits b)[i] = b.getMsbD i :=
  List.getElem_ofFn h

private theorem getMsbD_mask : ∀ p i : Fin 8,
    (BitVec.ofNat 8 (0xff >>> p.val) ^^^ 0xff).getMsbD i = decide (i < p) := by decide

private theorem getMsbD_stop : ∀ p i : Fin 8,
    (BitVec.ofNat 8 (1 <<< (7 - p.val))).getMsbD i = decide (i = p) := by decide

/-- The mask of a last byte of `p` bits. -/
theorem bits_mask (p : Fin 8) (b : Byte) :
    bits (b &&& (BitVec.ofNat 8 (0xff >>> p.val) ^^^ 0xff)) =
      (bits b).take p ++ List.replicate (8 - p) false := by
  have hp := p.isLt
  apply List.ext_getElem
  · simp
  intro i hi hi'
  have hmask := getMsbD_mask p ⟨i, hi⟩
  rw [getElem_bits, BitVec.getMsbD_and, hmask, List.getElem_append]
  by_cases h : i < p.val
  · simp [h, getElem_bits, Fin.lt_def]
  · simp [h, Fin.lt_def]

/-- The stop bit behind the first `p` bits. -/
theorem bits_stop (p : Fin 8) {b : Byte} (h : (bits b).drop p = List.replicate (8 - p) false) :
    bits (b ||| BitVec.ofNat 8 (1 <<< (7 - p.val))) =
      (bits b).take p ++ true :: List.replicate (7 - p) false := by
  have hp := p.isLt
  have htail : ∀ i, p.val ≤ i → (hi : i < 8) → b.getMsbD i = false := by
    intro i hpi hi
    have hget := congrArg (fun l => l[i - p.val]?) h
    simpa [List.getElem?_drop, Nat.add_sub_cancel' hpi, hi, getElem_bits,
      show i - p.val < 8 - p.val by omega] using hget
  apply List.ext_getElem
  · simp
    omega
  intro i hi hi'
  have hstop := getMsbD_stop p ⟨i, hi⟩
  rw [getElem_bits, BitVec.getMsbD_or, hstop, List.getElem_append]
  by_cases h : i < p.val
  · simp [h, getElem_bits, Fin.ext_iff, show i ≠ p.val by omega]
  · rw [htail i (by omega) hi, Bool.false_or]
    by_cases heq : i = p.val
    · simp [heq]
    · simp [h, heq, Fin.ext_iff, List.getElem_cons, show i - p.val ≠ 0 by omega]

def padStop (n : ℕ) (xs : List Bool) : List Bool :=
  xs ++ true :: List.replicate (n - 1 - xs.length % n) false

/-- The state behind all the blocks of the padded input. -/
def hashBlocks (f : σ → List Bool → σ) (n : ℕ) (s : σ) (xs : List Bool) : σ :=
  (absorb f n s (padStop n xs)).1

/-- The padding fills the block that waits. -/
theorem hashBlocks_eq {f : σ → List Bool → σ} {n : ℕ} (hn : 0 < n) (s : σ) (xs : List Bool) :
    hashBlocks f n s xs = f (absorb f n s xs).1 ((absorb f n s xs).2 ++
      true :: List.replicate (n - 1 - (absorb f n s xs).2.length) false) := by
  have hlen := length_absorb (f := f) hn s xs
  have hlt := absorb_waits (f := f) hn s xs
  rw [hashBlocks, padStop, absorb_append hn, ← hlen, absorb_exact hn]
  rw [List.length_append, List.length_cons, List.length_replicate]
  omega

end ModbusSecurity.BlockStreams
