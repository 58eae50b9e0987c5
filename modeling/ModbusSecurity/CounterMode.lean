import ModbusSecurity.ByteStrings

/-! # Counter mode over an arbitrary keystream generator

`block c` is the keystream block of counter `c` and `m` its length. Counters are
natural numbers here; how a program represents and wraps them is its own affair. -/
namespace ModbusSecurity.CounterMode
open ByteStrings

/-- Number of blocks that a text of `len` bytes touches. -/
def blockCount (m len : ℕ) : ℕ := (len + (m - 1)) / m

/-- The keystream of the `n` counters from `c` on. -/
def stream (block : ℕ → Bytes) (c n : ℕ) : Bytes := (List.range' c n).flatMap block

/-- Textbook counter mode. -/
def ctrMode (m : ℕ) (block : ℕ → Bytes) (c : ℕ) (input : Bytes) : Bytes :=
  xorBytes input (stream block c (blockCount m input.length))

section Blocks
variable {m : ℕ} {block : ℕ → Bytes}

@[simp] theorem blockCount_zero (hm : 0 < m) : blockCount m 0 = 0 := by
  simp only [blockCount, Nat.zero_add]
  exact Nat.div_eq_of_lt (by omega)

theorem blockCount_le_length (hm : 0 < m) (n : ℕ) : n ≤ m * blockCount m n := by
  have h := Nat.lt_mul_div_succ (n + (m - 1)) hm
  rw [Nat.mul_succ] at h
  simp only [blockCount]
  omega

theorem blockCount_add_mul (hm : 0 < m) (k n : ℕ) :
    blockCount m (m * k + n) = k + blockCount m n := by
  simp only [blockCount, Nat.add_assoc, Nat.mul_add_div hm]

theorem blockCount_mul (hm : 0 < m) (k : ℕ) : blockCount m (m * k) = k := by
  have h := blockCount_add_mul hm k 0
  rwa [blockCount_zero hm, Nat.add_zero, Nat.add_zero] at h

theorem blockCount_pos (hm : 0 < m) {n : ℕ} (hn : 0 < n) : 0 < blockCount m n := by
  have := blockCount_le_length hm n
  by_contra h
  have h0 : blockCount m n = 0 := by omega
  rw [h0] at this
  omega

theorem blockCount_eq_one {n : ℕ} (hn : 0 < n) (hnm : n ≤ m) : blockCount m n = 1 := by
  have hs : n + (m - 1) = m * 1 + (n - 1) := by omega
  rw [blockCount, hs, Nat.mul_add_div (by omega), Nat.div_eq_of_lt (by omega)]

theorem stream_append (c k n : ℕ) :
    stream block c (k + n) = stream block c k ++ stream block (c + k) n := by
  rw [stream, stream, stream, ← List.flatMap_append]
  congr 1
  simp

@[simp] theorem stream_one (c : ℕ) : stream block c 1 = block c := by simp [stream]

theorem length_stream (hb : ∀ c, (block c).length = m) (c n : ℕ) :
    (stream block c n).length = m * n := by
  induction n with
  | zero => rfl
  | succ n ih => simp [stream_append, ih, hb, Nat.mul_succ]

theorem length_ctrMode (hm : 0 < m) (hb : ∀ c, (block c).length = m) (c : ℕ) (input : Bytes) :
    (ctrMode m block c input).length = input.length := by
  simp only [ctrMode, length_xorBytes, length_stream hb]
  exact Nat.min_eq_left (blockCount_le_length hm _)

/-- Applying counter mode twice from one counter restores the input. -/
theorem ctrMode_ctrMode (hm : 0 < m) (hb : ∀ c, (block c).length = m) (c : ℕ) (input : Bytes) :
    ctrMode m block c (ctrMode m block c input) = input := by
  rw [ctrMode, length_ctrMode hm hb, ctrMode, xorBytes_cancel]
  simpa [length_stream hb] using blockCount_le_length hm input.length

/-- Whole blocks in front move the counter of the rest by their number. -/
theorem ctrMode_append (hm : 0 < m) (hb : ∀ c, (block c).length = m) (c k : ℕ) (a b : Bytes)
    (ha : a.length = m * k) :
    ctrMode m block c (a ++ b) = ctrMode m block c a ++ ctrMode m block (c + k) b := by
  have hk : blockCount m a.length = k := by rw [ha, blockCount_mul hm]
  have hn : blockCount m (a ++ b).length = k + blockCount m b.length := by
    rw [List.length_append, ha, blockCount_add_mul hm]
  rw [ctrMode, hn, stream_append, xorBytes_append (by rw [length_stream hb, ha]), ctrMode, hk,
    ctrMode]

/-- A text that fits in one block meets only the keystream block of its counter. -/
theorem ctrMode_short (c : ℕ) (input : Bytes) (h0 : 0 < input.length) (hlen : input.length ≤ m) :
    ctrMode m block c input = xorBytes input (block c) := by
  rw [ctrMode, blockCount_eq_one h0 hlen, stream_one]

theorem getElem?_stream (hb : ∀ c, (block c).length = m) (c n j : ℕ) (h : j < m * n) :
    (stream block c n)[j]? = (block (c + j / m))[j % m]? := by
  have hm : 0 < m := by
    by_contra h0
    obtain rfl : m = 0 := by omega
    simp at h
  induction n generalizing c j with
  | zero => simp at h
  | succ n ih =>
    rw [Nat.add_comm n 1, stream_append, stream_one, List.getElem?_append, hb]
    by_cases hj : j < m
    · simp [hj, Nat.div_eq_of_lt hj, Nat.mod_eq_of_lt hj]
    · obtain ⟨i, rfl⟩ : ∃ i, j = i + m := ⟨j - m, by omega⟩
      have hi : i < m * n := by
        rw [Nat.mul_succ] at h
        omega
      rw [if_neg hj, Nat.add_sub_cancel, ih (c + 1) i hi, Nat.add_div_right _ hm,
        Nat.add_mod_right, Nat.add_assoc, Nat.add_comm 1]

/-- Byte `j` of the output is byte `j` of the input against byte `j mod m` of the
keystream block of counter `c + j / m`. -/
theorem getElem?_ctrMode (hm : 0 < m) (hb : ∀ c, (block c).length = m) (c : ℕ) (input : Bytes)
    {j : ℕ} (hj : j < input.length) :
    ∃ k, (block (c + j / m))[j % m]? = some k ∧
      (ctrMode m block c input)[j]? = some (input[j] ^^^ k) := by
  have hlt : j < m * blockCount m input.length :=
    lt_of_lt_of_le hj (blockCount_le_length hm _)
  have hmod : j % m < (block (c + j / m)).length := by rw [hb]; exact Nat.mod_lt _ hm
  have hs := getElem?_stream hb c (blockCount m input.length) j hlt
  refine ⟨_, List.getElem?_eq_getElem hmod, ?_⟩
  rw [List.getElem?_eq_getElem hmod] at hs
  rw [ctrMode, xorBytes, List.getElem?_zipWith, List.getElem?_eq_getElem hj, hs]

/-- Keystreams from two counters: decrypting with the wrong one leaves the text
under the exclusive or of both. -/
theorem ctrMode_mismatch (hm : 0 < m) (hb : ∀ c, (block c).length = m) (c c' : ℕ)
    (input : Bytes) :
    ctrMode m block c' (ctrMode m block c input) =
      xorBytes input (xorBytes (stream block c (blockCount m input.length))
        (stream block c' (blockCount m input.length))) := by
  rw [ctrMode, length_ctrMode hm hb, ctrMode, xorBytes_assoc]

end Blocks
end ModbusSecurity.CounterMode
