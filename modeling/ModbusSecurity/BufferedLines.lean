import Mathlib.Data.List.Basic
import ModbusSecurity.TextStreams

/-! # Lines longer than the buffer

A bounded `fgets` hands a long line over in pieces. What a consumer of single buffers sees
of a text is the pieces of its lines, in order. -/
namespace ModbusSecurity.BufferedLines
open ByteStrings TextStreams
variable {β : Type} {n : ℕ}

def textLines (text : Bytes) : List Bytes := text.splitOn (ch '\n')

theorem newline_not_mem {text l : Bytes} (h : l ∈ textLines text) : ch '\n' ∉ l := by
  induction text generalizing l with
  | nil =>
    obtain rfl := List.mem_singleton.mp h
    exact List.not_mem_nil
  | cons b text ih =>
    obtain ⟨first, others, hlines⟩ := List.exists_cons_of_ne_nil (List.splitOn_ne_nil (ch '\n') text)
    rw [textLines, hlines] at ih
    rw [textLines, List.splitOn_cons_eq_if_modifyHead, hlines] at h
    split at h
    · rcases List.mem_cons.mp h with rfl | h
      · exact List.not_mem_nil
      · exact ih h
    · rename_i hb
      rcases List.mem_cons.mp h with rfl | h
      · intro hmem
        rcases List.mem_cons.mp hmem with rfl | hmem
        · exact hb (beq_self_eq_true _)
        · exact ih (List.mem_cons_self ..) hmem
      · exact ih (List.mem_cons_of_mem _ h)

theorem textLines_singleton {l : Bytes} (h : ch '\n' ∉ l) : textLines l = [l] :=
  List.splitOn_eq_singleton h

/-- A line cut every `n` bytes. -/
def pieces (n : ℕ) (l : Bytes) : List Bytes :=
  (List.range ((l.length + n - 1) / n)).map fun i => (l.drop (n * i)).take n

theorem pieces_nil (hn : 0 < n) : pieces n [] = [] := by
  rw [pieces, List.length_nil, Nat.zero_add, Nat.div_eq_of_lt (by omega)]
  rfl

theorem pieces_step (hn : 0 < n) {l : Bytes} (hl : l ≠ []) :
    pieces n l = l.take n :: pieces n (l.drop n) := by
  have hpos := List.length_pos_iff.mpr hl
  have hcount : (l.length + n - 1) / n = (l.length - n + n - 1) / n + 1 := by
    rcases Nat.le_total n l.length with hle | hle
    · rw [← Nat.add_div_right _ hn]
      congr 1
      omega
    · rw [Nat.sub_eq_zero_of_le hle, Nat.zero_add, Nat.div_eq_of_lt (show n - 1 < n by omega),
        Nat.div_eq_of_lt_le]
      · omega
      · omega
  rw [pieces, pieces, hcount, List.length_drop, List.range_succ_eq_map, List.map_cons, List.map_map]
  simp only [Nat.mul_zero, List.drop_zero, Function.comp_def, List.drop_drop, Nat.mul_succ,
    Nat.succ_eq_add_one, Nat.add_comm]

/-- A line that fits is its only piece. -/
theorem pieces_short {l : Bytes} (hl : l ≠ []) (hn : l.length ≤ n) : pieces n l = [l] := by
  have hpos := List.length_pos_iff.mpr hl
  rw [pieces_step (by omega) hl, List.take_of_length_le hn, List.drop_of_length_le hn,
    pieces_nil (by omega)]

theorem takeLine_full {l : Bytes} (hl : ch '\n' ∉ l) (hn : n ≤ l.length) (rest : Bytes) :
    takeLine n (l ++ rest) = (l.take n, l.drop n ++ rest) := by
  induction n generalizing l with
  | zero => rfl
  | succ n ih =>
    cases l with
    | nil => cases hn
    | cons b l =>
      rw [List.mem_cons, not_or] at hl
      rw [List.cons_append, takeLine, if_neg (Ne.symm hl.1), ih hl.2 (Nat.le_of_succ_le_succ hn)]
      rfl

theorem takeLine_end {l : Bytes} (hl : ch '\n' ∉ l) (hn : l.length ≤ n) :
    takeLine n l = (l, []) := by
  induction n generalizing l with
  | zero =>
    obtain rfl := List.length_eq_zero_iff.mp (Nat.le_zero.mp hn)
    rfl
  | succ n ih =>
    cases l with
    | nil => rfl
    | cons b l =>
      rw [List.mem_cons, not_or] at hl
      rw [takeLine, if_neg (Ne.symm hl.1), ih hl.2 (Nat.le_of_succ_le_succ hn)]

/-- The last line of a text without a newline. -/
theorem fileLines_last (hn : 0 < n) {l : Bytes} (hl : ch '\n' ∉ l) :
    fileLines (n + 1) l = pieces n l := by
  induction hlen : l.length using Nat.strong_induction_on generalizing l with
  | h len ih =>
    by_cases hnil : l = []
    · rw [hnil, pieces_nil hn]
      rfl
    rw [fileLines_step (by omega) hnil, pieces_step hn hnil, Nat.add_sub_cancel]
    rcases Nat.lt_or_ge n l.length with hlt | hle
    · have hfull := takeLine_full hl hlt.le []
      rw [List.append_nil, List.append_nil] at hfull
      rw [hfull]
      have hdrop : ch '\n' ∉ l.drop n := fun h => hl (List.mem_of_mem_drop h)
      exact congrArg _ (ih _ (by rw [List.length_drop]; omega) hdrop rfl)
    · rw [takeLine_end hl hle, List.take_of_length_le hle, List.drop_of_length_le hle, pieces_nil hn]
      rfl

section Consumer
variable {f : Bytes → Option β}

/-- A consumer that ignores the newline sees the pieces of a line. -/
theorem filterMap_fileLines_append (hn : 0 < n) (hnewline : ∀ l, f (l ++ [ch '\n']) = f l)
    (hempty : f [] = none) {l : Bytes} (hl : ch '\n' ∉ l) (rest : Bytes) :
    (fileLines (n + 1) (l ++ ch '\n' :: rest)).filterMap f =
      (pieces n l).filterMap f ++ (fileLines (n + 1) rest).filterMap f := by
  induction hlen : l.length using Nat.strong_induction_on generalizing l with
  | h len ih =>
    rw [fileLines_step (by omega) (by simp), Nat.add_sub_cancel]
    rcases Nat.lt_or_ge l.length n with hlt | hle
    · rw [takeLine_newline _ l rest hl hlt, List.filterMap_cons, hnewline]
      by_cases hnil : l = []
      · rw [hnil, pieces_nil hn, hempty]
        rfl
      · rw [pieces_short hnil hlt.le, List.filterMap_cons]
        cases f l <;> rfl
    · have hnil : l ≠ [] := by
        rintro rfl
        exact absurd hle (Nat.not_le.mpr hn)
      have hdrop : ch '\n' ∉ l.drop n := fun h => hl (List.mem_of_mem_drop h)
      rw [takeLine_full hl hle, pieces_step hn hnil, List.filterMap_cons, List.filterMap_cons,
        ih _ (by rw [List.length_drop]; omega) hdrop rfl]
      cases f (l.take n) <;> rfl

/-- What a consumer of buffers takes from a text, line by line. -/
theorem filterMap_fileLines (hn : 0 < n) (hnewline : ∀ l, f (l ++ [ch '\n']) = f l)
    (hempty : f [] = none) (text : Bytes) : (fileLines (n + 1) text).filterMap f =
      (textLines text).flatMap fun l => (pieces n l).filterMap f := by
  induction hlen : text.length using Nat.strong_induction_on generalizing text with
  | h len ih =>
    by_cases hmem : ch '\n' ∈ text
    · obtain ⟨l, rest, rfl, hl⟩ := List.eq_append_cons_of_mem hmem
      have hshort : rest.length < len := by
        rw [← hlen, List.length_append, List.length_cons]
        omega
      rw [filterMap_fileLines_append hn hnewline hempty hl, textLines,
        List.splitOn_append_cons_self_of_not_mem hl, List.flatMap_cons, ih _ hshort rest rfl]
      rfl
    · rw [fileLines_last hn hmem, textLines, List.splitOn_eq_singleton hmem, List.flatMap_singleton]

end Consumer
end ModbusSecurity.BufferedLines
