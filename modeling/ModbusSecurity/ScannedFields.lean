import Mathlib.Data.List.TakeWhile
import ModbusSecurity.TextStreams

/-! # Conversions on the fields of a line

`sscanf` reads bytes, but with blanks between its conversions all that it can see of a
line are its fields and where a width cuts one of them. -/
namespace ModbusSecurity.ScannedFields
open ByteStrings TextStreams

/-- The maximal parts without white space. -/
def fields (s : Bytes) : List Bytes := (s.splitOnP isSpace).filter (· ≠ [])

/-- What a conversion leaves of a field comes first in the next one. -/
def unread (left : Bytes) (fs : List Bytes) : List Bytes := if left = [] then fs else left :: fs

/-- `%<width>s` on fields. -/
def takeField (width : ℕ) : List Bytes → Option (Bytes × List Bytes)
  | [] => none
  | f :: fs => some (f.take width, unread (f.drop width) fs)

/-- `%u` and `%d` on fields. -/
def takeNumber : List Bytes → Option ((Bool × ℕ) × List Bytes)
  | [] => none
  | f :: fs =>
    let (neg, s) := scanSign f
    let ds := s.takeWhile isDigit
    if ds = [] then none else some ((neg, digitsValue ds), unread (s.dropWhile isDigit) fs)

theorem fields_space {b : Byte} (hb : isSpace b = true) (s : Bytes) : fields (b :: s) = fields s := by
  have hsplit := List.splitOnP_append_cons [] s hb
  rw [List.nil_append, List.splitOnP_nil] at hsplit
  rw [fields, hsplit, List.singleton_append, List.filter_cons_of_neg (by simp)]
  rfl

theorem fields_append_space {b : Byte} (hb : isSpace b = true) (s t : Bytes) :
    fields (s ++ b :: t) = fields s ++ fields t := by
  rw [fields, List.splitOnP_append_cons s t hb, List.filter_append]
  rfl

theorem fields_nil : fields [] = [] := rfl

theorem fields_word {tok : Bytes} (htok : ∀ b ∈ tok, isSpace b = false) :
    fields tok = unread tok [] := by
  rw [fields, List.splitOnP_eq_singleton htok, unread]
  split <;> simp_all

/-- A word and what follows it, which begins with white space if at all. -/
theorem fields_word_append {tok rest : Bytes} (htok : ∀ b ∈ tok, isSpace b = false)
    (hrest : ∀ b ∈ rest.head?, isSpace b = true) :
    fields (tok ++ rest) = unread tok (fields rest) := by
  cases rest with
  | nil => rw [List.append_nil, fields_word htok, fields_nil]
  | cons b rest =>
    have hb := hrest b rfl
    rw [fields_append_space hb, fields_word htok, fields_space hb, unread, unread]
    split <;> rfl

theorem fields_dropWhile {p : Byte → Bool} (hp : ∀ b, p b = true → isSpace b = true) (s : Bytes) :
    fields (s.dropWhile p) = fields s := by
  induction s with
  | nil => rfl
  | cons b s ih =>
    rw [List.dropWhile_cons]
    split
    · rw [ih, fields_space (hp b ‹_›)]
    · rfl

private theorem flatten_splitOnP (p : Byte → Bool) (s : Bytes) :
    (s.splitOnP p).flatten = s.filter fun b => !p b := by
  induction s with
  | nil => rfl
  | cons b s ih =>
    obtain ⟨first, others, hsplit⟩ := List.exists_cons_of_ne_nil (List.splitOnP_ne_nil p s)
    rw [List.splitOnP_cons_eq_if_modifyHead]
    rw [hsplit] at ih ⊢
    cases hb : p b with
    | true => simpa [hb] using ih
    | false => simpa [hb] using ih

/-- The fields hold all that is not white space. -/
theorem flatten_fields (s : Bytes) : (fields s).flatten = s.filter fun b => !isSpace b := by
  rw [fields, ← flatten_splitOnP]
  induction s.splitOnP isSpace with
  | nil => rfl
  | cons f fs ih =>
    by_cases hf : f = []
    · rw [List.filter_cons_of_neg (by simp [hf]), ih, hf]
      rfl
    · rw [List.filter_cons_of_pos (by simp [hf]), List.flatten_cons, ih, List.flatten_cons]

theorem mem_of_mem_fields {f s : Bytes} {b : Byte} (hf : f ∈ fields s) (hb : b ∈ f) : b ∈ s := by
  have hmem := List.mem_flatten_of_mem hf hb
  rw [flatten_fields] at hmem
  exact (List.mem_filter.mp hmem).1

theorem exists_field {s : Bytes} {b : Byte} (hb : b ∈ s) (hspace : isSpace b = false) :
    ∃ f ∈ fields s, b ∈ f := by
  have hmem : b ∈ (fields s).flatten := by
    rw [flatten_fields, List.mem_filter]
    exact ⟨hb, by simp [hspace]⟩
  exact List.mem_flatten.mp hmem

private theorem while_append {p : Byte → Bool} {t rest : Bytes}
    (hrest : ∀ b ∈ rest.head?, p b = false) : (t ++ rest).takeWhile p = t.takeWhile p ∧
      (t ++ rest).dropWhile p = t.dropWhile p ++ rest := by
  induction t with
  | nil =>
    cases rest with
    | nil => exact ⟨rfl, rfl⟩
    | cons b rest => simp [hrest b rfl]
  | cons a t ih =>
    cases ha : p a with
    | true => simp [ha, ih]
    | false => simp [ha]

private theorem not_isDigit_of_isSpace {b : Byte} (h : isSpace b = true) : isDigit b = false := by
  cases hdigit : isDigit b with
  | false => rfl
  | true =>
    simp only [isDigit, Bool.and_eq_true, decide_eq_true_eq] at hdigit
    simp only [isSpace, Bool.or_eq_true, beq_iff_eq, Bool.and_eq_true, decide_eq_true_eq] at h
    rcases h with rfl | h
    · exact absurd hdigit.1 (by decide)
    · omega

/-- The next word of a string and what follows it. -/
theorem exists_word (s : Bytes) : ∃ tok rest, skipSpace s = tok ++ rest ∧
    (∀ b ∈ tok, isSpace b = false) ∧ (∀ b ∈ rest.head?, isSpace b = true) ∧
    (tok = [] → rest = []) ∧ fields s = unread tok (fields rest) := by
  have hsplit := List.takeWhile_append_dropWhile (p := fun b => !isSpace b) (l := skipSpace s)
  generalize htok : (skipSpace s).takeWhile (fun b => !isSpace b) = tok at hsplit
  generalize hrest : (skipSpace s).dropWhile (fun b => !isSpace b) = rest at hsplit
  have hword : ∀ b ∈ tok, isSpace b = false := by
    intro b hb
    rw [← htok] at hb
    simpa using List.mem_takeWhile_imp hb
  have hblank : ∀ b ∈ rest.head?, isSpace b = true := by
    intro b hb
    rw [← hrest] at hb
    have := List.head?_dropWhile_not (fun b => !isSpace b) (skipSpace s)
    rw [Option.mem_def.mp hb] at this
    simpa using this
  refine ⟨tok, rest, hsplit.symm, hword, hblank, ?_, ?_⟩
  · rintro rfl
    cases rest with
    | nil => rfl
    | cons b rest =>
      have hfront := List.head?_dropWhile_not isSpace s
      rw [← skipSpace, ← hsplit] at hfront
      exact absurd ((hblank b rfl).symm.trans hfront) (by decide)
  · rw [← fields_word_append hword hblank, hsplit]
    exact (fields_dropWhile (fun _ hb => hb) s).symm

theorem scanS_fields {width : ℕ} (hwidth : 0 < width) (s : Bytes) :
    (scanS width s).map (Prod.map id fields) = takeField width (fields s) := by
  obtain ⟨tok, rest, hskip, hword, hblank, hnone, hfields⟩ := exists_word s
  have hrest : ∀ b ∈ rest.head?, (!isSpace b) = false := fun b hb => by simp [hblank b hb]
  have htake : (tok ++ rest).takeWhile (fun b => !isSpace b) = tok := by
    rw [(while_append hrest).1, List.takeWhile_eq_self_iff]
    exact fun b hb => by simp [hword b hb]
  rw [hfields, scanS, hskip, htake]
  by_cases htok : tok = []
  · rw [htok, hnone htok]
    simp [unread, fields_nil, takeField]
  · have hsome : tok.take width ≠ [] := by
      rw [Ne, List.take_eq_nil_iff, not_or]
      exact ⟨Nat.pos_iff_ne_zero.mp hwidth, htok⟩
    have hdrop : (tok ++ rest).drop (tok.take width).length = tok.drop width ++ rest := by
      rw [List.length_take]
      rcases Nat.le_total width tok.length with hle | hle
      · rw [Nat.min_eq_left hle, List.drop_append_of_le_length hle]
      · rw [Nat.min_eq_right hle, List.drop_left, List.drop_of_length_le hle, List.nil_append]
    have hleft : ∀ b ∈ tok.drop width, isSpace b = false := fun b hb =>
      hword b (List.mem_of_mem_drop hb)
    simp only [if_neg hsome, Option.map_some, Prod.map_apply, id_eq, hdrop,
      fields_word_append hleft hblank, unread, if_neg htok, takeField]

theorem scanNumber_fields (s : Bytes) :
    (scanNumber s).map (Prod.map id fields) = takeNumber (fields s) := by
  obtain ⟨tok, rest, hskip, hword, hblank, hnone, hfields⟩ := exists_word s
  have hrest : ∀ b ∈ rest.head?, isDigit b = false := fun b hb => not_isDigit_of_isSpace (hblank b hb)
  cases tok with
  | nil =>
    rw [hnone rfl] at hskip hfields
    rw [hfields, scanNumber, hskip]
    rfl
  | cons b tok =>
    have hsign : scanSign (b :: tok ++ rest) =
        ((scanSign (b :: tok)).1, (scanSign (b :: tok)).2 ++ rest) := by
      simp only [List.cons_append, scanSign]
      split
      · rfl
      · split <;> rfl
    have hleft : ∀ a ∈ (scanSign (b :: tok)).2.dropWhile isDigit, isSpace a = false := by
      have hsub : ∀ a ∈ (scanSign (b :: tok)).2, a ∈ b :: tok := by
        intro a ha
        simp only [scanSign] at ha
        split at ha
        · exact List.mem_cons_of_mem b ha
        · split at ha
          · exact List.mem_cons_of_mem b ha
          · exact ha
      exact fun a ha => hword a (hsub a ((List.dropWhile_sublist isDigit).mem ha))
    rw [hfields, unread, if_neg (List.cons_ne_nil b tok), scanNumber, hskip, hsign]
    simp only [(while_append hrest).1, (while_append hrest).2, takeNumber]
    split
    · rfl
    · rw [← fields_word_append hleft hblank]
      rfl

/-- A field that is shorter than the width is taken as it is. -/
theorem takeField_short {width : ℕ} {fs rest : List Bytes} {tok : Bytes}
    (h : takeField width fs = some (tok, rest)) (hshort : tok.length < width) : fs = tok :: rest := by
  cases fs with
  | nil => cases h
  | cons f others =>
    obtain ⟨rfl, rfl⟩ := Prod.mk.inj (Option.some.inj h)
    have hf : f.length ≤ width := by
      rw [List.length_take] at hshort
      omega
    rw [List.take_of_length_le hf, List.drop_of_length_le hf, unread, if_pos rfl]

theorem takeField_cons {width : ℕ} {tok : Bytes} (h : tok.length ≤ width) (fs : List Bytes) :
    takeField width (tok :: fs) = some (tok, fs) := by
  rw [takeField, List.take_of_length_le h, List.drop_of_length_le h, unread, if_pos rfl]

def IsSign (sign : Bytes) : Prop := sign = [] ∨ sign = [ch '+'] ∨ sign = [ch '-']

theorem scanSign_eq (f : Bytes) : ∃ sign, IsSign sign ∧ f = sign ++ (scanSign f).2 ∧
    (scanSign f).1 = (sign == [ch '-']) := by
  cases f with
  | nil => exact ⟨[], .inl rfl, rfl, rfl⟩
  | cons b s =>
    rw [scanSign]
    split
    · rename_i hb
      exact ⟨[ch '-'], .inr (.inr rfl), by rw [hb]; rfl, rfl⟩
    · split
      · rename_i hb
        exact ⟨[ch '+'], .inr (.inl rfl), by rw [hb]; rfl, rfl⟩
      · exact ⟨[], .inl rfl, rfl, rfl⟩

theorem scanSign_append {sign ds : Bytes} (hsign : IsSign sign) (hds : ds ≠ [])
    (hdigits : ∀ b ∈ ds, isDigit b = true) (t : Bytes) :
    scanSign (sign ++ (ds ++ t)) = (sign == [ch '-'], ds ++ t) := by
  rcases hsign with rfl | rfl | rfl
  · cases ds with
    | nil => exact absurd rfl hds
    | cons b ds =>
      have hb := hdigits b (List.mem_cons_self ..)
      have hminus : b ≠ ch '-' := by rintro rfl; cases hb
      have hplus : b ≠ ch '+' := by rintro rfl; cases hb
      simp [scanSign, hminus, hplus]
  · rfl
  · rfl

theorem takeNumber_eq_some {fs rest : List Bytes} {neg : Bool} {n : ℕ}
    (h : takeNumber fs = some ((neg, n), rest)) : ∃ sign ds left others, IsSign sign ∧
      (ds ≠ [] ∧ ∀ b ∈ ds, isDigit b = true) ∧ fs = (sign ++ (ds ++ left)) :: others ∧
      neg = (sign == [ch '-']) ∧ n = digitsValue ds ∧ rest = unread left others := by
  cases fs with
  | nil => cases h
  | cons f others =>
    obtain ⟨sign, hsign, hf, hneg⟩ := scanSign_eq f
    rw [takeNumber] at h
    generalize scanSign f = scanned at h hf hneg
    obtain ⟨hds, hsome⟩ := Option.ite_none_left_eq_some.mp h
    simp only [Option.some.injEq, Prod.mk.injEq] at hsome
    obtain ⟨⟨rfl, rfl⟩, rfl⟩ := hsome
    refine ⟨sign, _, _, others, hsign, ⟨hds, fun b hb => List.mem_takeWhile_imp hb⟩, ?_, hneg, rfl, rfl⟩
    rw [List.takeWhile_append_dropWhile, ← hf]

theorem takeNumber_append {sign ds left : Bytes} (hsign : IsSign sign) (hds : ds ≠ [])
    (hdigits : ∀ b ∈ ds, isDigit b = true) (hleft : ∀ b ∈ left.head?, isDigit b = false)
    (others : List Bytes) : takeNumber ((sign ++ (ds ++ left)) :: others) =
      some ((sign == [ch '-'], digitsValue ds), unread left others) := by
  obtain ⟨htake, hdrop⟩ := while_append (p := isDigit) (t := ds) hleft
  have hall : ds.takeWhile isDigit = ds := List.takeWhile_eq_self_iff.mpr hdigits
  have hnone : ds.dropWhile isDigit = [] := List.dropWhile_eq_nil_iff.mpr hdigits
  rw [takeNumber, scanSign_append hsign hds hdigits]
  simp only [htake, hdrop, hall, hnone, if_neg hds, List.nil_append]

end ModbusSecurity.ScannedFields
