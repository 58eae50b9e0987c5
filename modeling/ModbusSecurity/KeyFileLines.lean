import ModbusSecurity.BufferedLines
import ModbusSecurity.KeyStore
import ModbusSecurity.ScannedFields

/-! # The key file, line by line

`key_store_load_file` reads through a buffer of 256 bytes. A longer line is read in pieces,
and each piece is taken for a line of its own. -/
namespace ModbusSecurity.KeyFileLines
open ByteStrings TextStreams BufferedLines ScannedFields KeyStore

/-- One line of the file, on the count and the table. -/
def processLine (s : ℕ × KeyTable) (line : Bytes) : ℕ × KeyTable :=
  match parseKeyLine line with
  | none => s
  | some e => (s.1 + 1, Function.update s.2 e.1 e.2)

/-- The count and the table as `key_store_load_file` returns and leaves them. -/
def loaded (s : ℕ × KeyTable) : Option ℕ × KeyTable := (some s.1, s.2)

def isBlank (b : Byte) : Bool := b == ch ' ' || b == ch '\t'

/-- An empty line, or one whose first character that is not blank is `#`. -/
def IsInert (line : Bytes) : Prop :=
  line = [] ∨ (line.dropWhile isBlank).head? = some (ch '#')

/-- Each line has its own effect, and the file that of its lines from left to right. -/
structure ActsLineByLine (text : Bytes) : Prop where
  inert : ∀ l ∈ textLines text, IsInert l → ∀ table, keyStoreLoadFile table (some l) = (some 0, table)
  line : ∀ l ∈ textLines text, ∀ table,
    keyStoreLoadFile table (some l) = loaded (processLine (0, table) l)
  file : ∀ table, keyStoreLoadFile table (some text) =
    loaded ((textLines text).foldl processLine (0, table))

/-- The lines that do not fit in the buffer with their newline register as much in pieces of
255 bytes as they do in one. -/
def PiecesAgree (text : Bytes) : Prop :=
  ∀ l ∈ textLines text, 255 < l.length →
    (pieces 255 l).filterMap parseKeyLine = (parseKeyLine l).toList

/-- The five conversions on the fields of a line. -/
def readKeyFields (fs : List Bytes) : Option (Int32Bits × Bytes × Bytes × Bytes × Bytes) := do
  let ((neg, n), fs) ← takeNumber fs
  let (dirTok, fs) ← takeField 7 fs
  let (encTok, fs) ← takeField 23 fs
  let (macTok, fs) ← takeField 23 fs
  let (ctrTok, _) ← takeField 15 fs
  pure (toUnsigned neg n, dirTok, encTok, macTok, ctrTok)

theorem scanKeyLine_fields (p : Bytes) : scanKeyLine p = readKeyFields (fields p) := by
  simp only [scanKeyLine, readKeyFields, scanU, Option.bind_eq_bind, ← scanNumber_fields,
    Option.bind_map, Function.comp_def, Prod.map_fst, Prod.map_snd, id_eq,
    ← scanS_fields (show 0 < 7 by omega), ← scanS_fields (show 0 < 23 by omega),
    ← scanS_fields (show 0 < 15 by omega)]

/-- Where the pointer `p` of the loop stops. -/
def content (line : Bytes) : Bytes := (cString line).dropWhile isBlank

theorem parseKeyLine_eq (line : Bytes) : parseKeyLine line =
    if isCommentLine (content line) then none
    else (readKeyFields (fields (content line))).bind checkTokens := by
  rw [← scanKeyLine_fields]
  rfl

theorem content_newline (l : Bytes) :
    content (l ++ [ch '\n']) = content l ∨ content (l ++ [ch '\n']) = content l ++ [ch '\n'] := by
  rw [content, content, cString, cString, List.takeWhile_append]
  split
  · rename_i hlen
    have hall : l.takeWhile (· ≠ 0) = l := (List.takeWhile_prefix _).eq_of_length hlen
    right
    rw [hall, show [ch '\n'].takeWhile (· ≠ (0 : Byte)) = [ch '\n'] from rfl, List.dropWhile_append]
    split
    · rename_i hempty
      rw [List.isEmpty_iff.mp hempty]
      rfl
    · rfl
  · exact .inl rfl

/-- The newline at the end of a buffer makes no difference. -/
theorem parseKeyLine_newline (l : Bytes) : parseKeyLine (l ++ [ch '\n']) = parseKeyLine l := by
  rcases content_newline l with h | h
  · rw [parseKeyLine_eq, parseKeyLine_eq, h]
  · have hcomment : isCommentLine (content l ++ [ch '\n']) = isCommentLine (content l) := by
      cases content l <;> rfl
    rw [parseKeyLine_eq, parseKeyLine_eq, h, hcomment, fields_append_space rfl, fields_nil,
      List.append_nil]

theorem parseKeyLine_nil : parseKeyLine [] = none := rfl

theorem valid_of_parseKeyLine {line : Bytes} {e : Channel × KeyEntry}
    (h : parseKeyLine line = some e) : e.2.valid = true := by
  rw [parseKeyLine_eq] at h
  split at h
  · cases h
  obtain ⟨tokens, -, h⟩ := Option.bind_eq_some_iff.mp h
  rw [checkTokens.eq_def] at h
  dsimp only at h
  split at h
  · obtain ⟨c, -, rfl⟩ := Option.map_eq_some_iff.mp h
    rfl
  · cases h

theorem parseKeyLine_inert {line : Bytes} (h : IsInert line) : parseKeyLine line = none := by
  rcases h with rfl | h
  · exact parseKeyLine_nil
  · have hcontent : (content line).head? = some (ch '#') := by
      rw [content, cString]
      induction line with
      | nil => cases h
      | cons b s ih =>
        cases hb : isBlank b with
        | true =>
          have hne : decide (b ≠ 0) = true := by
            rw [decide_eq_true_eq]
            rintro rfl
            cases hb
          have hs : (s.dropWhile isBlank).head? = some (ch '#') := by
            rwa [List.dropWhile_cons, if_pos hb] at h
          rw [List.takeWhile_cons, if_pos hne, List.dropWhile_cons, if_pos hb]
          exact ih hs
        | false =>
          rw [List.dropWhile_cons, hb] at h
          obtain rfl := Option.some.inj h
          rfl
    have hcomment : isCommentLine (content line) = true := by
      rw [isCommentLine, hcontent]
      rfl
    rw [parseKeyLine_eq, if_pos hcomment]

theorem keyFileEntries_eq (text : Bytes) : keyFileEntries text =
    (textLines text).flatMap fun l => (pieces 255 l).filterMap parseKeyLine :=
  filterMap_fileLines (by omega) parseKeyLine_newline parseKeyLine_nil text

theorem foldl_processLine (lines : List Bytes) (s : ℕ × KeyTable) :
    lines.foldl processLine s = (s.1 + (lines.filterMap parseKeyLine).length,
      (lines.filterMap parseKeyLine).foldl (fun t e => Function.update t e.1 e.2) s.2) := by
  induction lines generalizing s with
  | nil => rfl
  | cons l lines ih =>
    rw [List.foldl_cons, ih, processLine, List.filterMap_cons]
    cases parseKeyLine l with
    | none => rfl
    | some e => simp [Nat.add_assoc, Nat.add_comm 1]

theorem keyStoreLoadFile_eq (table : KeyTable) (text : Bytes) :
    keyStoreLoadFile table (some text) = (some (keyFileEntries text).length,
      (keyFileEntries text).foldl (fun t e => Function.update t e.1 e.2) table) := rfl

theorem processLine_eq (s : ℕ × KeyTable) (line : Bytes) :
    processLine s line = (s.1 + (parseKeyLine line).toList.length,
      (parseKeyLine line).toList.foldl (fun t e => Function.update t e.1 e.2) s.2) := by
  rw [processLine]
  cases parseKeyLine line <;> rfl

theorem keyFileEntries_line {text l : Bytes} (hl : l ∈ textLines text) :
    keyFileEntries l = (pieces 255 l).filterMap parseKeyLine := by
  rw [keyFileEntries_eq, textLines_singleton (newline_not_mem hl), List.flatMap_singleton]

/-- A line that fits in the buffer is read in one piece. -/
theorem pieces_agree_of_short {l : Bytes} (h : l.length ≤ 255) :
    (pieces 255 l).filterMap parseKeyLine = (parseKeyLine l).toList := by
  by_cases hnil : l = []
  · rw [hnil]
    rfl
  · rw [pieces_short hnil h, List.filterMap_cons]
    cases parseKeyLine l <;> rfl

theorem filterMap_eq_flatMap (lines : List Bytes) :
    lines.filterMap parseKeyLine = lines.flatMap fun l => (parseKeyLine l).toList := by
  induction lines with
  | nil => rfl
  | cons l lines ih =>
    rw [List.filterMap_cons, List.flatMap_cons, ← ih]
    cases parseKeyLine l <;> rfl

/-- Two registrations with the same effect on an empty table are the same. -/
theorem eq_of_update_eq {e e' : Channel × KeyEntry} (hvalid : e'.2.valid = true)
    (h : Function.update emptyKeyTable e'.1 e'.2 = Function.update emptyKeyTable e.1 e.2) :
    e' = e := by
  have hcell := congrFun h e'.1
  rw [Function.update_self] at hcell
  by_cases hc : e'.1 = e.1
  · rw [hc, Function.update_self] at hcell
    exact Prod.ext hc hcell
  · rw [Function.update_of_ne hc] at hcell
    rw [hcell] at hvalid
    cases hvalid

theorem actsLineByLine_of_pieces {text : Bytes} (h : PiecesAgree text) : ActsLineByLine text := by
  have hagree : ∀ l ∈ textLines text,
      (pieces 255 l).filterMap parseKeyLine = (parseKeyLine l).toList := by
    intro l hl
    rcases Nat.lt_or_ge 255 l.length with hlong | hshort
    · exact h l hl hlong
    · exact pieces_agree_of_short hshort
  have hline : ∀ l ∈ textLines text, ∀ table,
      keyStoreLoadFile table (some l) = loaded (processLine (0, table) l) := by
    intro l hl table
    rw [keyStoreLoadFile_eq, keyFileEntries_line hl, hagree l hl, processLine_eq, loaded,
      Nat.zero_add]
  constructor
  · intro l hl hinert table
    rw [hline l hl, processLine, parseKeyLine_inert hinert]
    rfl
  · exact hline
  · intro table
    have hentries : keyFileEntries text = (textLines text).filterMap parseKeyLine := by
      rw [keyFileEntries_eq, filterMap_eq_flatMap, List.flatMap_congr hagree]
    rw [keyStoreLoadFile_eq, hentries, foldl_processLine, loaded, Nat.zero_add]

theorem pieces_of_actsLineByLine {text : Bytes} (h : ActsLineByLine text) : PiecesAgree text := by
  intro l hl _
  have heffect := h.line l hl emptyKeyTable
  rw [keyStoreLoadFile_eq, keyFileEntries_line hl, processLine_eq, loaded, Nat.zero_add,
    Prod.mk.injEq, Option.some.injEq] at heffect
  obtain ⟨hlen, htable⟩ := heffect
  cases hparse : parseKeyLine l with
  | none =>
    rw [hparse] at hlen
    exact List.length_eq_zero_iff.mp hlen
  | some e =>
    rw [hparse] at hlen htable
    obtain ⟨e', he'⟩ := List.length_eq_one_iff.mp hlen
    have hmem : e' ∈ (pieces 255 l).filterMap parseKeyLine := by rw [he']; exact List.mem_cons_self ..
    obtain ⟨piece, -, hpiece⟩ := List.mem_filterMap.mp hmem
    rw [he'] at htable ⊢
    rw [eq_of_update_eq (valid_of_parseKeyLine hpiece) htable]
    rfl

/-- A text is read line by line exactly if its long lines register the same in pieces. -/
theorem acts_line_by_line_iff (text : Bytes) : ActsLineByLine text ↔ PiecesAgree text :=
  ⟨pieces_of_actsLineByLine, actsLineByLine_of_pieces⟩

/-- A comment of 255 characters and then what would be an entry. -/
def longComment : Bytes :=
  ch '#' :: List.replicate 254 (ch 'x') ++ ascii ['1', ' ', 'm', '2', 's', ' '] ++
    List.replicate 16 (ch 'e') ++ [ch ' '] ++ List.replicate 16 (ch 'm') ++ [ch ' '] ++
    List.replicate 7 (ch '0') ++ [ch '1']

/-- A single comment line registers a key. -/
theorem long_comment_registers : (0 : Byte) ∉ longComment ∧ ¬ ActsLineByLine longComment := by
  refine ⟨by decide, fun h => ?_⟩
  have hline : textLines longComment = [longComment] := textLines_singleton (by decide)
  have hcount : (keyFileEntries longComment).length = 1 := by decide +kernel
  have hnone := h.inert longComment (by rw [hline]; exact List.mem_cons_self ..) (.inr rfl) emptyKeyTable
  rw [keyStoreLoadFile_eq, hcount] at hnone
  cases (Prod.mk.inj hnone).1

end ModbusSecurity.KeyFileLines
