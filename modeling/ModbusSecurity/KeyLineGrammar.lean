import ModbusSecurity.KeyFileLines

/-! # The grammar of a key line

The documented format of a line next to what the five conversions and the checks behind
them let through. -/
namespace ModbusSecurity.KeyLineGrammar
open ByteStrings TextStreams BufferedLines ScannedFields KeyStore KeyFileLines

/-! ### The documented lines -/

/-- A decimal number in `0..247`. -/
def IsAddress (f : Bytes) : Prop :=
  f ≠ [] ∧ (∀ b ∈ f, isDigit b = true) ∧ digitsValue f ≤ keyStoreMaxAddr

/-- Eight hexadecimal digits. -/
def IsCounter (f : Bytes) : Prop := f.length = 8 ∧ ∀ b ∈ f, (hexDigit b).isSome = true

instance (f : Bytes) : Decidable (IsAddress f) := inferInstanceAs (Decidable (_ ∧ _))
instance (f : Bytes) : Decidable (IsCounter f) := inferInstanceAs (Decidable (_ ∧ _))

def hexValue (ds : Bytes) : ℕ := ds.foldl (fun n b => 16 * n + (hexDigit b).getD 0) 0

theorem hexDigit_lt (b : Byte) : (hexDigit b).getD 0 < 16 := by
  rw [hexDigit, isDigit]
  split
  · rename_i h
    simp only [Bool.and_eq_true, decide_eq_true_eq] at h
    rw [Option.getD_some]
    omega
  split
  · rename_i h
    simp only [Bool.and_eq_true, decide_eq_true_eq] at h
    rw [Option.getD_some]
    omega
  split
  · rename_i h
    simp only [Bool.and_eq_true, decide_eq_true_eq] at h
    rw [Option.getD_some]
    omega
  · exact Nat.succ_pos 15

theorem hexValue_lt_pow (ds : Bytes) : hexValue ds < 16 ^ ds.length := by
  induction ds using List.reverseRecOn with
  | nil => exact Nat.one_pos
  | append_singleton ds b ih =>
    have hb := hexDigit_lt b
    rw [hexValue, List.foldl_append, List.foldl_cons, List.foldl_nil, ← hexValue, List.length_append,
      List.length_singleton, pow_succ]
    omega

theorem hexValue_lt {f : Bytes} (h : IsCounter f) : hexValue f < 2 ^ 32 := by
  have hlt := hexValue_lt_pow f
  rwa [h.1] at hlt

/-- The entry of a line with exactly these fields. -/
def fieldsEntry : List Bytes → Option (Channel × KeyEntry)
  | [addrTok, dirTok, encTok, macTok, ctrTok] =>
    if h : IsAddress addrTok ∧ encTok.length = keySize ∧ macTok.length = keySize ∧
        IsCounter ctrTok then
      ((parseDir dirTok).bind keyDirectionIndex).map fun di =>
        ((⟨digitsValue addrTok, Nat.lt_succ_of_le h.1.2.2⟩, di),
          ⟨true, ⟨⟨encTok, h.2.1⟩, ⟨macTok, h.2.2.1⟩⟩,
            BitVec.ofNatLT (hexValue ctrTok) (hexValue_lt h.2.2.2)⟩)
    else none
  | _ => none

/-- What a line registers by the manual, if anything. -/
def documentedEntry (line : Bytes) : Option (Channel × KeyEntry) := fieldsEntry (fields line)

/-- The count and the table after one line. -/
def registered (table : KeyTable) : Option (Channel × KeyEntry) → Option ℕ × KeyTable
  | none => (some 0, table)
  | some e => (some 1, Function.update table e.1 e.2)

/-- The line registers its documented entry and nothing else, alone and between other lines. -/
structure FollowsManual (line : Bytes) : Prop where
  alone : ∀ table, keyStoreLoadFile table (some line) = registered table (documentedEntry line)
  within : ∀ before after,
    keyFileEntries (before ++ ch '\n' :: (line ++ ch '\n' :: after)) =
      keyFileEntries before ++ (documentedEntry line).toList ++ keyFileEntries after

/-! ### The lines that are let through -/

/-- How the conversions divide the fields of a line: the digits of the address may run into
the direction. -/
structure Reading where
  sign : Bytes
  digits : Bytes
  joined : Bool
  dirTok : Bytes
  encTok : Bytes
  macTok : Bytes
  ctrTok : Bytes
  extra : List Bytes

def Reading.fields (r : Reading) : List Bytes :=
  if r.joined then (r.sign ++ r.digits ++ r.dirTok) :: r.encTok :: r.macTok :: r.ctrTok :: r.extra
  else (r.sign ++ r.digits) :: r.dirTok :: r.encTok :: r.macTok :: r.ctrTok :: r.extra

/-- The address as `%u` stores it. -/
def Reading.addr (r : Reading) : Int32Bits := toUnsigned (r.sign == [ch '-']) (digitsValue r.digits)

/-- The line has these fields, and they pass every check. -/
structure Reading.Accepted (r : Reading) (line : Bytes) : Prop where
  line : ScannedFields.fields line = r.fields
  sign : IsSign r.sign
  digits : r.digits ≠ [] ∧ ∀ b ∈ r.digits, isDigit b = true
  addr : r.addr.toNat ≤ keyStoreMaxAddr
  dir : (parseDir r.dirTok).isSome
  enc : r.encTok.length = keySize
  mac : r.macTok.length = keySize

/-- Nothing about the fields is off: five of them, an unsigned address that does not wrap, and
eight hexadecimal digits. -/
structure Reading.Exact (r : Reading) : Prop where
  sign : r.sign = []
  separate : r.joined = false
  addr : digitsValue r.digits ≤ keyStoreMaxAddr
  ctr : IsCounter r.ctrTok
  extra : r.extra = []

/-- The first character that is neither space nor tab is a carriage return. -/
def ReturnFirst (line : Bytes) : Prop := (line.dropWhile isBlank).head? = some (ch '\r')

instance (line : Bytes) : Decidable (ReturnFirst line) := inferInstanceAs (Decidable (_ = _))

/-- The lines that are not treated as the manual has it: near misses that are let through,
entries behind a carriage return, and entries or near misses with a NUL in the line. -/
def Misread (line : Bytes) : Prop :=
  (0 ∉ line ∧ ¬ ReturnFirst line ∧ ∃ r : Reading, r.Accepted line ∧ ¬ r.Exact) ∨
  (0 ∉ line ∧ ReturnFirst line ∧ ∃ r : Reading, r.Accepted line ∧ r.Exact) ∨
  (0 ∈ line ∧ ((¬ ReturnFirst (cString line) ∧ ∃ r : Reading, r.Accepted (cString line)) ∨
    ∃ r : Reading, r.Accepted line ∧ r.Exact))

/-! ### The code, on fields -/

def Reading.tokens (r : Reading) : Int32Bits × Bytes × Bytes × Bytes × Bytes :=
  (r.addr, r.dirTok, r.encTok, r.macTok, r.ctrTok.take 15)

theorem scanKeyLine_comment (s : Bytes) : scanKeyLine (ch '#' :: s) = none := rfl

/-- A line without a newline is skipped as blank, or goes through the conversions. -/
theorem parseKeyLine_line {line : Bytes} (hline : ch '\n' ∉ line) : parseKeyLine line =
    if (content line).head? = some (ch '\r') then none
    else (readKeyFields (ScannedFields.fields (cString line))).bind checkTokens := by
  have hfields : ScannedFields.fields (content line) = ScannedFields.fields (cString line) := by
    refine fields_dropWhile (fun b hb => ?_) _
    simp only [isBlank, Bool.or_eq_true, beq_iff_eq] at hb
    rcases hb with rfl | rfl <;> rfl
  have hsub : ∀ b ∈ content line, b ∈ line := fun b hb =>
    (List.takeWhile_sublist _).mem ((List.dropWhile_sublist _).mem hb)
  rw [parseKeyLine_eq, ← hfields, ← scanKeyLine_fields]
  cases hcontent : content line with
  | nil => rfl
  | cons b s =>
    have hnewline : b ≠ ch '\n' := by
      rintro rfl
      exact hline (hsub _ (by rw [hcontent]; exact List.mem_cons_self ..))
    by_cases hhash : b = ch '#'
    · rw [hhash, scanKeyLine_comment]
      rfl
    by_cases hreturn : b = ch '\r'
    · rw [hreturn]
      rfl
    · rw [if_neg (by simp [isCommentLine, hhash, hnewline, hreturn]), if_neg (by simpa using hreturn)]

theorem parseDir_cases {tok : Bytes} (h : (parseDir tok).isSome) :
    tok = ascii ['m', '2', 's'] ∨ tok = ascii ['s', '2', 'm'] ∨ tok = ascii ['b', 'c'] := by
  rw [parseDir] at h
  split at h
  · exact .inl ‹_›
  split at h
  · exact .inr (.inl ‹_›)
  split at h
  · exact .inr (.inr ‹_›)
  · cases h

theorem length_le_of_parseDir {tok : Bytes} (h : (parseDir tok).isSome) : tok.length ≤ 3 := by
  rcases parseDir_cases h with rfl | rfl | rfl <;> decide

/-- No direction begins with a digit. -/
theorem not_isDigit_of_parseDir {tok : Bytes} (h : (parseDir tok).isSome) :
    ∀ b ∈ tok.head?, isDigit b = false := by
  rcases parseDir_cases h with rfl | rfl | rfl <;> rintro b ⟨⟩ <;> rfl

theorem isSome_fileChannel {addr : Int32Bits} {dirTok : Bytes} : (fileChannel addr dirTok).isSome ↔
    addr.toNat ≤ keyStoreMaxAddr ∧ (parseDir dirTok).isSome := by
  have hindex : ∀ tok, ((parseDir tok).bind keyDirectionIndex).isSome = (parseDir tok).isSome := by
    intro tok
    rw [parseDir]
    split
    · rfl
    split
    · rfl
    split <;> rfl
  rw [fileChannel]
  split
  · rename_i h
    rw [Option.isSome_map, hindex]
    exact (and_iff_right (Nat.le_of_lt_succ h)).symm
  · rename_i h
    exact iff_of_false Bool.false_ne_true fun hc => h (Nat.lt_succ_of_le hc.1)

theorem isSome_checkTokens {addr : Int32Bits} {dirTok encTok macTok ctrTok : Bytes} :
    (checkTokens (addr, dirTok, encTok, macTok, ctrTok)).isSome ↔
      (encTok.length = keySize ∧ macTok.length = keySize) ∧ addr.toNat ≤ keyStoreMaxAddr ∧
      (parseDir dirTok).isSome := by
  rw [checkTokens]
  split
  · rename_i h
    rw [Option.isSome_map, isSome_fileChannel]
    exact (and_iff_right h).symm
  · rename_i h
    exact iff_of_false Bool.false_ne_true fun hc => h hc.1

/-- What passes the checks was divided by a reading. -/
theorem exists_reading {line : Bytes} {tokens : Int32Bits × Bytes × Bytes × Bytes × Bytes}
    (hread : readKeyFields (ScannedFields.fields line) = some tokens)
    (hcheck : (checkTokens tokens).isSome) :
    ∃ r : Reading, r.Accepted line ∧ tokens = r.tokens := by
  simp only [readKeyFields, Option.bind_eq_bind, Option.bind_eq_some_iff] at hread
  obtain ⟨⟨⟨neg, n⟩, fs⟩, hnumber, ⟨dirTok, fs₁⟩, hdir, ⟨encTok, fs₂⟩, henc, ⟨macTok, fs₃⟩, hmac,
    ⟨ctrTok, fs₄⟩, hctr, htokens⟩ := hread
  obtain rfl := Option.some.inj htokens
  obtain ⟨⟨hlenEnc, hlenMac⟩, haddr, hdirSome⟩ := isSome_checkTokens.mp hcheck
  obtain ⟨sign, ds, left, others, hsign, hdigits, hfields, rfl, rfl, rfl⟩ :=
    takeNumber_eq_some hnumber
  have hfs : unread left others = dirTok :: fs₁ :=
    takeField_short hdir (Nat.lt_of_le_of_lt (length_le_of_parseDir hdirSome) (by omega))
  have hfs₁ : fs₁ = encTok :: fs₂ := takeField_short henc (by rw [hlenEnc, keySize]; omega)
  have hfs₂ : fs₂ = macTok :: fs₃ := takeField_short hmac (by rw [hlenMac, keySize]; omega)
  obtain ⟨ctr, extra, rfl, rfl⟩ : ∃ ctr extra, fs₃ = ctr :: extra ∧ ctrTok = ctr.take 15 := by
    cases fs₃ with
    | nil => cases hctr
    | cons ctr extra => exact ⟨ctr, extra, rfl, (Prod.mk.inj (Option.some.inj hctr)).1.symm⟩
  rw [hfs₁, hfs₂] at hfs
  by_cases hleft : left = []
  · rw [unread, if_pos hleft] at hfs
    refine ⟨⟨sign, ds, false, dirTok, encTok, macTok, ctr, extra⟩, ⟨?_, hsign, hdigits, haddr,
      hdirSome, hlenEnc, hlenMac⟩, rfl⟩
    rw [hfields, hfs, hleft, List.append_nil]
    rfl
  · rw [unread, if_neg hleft, List.cons.injEq] at hfs
    obtain ⟨rfl, hothers⟩ := hfs
    refine ⟨⟨sign, ds, true, left, encTok, macTok, ctr, extra⟩, ⟨?_, hsign, hdigits, haddr,
      hdirSome, hlenEnc, hlenMac⟩, rfl⟩
    rw [hfields, hothers, ← List.append_assoc]
    rfl

/-- Every reading is found and passes the checks. -/
theorem Reading.Accepted.read {r : Reading} {line : Bytes} (h : r.Accepted line) :
    readKeyFields (ScannedFields.fields line) = some r.tokens ∧ (checkTokens r.tokens).isSome := by
  refine ⟨?_, isSome_checkTokens.mpr ⟨⟨h.enc, h.mac⟩, h.addr, h.dir⟩⟩
  have hnumber : ∃ others, takeNumber (ScannedFields.fields line) =
      some ((r.sign == [ch '-'], digitsValue r.digits), r.dirTok :: others) ∧
      others = r.encTok :: r.macTok :: r.ctrTok :: r.extra := by
    rw [h.line, Reading.fields]
    split
    · have hne : r.dirTok ≠ [] := by
        intro hnil
        have := h.dir
        rw [hnil] at this
        cases this
      refine ⟨_, ?_, rfl⟩
      rw [List.append_assoc, takeNumber_append h.sign h.digits.1 h.digits.2
        (not_isDigit_of_parseDir h.dir), unread, if_neg hne]
    · refine ⟨_, ?_, rfl⟩
      have hplain := takeNumber_append h.sign h.digits.1 h.digits.2 endsNumber_nil
        (r.dirTok :: r.encTok :: r.macTok :: r.ctrTok :: r.extra)
      rwa [List.append_nil, unread, if_pos rfl] at hplain
  obtain ⟨others, hnumber, rfl⟩ := hnumber
  have hdir : r.dirTok.length ≤ 7 := Nat.le_trans (length_le_of_parseDir h.dir) (by omega)
  have henc : r.encTok.length ≤ 23 := by rw [h.enc, keySize]; omega
  have hmac : r.macTok.length ≤ 23 := by rw [h.mac, keySize]; omega
  simp only [readKeyFields, hnumber, Option.bind_eq_bind, Option.bind_some, takeField_cons hdir,
    takeField_cons henc, takeField_cons hmac]
  rfl

/-! ### Exact readings -/

private theorem hexDigit_range {b : Byte} (h : (hexDigit b).isSome = true) :
    48 ≤ b.toNat ∧ b ≠ ch 'x' ∧ b ≠ ch 'X' := by
  refine ⟨?_, ?_, ?_⟩
  · rw [hexDigit, isDigit] at h
    by_contra hlt
    have h48 : ¬ 48 ≤ b.toNat := hlt
    have h65 : ¬ 65 ≤ b.toNat := by omega
    have h97 : ¬ 97 ≤ b.toNat := by omega
    simp [h48, h65, h97] at h
  · rintro rfl
    cases h
  · rintro rfl
    cases h

theorem strtoulHex_counter {f : Bytes} (h : IsCounter f) :
    strtoulHex (f.take 15) = BitVec.ofNatLT (hexValue f) (hexValue_lt h) := by
  obtain ⟨hlen, hhex⟩ := h
  have hshort : f.take 15 = f := List.take_of_length_le (by omega)
  have hall : f.takeWhile (fun b => (hexDigit b).isSome) = f := List.takeWhile_eq_self_iff.mpr hhex
  obtain ⟨z, x, b, s, rfl⟩ : ∃ z x b s, f = z :: x :: b :: s := by
    rcases f with _ | ⟨z, _ | ⟨x, _ | ⟨b, s⟩⟩⟩
    · cases hlen
    · cases hlen
    · cases hlen
    · exact ⟨z, x, b, s, rfl⟩
  obtain ⟨hz, -, -⟩ := hexDigit_range (hhex z (by simp))
  obtain ⟨-, hx, hX⟩ := hexDigit_range (hhex x (by simp))
  have hspace : isSpace z = false := by
    have hne : z ≠ 32 := by
      rintro rfl
      exact absurd hz (by decide)
    have h13 : ¬ z.toNat ≤ 13 := by omega
    simpa [isSpace, h13] using hne
  have hminus : z ≠ ch '-' := by
    rintro rfl
    exact absurd hz (by decide)
  have hplus : z ≠ ch '+' := by
    rintro rfl
    exact absurd hz (by decide)
  have hskip : skipSpace (z :: x :: b :: s) = z :: x :: b :: s := by simp [skipSpace, hspace]
  have hsign : scanSign (z :: x :: b :: s) = (false, z :: x :: b :: s) := by
    simp [scanSign, hminus, hplus]
  have hdropped : dropHexPrefix (z :: x :: b :: s) = z :: x :: b :: s := by
    simp [dropHexPrefix, hx, hX]
  have hlt := hexValue_lt ⟨hlen, hhex⟩
  have hfits : ¬ 2 ^ 64 ≤ hexValue (z :: x :: b :: s) := by omega
  rw [strtoulHex, hshort, hskip, hsign]
  simp only [hdropped, hall]
  rw [← hexValue, toUnsigned, if_neg hfits]
  refine BitVec.eq_of_toNat_eq ?_
  simpa using Nat.mod_eq_of_lt hlt

theorem Reading.Exact.fields {r : Reading} (h : r.Exact) :
    r.fields = [r.digits, r.dirTok, r.encTok, r.macTok, r.ctrTok] := by
  rw [Reading.fields, h.separate, h.sign, h.extra]
  rfl

/-- On an exact reading the code and the manual agree about the entry. -/
theorem documentedEntry_exact {r : Reading} {line : Bytes} (h : r.Accepted line) (hexact : r.Exact) :
    documentedEntry line = checkTokens r.tokens := by
  have haddr : r.addr.toNat = digitsValue r.digits := by
    have hle := hexact.addr
    simp only [keyStoreMaxAddr] at hle
    have hfits : ¬ 2 ^ 64 ≤ digitsValue r.digits := by omega
    rw [Reading.addr, hexact.sign, toUnsigned, if_neg hfits]
    exact Nat.mod_eq_of_lt (show digitsValue r.digits < 2 ^ 32 by omega)
  have hlt : r.addr.toNat < keyStoreMaxAddr + 1 := Nat.lt_succ_of_le h.addr
  have haddress : IsAddress r.digits := ⟨h.digits.1, h.digits.2, hexact.addr⟩
  rw [documentedEntry, h.line, hexact.fields, fieldsEntry, dif_pos ⟨haddress, h.enc, h.mac, hexact.ctr⟩,
    Reading.tokens, checkTokens, dif_pos ⟨h.enc, h.mac⟩, fileChannel, dif_pos hlt, Option.map_map]
  refine congrArg (Option.map · _) (funext fun di => ?_)
  simp only [Function.comp_apply, haddr, strtoulHex_counter hexact.ctr]

theorem exact_of_documentedEntry {line : Bytes} (h : (documentedEntry line).isSome) :
    ∃ r : Reading, r.Accepted line ∧ r.Exact := by
  rw [documentedEntry] at h
  generalize hfields : ScannedFields.fields line = fs at h
  unfold fieldsEntry at h
  split at h
  · rename_i addrTok dirTok encTok macTok ctrTok
    split at h
    · rename_i hfs
      obtain ⟨⟨hne, hdigits, hle⟩, henc, hmac, hctr⟩ := hfs
      rw [Option.isSome_map] at h
      have hdir : (parseDir dirTok).isSome := by
        cases hparse : parseDir dirTok with
        | none =>
          rw [hparse] at h
          cases h
        | some d => rfl
      have haddr : (toUnsigned false (digitsValue addrTok)).toNat ≤ keyStoreMaxAddr := by
        simp only [keyStoreMaxAddr] at hle ⊢
        have hfits : ¬ 2 ^ 64 ≤ digitsValue addrTok := by omega
        rw [toUnsigned, if_neg hfits]
        exact Nat.le_trans (Nat.mod_le _ _) hle
      exact ⟨⟨[], addrTok, false, dirTok, encTok, macTok, ctrTok, []⟩,
        ⟨hfields, .inl rfl, ⟨hne, hdigits⟩, haddr, hdir, henc, hmac⟩, ⟨rfl, rfl, hle, hctr, rfl⟩⟩
    · cases h
  · cases h

/-- A line with an exact reading has no other. -/
theorem Reading.Exact.of_accepted {r r' : Reading} {line : Bytes} (h : r.Accepted line)
    (h' : r'.Accepted line) (hexact : r'.Exact) : r.Exact := by
  have hfields := h.line.symm.trans h'.line
  rw [hexact.fields, Reading.fields] at hfields
  split at hfields
  · -- the direction would have to consist of digits
    obtain ⟨hjoined, -⟩ := List.cons.inj hfields
    have hdigit : ∀ b ∈ r.dirTok, isDigit b = true := by
      intro b hb
      exact h'.digits.2 b (by rw [← hjoined]; exact List.mem_append_right _ hb)
    rcases hhead : r.dirTok with _ | ⟨b, tok⟩
    · have := h.dir
      rw [hhead] at this
      cases this
    · have hfirst := not_isDigit_of_parseDir h.dir b (by rw [hhead]; rfl)
      rw [hdigit b (by rw [hhead]; exact List.mem_cons_self ..)] at hfirst
      cases hfirst
  · rename_i hseparate
    simp only [List.cons.injEq] at hfields
    obtain ⟨haddr, -, -, -, hctr, hextra⟩ := hfields
    have hsign : r.sign = [] := by
      have hdigit : ∀ b ∈ r.sign, isDigit b = true := by
        intro b hb
        exact h'.digits.2 b (by rw [← haddr]; exact List.mem_append_left _ hb)
      rcases h.sign with hs | hs | hs
      · exact hs
      · exact absurd (hdigit _ (by rw [hs]; exact List.mem_cons_self ..)) (by decide)
      · exact absurd (hdigit _ (by rw [hs]; exact List.mem_cons_self ..)) (by decide)
    rw [hsign, List.nil_append] at haddr
    exact ⟨hsign, by simpa using hseparate, by rw [haddr]; exact hexact.addr,
      by rw [hctr]; exact hexact.ctr, hextra⟩

/-! ### One line -/

theorem parseKeyLine_accepted {line : Bytes} {r : Reading} (hline : ch '\n' ∉ line)
    (hfirst : ¬ ReturnFirst (cString line)) (h : r.Accepted (cString line)) :
    parseKeyLine line = checkTokens r.tokens ∧ (parseKeyLine line).isSome := by
  obtain ⟨hread, hcheck⟩ := h.read
  have hparse : parseKeyLine line = checkTokens r.tokens := by
    rw [parseKeyLine_line hline, hread]
    exact if_neg hfirst
  exact ⟨hparse, hparse ▸ hcheck⟩

theorem exists_accepted {line : Bytes} (hline : ch '\n' ∉ line) (h : (parseKeyLine line).isSome) :
    ¬ ReturnFirst (cString line) ∧
      ∃ r : Reading, r.Accepted (cString line) ∧ parseKeyLine line = checkTokens r.tokens := by
  rw [parseKeyLine_line hline] at h ⊢
  by_cases hfirst : (content line).head? = some (ch '\r')
  · rw [if_pos hfirst] at h
    cases h
  rw [if_neg hfirst] at h ⊢
  refine ⟨hfirst, ?_⟩
  cases hread : readKeyFields (ScannedFields.fields (cString line)) with
  | none =>
    rw [hread] at h
    cases h
  | some tokens =>
    rw [hread] at h
    obtain ⟨r, hr, rfl⟩ := exists_reading hread h
    exact ⟨r, hr, rfl⟩

theorem keys_of_checkTokens {r : Reading} {e : Channel × KeyEntry}
    (h : checkTokens r.tokens = some e) :
    e.2.keys.encKey.val = r.encTok ∧ e.2.keys.macKey.val = r.macTok := by
  rw [Reading.tokens, checkTokens] at h
  split at h
  · obtain ⟨c, -, rfl⟩ := Option.map_eq_some_iff.mp h
    exact ⟨rfl, rfl⟩
  · cases h

theorem nul_not_mem_cString (line : Bytes) : (0 : Byte) ∉ cString line := by
  intro h
  simpa using List.mem_takeWhile_imp h

/-- A NUL leaves no entry on which the code and the manual agree. -/
theorem entries_differ_of_nul {line : Bytes} (hline : ch '\n' ∉ line) (hnul : 0 ∈ line)
    (h : (parseKeyLine line).isSome) : parseKeyLine line ≠ documentedEntry line := by
  intro heq
  obtain ⟨-, r, hr, hcode⟩ := exists_accepted hline h
  obtain ⟨r', hr', hexact⟩ := exact_of_documentedEntry (heq ▸ h)
  have hmanual := documentedEntry_exact hr' hexact
  obtain ⟨e, he⟩ := Option.isSome_iff_exists.mp h
  obtain ⟨henc, hmac⟩ := keys_of_checkTokens (hcode.symm.trans he)
  obtain ⟨henc', hmac'⟩ := keys_of_checkTokens (hmanual.symm.trans (heq.symm.trans he))
  have hclean : ∀ f ∈ r.fields, (0 : Byte) ∉ f := fun f hf hzero =>
    nul_not_mem_cString line (mem_of_mem_fields (hr.line ▸ hf) hzero)
  obtain ⟨f, hf, hzero⟩ := exists_field hnul rfl
  rw [hr'.line, hexact.fields] at hf
  have henctok : r.encTok ∈ r.fields := by
    rw [Reading.fields]
    split <;> simp
  have hmactok : r.macTok ∈ r.fields := by
    rw [Reading.fields]
    split <;> simp
  simp only [List.mem_cons, List.not_mem_nil, or_false] at hf
  rcases hf with rfl | rfl | rfl | rfl | rfl
  · exact absurd (hr'.digits.2 0 hzero) (by decide)
  · rcases parseDir_cases hr'.dir with hd | hd | hd <;> rw [hd] at hzero <;>
      exact absurd hzero (by decide)
  · exact hclean _ henctok (by rwa [← henc, henc'])
  · exact hclean _ hmactok (by rwa [← hmac, hmac'])
  · exact absurd (hexact.ctr.2 0 hzero) (by decide)

theorem isSome_documentedEntry {line : Bytes} :
    (documentedEntry line).isSome ↔ ∃ r : Reading, r.Accepted line ∧ r.Exact := by
  constructor
  · exact exact_of_documentedEntry
  · rintro ⟨r, h, hexact⟩
    rw [documentedEntry_exact h hexact]
    exact h.read.2

theorem cString_eq_self {line : Bytes} (h : (0 : Byte) ∉ line) : cString line = line := by
  refine List.takeWhile_eq_self_iff.mpr fun b hb => decide_eq_true ?_
  rintro rfl
  exact h hb

/-- The code takes a line as the manual has it unless it is one of the misread ones. -/
theorem parse_eq_documented_iff {line : Bytes} (hline : ch '\n' ∉ line) :
    parseKeyLine line = documentedEntry line ↔ ¬ Misread line := by
  constructor
  · intro heq hmisread
    rcases hmisread with ⟨hnul, hfirst, r, hr, hinexact⟩ | ⟨hnul, hfirst, hexact⟩ |
      ⟨hnul, ⟨hfirst, r, hr⟩ | hexact⟩
    · rw [← cString_eq_self hnul] at hfirst
      have htaken := (parseKeyLine_accepted hline hfirst (by rwa [cString_eq_self hnul])).2
      obtain ⟨r', hr', hexact⟩ := exact_of_documentedEntry (heq ▸ htaken)
      exact hinexact (.of_accepted hr hr' hexact)
    · have htaken := heq ▸ isSome_documentedEntry.mpr hexact
      have hnot := (exists_accepted hline htaken).1
      rw [cString_eq_self hnul] at hnot
      exact hnot hfirst
    · exact entries_differ_of_nul hline hnul (parseKeyLine_accepted hline hfirst hr).2 heq
    · exact entries_differ_of_nul hline hnul (heq ▸ isSome_documentedEntry.mpr hexact) heq
  · intro hmisread
    by_cases htaken : (parseKeyLine line).isSome
    · obtain ⟨hfirst, r, hr, hcode⟩ := exists_accepted hline htaken
      have hnul : 0 ∉ line := fun hnul => hmisread (.inr (.inr ⟨hnul, .inl ⟨hfirst, r, hr⟩⟩))
      rw [cString_eq_self hnul] at hfirst hr
      have hexact : r.Exact := by
        by_contra hinexact
        exact hmisread (.inl ⟨hnul, hfirst, r, hr, hinexact⟩)
      rw [hcode, documentedEntry_exact hr hexact]
    · have hmanual : ¬ (documentedEntry line).isSome := by
        intro hdocumented
        obtain ⟨r, hr, hexact⟩ := isSome_documentedEntry.mp hdocumented
        by_cases hnul : 0 ∈ line
        · exact hmisread (.inr (.inr ⟨hnul, .inr ⟨r, hr, hexact⟩⟩))
        by_cases hfirst : ReturnFirst line
        · exact hmisread (.inr (.inl ⟨hnul, hfirst, r, hr, hexact⟩))
        · rw [← cString_eq_self hnul] at hfirst hr
          exact htaken (parseKeyLine_accepted hline hfirst hr).2
      rw [Option.not_isSome_iff_eq_none.mp htaken, Option.not_isSome_iff_eq_none.mp hmanual]

theorem textLines_between (before after : Bytes) {line : Bytes} (hline : ch '\n' ∉ line) :
    textLines (before ++ ch '\n' :: (line ++ ch '\n' :: after)) =
      textLines before ++ line :: textLines after := by
  rw [textLines, List.splitOn_append_cons_self, List.splitOn_append_cons_self_of_not_mem hline]
  rfl

theorem followsManual_iff_parse {line : Bytes} (hlen : line.length ≤ 255) (hline : ch '\n' ∉ line) :
    FollowsManual line ↔ parseKeyLine line = documentedEntry line := by
  have hentries : keyFileEntries line = (parseKeyLine line).toList := by
    rw [keyFileEntries_eq, textLines_singleton hline, List.flatMap_singleton,
      pieces_agree_of_short hlen]
  constructor
  · intro h
    have halone := h.alone emptyKeyTable
    rw [keyStoreLoadFile_eq, hentries] at halone
    cases hcode : parseKeyLine line with
    | none =>
      cases hmanual : documentedEntry line with
      | none => rfl
      | some e =>
        rw [hcode, hmanual] at halone
        cases (Prod.mk.inj halone).1
    | some e =>
      cases hmanual : documentedEntry line with
      | none =>
        rw [hcode, hmanual] at halone
        cases (Prod.mk.inj halone).1
      | some e' =>
        rw [hcode, hmanual] at halone
        rw [eq_of_update_eq (valid_of_parseKeyLine hcode) (Prod.mk.inj halone).2]
  · intro heq
    constructor
    · intro table
      rw [keyStoreLoadFile_eq, hentries, heq]
      cases documentedEntry line <;> rfl
    · intro before after
      rw [keyFileEntries_eq, textLines_between before after hline, List.flatMap_append,
        List.flatMap_cons, pieces_agree_of_short hlen, heq, ← keyFileEntries_eq, ← keyFileEntries_eq,
        List.append_assoc]

/-- A line of the key file is read as the manual has it exactly if it is not a near miss. -/
theorem follows_manual_iff (line : Bytes) (hlen : line.length ≤ 254) (hline : ch '\n' ∉ line) :
    FollowsManual line ↔ ¬ Misread line :=
  (followsManual_iff_parse (by omega) hline).trans (parse_eq_documented_iff hline)

/-- An entry for slave 1 with a counter field. -/
def sampleLine (ctrTok : Bytes) : Bytes :=
  ascii ['1', ' ', 'm', '2', 's', ' '] ++ List.replicate 16 (ch 'e') ++ [ch ' '] ++
    List.replicate 16 (ch 'm') ++ [ch ' '] ++ ctrTok

def counterOne : Bytes := ascii ['0', '0', '0', '0', '0', '0', '0', '1']

def letters : Bytes := List.replicate 8 (ch 'z')

def sampleReading (ctrTok : Bytes) : Reading :=
  ⟨[], ascii ['1'], false, ascii ['m', '2', 's'], List.replicate 16 (ch 'e'),
    List.replicate 16 (ch 'm'), ctrTok, []⟩

private theorem sampleReading_accepted {ctrTok : Bytes}
    (hfields : fields (sampleLine ctrTok) = (sampleReading ctrTok).fields) :
    (sampleReading ctrTok).Accepted (sampleLine ctrTok) where
  line := hfields
  sign := .inl rfl
  digits := (by decide : ascii ['1'] ≠ [] ∧ ∀ b ∈ ascii ['1'], isDigit b = true)
  addr := (by decide : (1 : Int32Bits).toNat ≤ keyStoreMaxAddr)
  dir := rfl
  enc := rfl
  mac := rfl

/-- The line with the counter 1 is a documented entry and read as such; that with letters in
its place is a near miss and is not. -/
theorem follows_manual_iff_samples :
    (documentedEntry (sampleLine counterOne)).isSome ∧ FollowsManual (sampleLine counterOne) ∧
    documentedEntry (sampleLine letters) = none ∧ ¬ FollowsManual (sampleLine letters) := by
  have hone : (sampleReading counterOne).Accepted (sampleLine counterOne) :=
    sampleReading_accepted (by decide +kernel)
  have hexact : (sampleReading counterOne).Exact := ⟨rfl, rfl, by decide, by decide, rfl⟩
  have hletters : (sampleReading letters).Accepted (sampleLine letters) :=
    sampleReading_accepted (by decide +kernel)
  have hinexact : ¬ (sampleReading letters).Exact := fun h => absurd h.ctr (by decide)
  refine ⟨isSome_documentedEntry.mpr ⟨_, hone, hexact⟩, ?_, ?_, ?_⟩
  · refine (follows_manual_iff _ (by decide) (by decide)).mpr ?_
    rintro (⟨-, -, r, hr, hnear⟩ | ⟨-, hfirst, -⟩ | ⟨hnul, -⟩)
    · exact hnear (.of_accepted hr hone hexact)
    · exact absurd hfirst (by decide)
    · exact absurd hnul (by decide)
  · rw [← Option.not_isSome_iff_eq_none, isSome_documentedEntry]
    rintro ⟨r, hr, hr'⟩
    exact hinexact (.of_accepted hletters hr hr')
  · rw [follows_manual_iff _ (by decide) (by decide), not_not]
    exact .inl ⟨by decide, by decide, _, hletters, hinexact⟩

/-- A counter field that is no number seeds the channel with zero. -/
theorem letters_seed_zero : ¬ FollowsManual (sampleLine letters) := by
  intro h
  have halone := h.alone emptyKeyTable
  have hcount : (keyFileEntries (sampleLine letters)).length = 1 := by
    decide +kernel
  have hnone : documentedEntry (sampleLine letters) = none := by decide +kernel
  rw [keyStoreLoadFile_eq, hcount, hnone] at halone
  cases (Prod.mk.inj halone).1

end ModbusSecurity.KeyLineGrammar
