import ModbusSecurity.ByteStrings

/-! # Text files as the C library reads and writes them

`fgets` with a bounded buffer, the `%u`, `%d` and `%Ns` conversions of `sscanf` and
their `printf` counterparts, for 32-bit `int` and 64-bit `long`. A conversion returns
the value and the rest of the string, or `none` where `sscanf` stops. -/
namespace ModbusSecurity.TextStreams
open ByteStrings

abbrev Int32Bits := BitVec 32

def ch (c : Char) : Byte := BitVec.ofNat 8 c.toNat

/-- An ASCII literal as bytes. -/
def ascii (cs : List Char) : Bytes := cs.map ch

def isSpace (b : Byte) : Bool := b == 32 || (9 ≤ b.toNat && b.toNat ≤ 13)

def isDigit (b : Byte) : Bool := 48 ≤ b.toNat && b.toNat ≤ 57

/-- The C string in a buffer ends at the first NUL. -/
def cString (buf : Bytes) : Bytes := buf.takeWhile (· ≠ 0)

/-- Up to `n` bytes, stopping after a newline, and what is left of the file. -/
def takeLine : ℕ → Bytes → Bytes × Bytes
  | 0, s => ([], s)
  | _ + 1, [] => ([], [])
  | n + 1, b :: s => if b = ch '\n' then ([b], s) else (b :: (takeLine n s).1, (takeLine n s).2)

/-- `fgets(line, size, f)`: `none` at the end of the file. -/
def fgets (size : ℕ) (s : Bytes) : Option (Bytes × Bytes) :=
  if s = [] then none else some (takeLine (size - 1) s)

/-- The successive buffers of `while (fgets(line, size, f) != NULL)`. -/
def readLines (size : ℕ) : ℕ → Bytes → List Bytes
  | 0, _ => []
  | fuel + 1, s => match fgets size s with
    | none => []
    | some (line, rest) => line :: readLines size fuel rest

/-- Every read consumes a byte, so the length of the file is enough fuel. -/
def fileLines (size : ℕ) (s : Bytes) : List Bytes := readLines size s.length s

theorem takeLine_length (n : ℕ) (s : Bytes) :
    (takeLine n s).1.length + (takeLine n s).2.length = s.length := by
  induction n generalizing s with
  | zero => simp [takeLine]
  | succ n ih =>
    cases s with
    | nil => rfl
    | cons b s =>
      rw [takeLine]
      split
      · simp [Nat.add_comm]
      · have := ih s
        simp only [List.length_cons]
        omega

theorem takeLine_rest_lt {n : ℕ} {s : Bytes} (hn : 0 < n) (hs : s ≠ []) :
    (takeLine n s).2.length < s.length := by
  have h := takeLine_length n s
  cases n with
  | zero => omega
  | succ n =>
    cases s with
    | nil => exact absurd rfl hs
    | cons b s =>
      have hpos : 0 < (takeLine (n + 1) (b :: s)).1.length := by
        rw [takeLine]
        split <;> simp
      omega

private theorem readLines_fuel {size : ℕ} (hsize : 2 ≤ size) (fuel fuel' : ℕ) (s : Bytes)
    (h : s.length ≤ fuel) (h' : s.length ≤ fuel') :
    readLines size fuel s = readLines size fuel' s := by
  induction fuel generalizing fuel' s with
  | zero =>
    obtain rfl : s = [] := List.length_eq_zero_iff.mp (by omega)
    cases fuel' <;> rfl
  | succ fuel ih =>
    cases s with
    | nil => cases fuel' <;> rfl
    | cons b s =>
      obtain ⟨fuel', rfl⟩ : ∃ k, fuel' = k + 1 := ⟨fuel' - 1, by simp at h'; omega⟩
      have hlt := takeLine_rest_lt (show 0 < size - 1 by omega) (List.cons_ne_nil b s)
      simp only [readLines, fgets, reduceCtorEq, if_false]
      rw [ih fuel' _ (by omega) (by omega)]

theorem takeLine_newline (n : ℕ) (l rest : Bytes) (hl : ch '\n' ∉ l) (hn : l.length < n) :
    takeLine n (l ++ ch '\n' :: rest) = (l ++ [ch '\n'], rest) := by
  induction l generalizing n with
  | nil =>
    obtain ⟨n, rfl⟩ : ∃ k, n = k + 1 := ⟨n - 1, by simp at hn; omega⟩
    simp [takeLine]
  | cons b l ih =>
    obtain ⟨n, rfl⟩ : ∃ k, n = k + 1 := ⟨n - 1, by simp at hn; omega⟩
    simp only [List.mem_cons, not_or] at hl
    have hb : b ≠ ch '\n' := fun h => hl.1 h.symm
    simp only [List.length_cons] at hn
    simp [takeLine, hb, ih n hl.2 (by omega)]

/-- One buffer, then the rest of the file. -/
theorem fileLines_step {size : ℕ} (hsize : 2 ≤ size) {s : Bytes} (hs : s ≠ []) :
    fileLines size s = (takeLine (size - 1) s).1 :: fileLines size (takeLine (size - 1) s).2 := by
  have hlt := takeLine_rest_lt (show 0 < size - 1 by omega) hs
  obtain ⟨fuel, hfuel⟩ : ∃ fuel, s.length = fuel + 1 := ⟨s.length - 1, by omega⟩
  rw [fileLines, hfuel, readLines, fgets, if_neg hs]
  simp only
  rw [fileLines, readLines_fuel hsize fuel _ _ (by omega) le_rfl]

/-- A line that fits in the buffer is read whole. -/
theorem fileLines_cons {size : ℕ} (l rest : Bytes) (hl : ch '\n' ∉ l)
    (hn : l.length + 2 ≤ size) :
    fileLines size (l ++ ch '\n' :: rest) = (l ++ [ch '\n']) :: fileLines size rest := by
  rw [fileLines_step (by omega) (by simp), takeLine_newline _ l rest hl (by omega)]

def skipSpace (s : Bytes) : Bytes := s.dropWhile isSpace

def digitsValue (ds : Bytes) : ℕ := ds.foldl (fun n b => 10 * n + (b.toNat - 48)) 0

/-- An optional sign and its effect on the rest. -/
def scanSign : Bytes → Bool × Bytes
  | [] => (false, [])
  | b :: s => if b = ch '-' then (true, s) else if b = ch '+' then (false, s) else (false, b :: s)

/-- The common part of `%u` and `%d`: blanks, a sign, at least one digit. -/
def scanNumber (s : Bytes) : Option ((Bool × ℕ) × Bytes) :=
  let (neg, s) := scanSign (skipSpace s)
  let ds := s.takeWhile isDigit
  if ds = [] then none else some ((neg, digitsValue ds), s.dropWhile isDigit)

/-- `strtoul` in base ten, stored in an `unsigned int`. -/
def toUnsigned (neg : Bool) (n : ℕ) : Int32Bits :=
  if 2 ^ 64 ≤ n then BitVec.ofNat 32 (2 ^ 64 - 1)
  else if neg then BitVec.ofInt 32 (-(n : ℤ)) else BitVec.ofNat 32 n

/-- `strtol` in base ten, stored in an `int`. -/
def toSigned (neg : Bool) (n : ℕ) : Int32Bits :=
  if neg then BitVec.ofInt 32 (max (-(n : ℤ)) (-2 ^ 63))
  else BitVec.ofInt 32 (min (n : ℤ) (2 ^ 63 - 1))

def hexDigit (b : Byte) : Option ℕ :=
  if isDigit b then some (b.toNat - 48)
  else if 65 ≤ b.toNat && b.toNat ≤ 70 then some (b.toNat - 55)
  else if 97 ≤ b.toNat && b.toNat ≤ 102 then some (b.toNat - 87)
  else none

/-- `0x` counts as a prefix only in front of a digit. -/
def dropHexPrefix : Bytes → Bytes
  | z :: x :: b :: s =>
    if z = ch '0' ∧ (x = ch 'x' ∨ x = ch 'X') ∧ (hexDigit b).isSome then b :: s
    else z :: x :: b :: s
  | s => s

/-- `strtoul` in base sixteen, stored in an `unsigned int`. -/
def strtoulHex (s : Bytes) : Int32Bits :=
  let (neg, s) := scanSign (skipSpace s)
  let ds := (dropHexPrefix s).takeWhile fun b => (hexDigit b).isSome
  toUnsigned neg (ds.foldl (fun n b => 16 * n + (hexDigit b).getD 0) 0)

def scanU (s : Bytes) : Option (Int32Bits × Bytes) :=
  (scanNumber s).map fun r => (toUnsigned r.1.1 r.1.2, r.2)

def scanD (s : Bytes) : Option (Int32Bits × Bytes) :=
  (scanNumber s).map fun r => (toSigned r.1.1 r.1.2, r.2)

/-- `%<width>s`: blanks, then at least one and at most `width` other bytes. -/
def scanS (width : ℕ) (s : Bytes) : Option (Bytes × Bytes) :=
  let s := skipSpace s
  let tok := (s.takeWhile (fun b => !isSpace b)).take width
  if tok = [] then none else some (tok, s.drop tok.length)

def decimal (n : ℕ) : Bytes := ascii (Nat.toDigits 10 n)

def printU (x : Int32Bits) : Bytes := decimal x.toNat

def printD (x : Int32Bits) : Bytes :=
  if x.toInt < 0 then ch '-' :: decimal x.toInt.natAbs else decimal x.toInt.natAbs

private theorem toNat_ch_of_isDigit {c : Char} (h : c.isDigit) :
    (ch c).toNat = c.toNat ∧ 48 ≤ c.toNat ∧ c.toNat ≤ 57 := by
  simp only [Char.isDigit, Bool.and_eq_true, decide_eq_true_eq, ge_iff_le, UInt32.le_iff_toNat_le]
    at h
  have h1 : 48 ≤ c.toNat := h.1
  have h2 : c.toNat ≤ 57 := h.2
  refine ⟨?_, h1, h2⟩
  simp only [ch, BitVec.toNat_ofNat]
  omega

theorem isDigit_of_mem_decimal {n : ℕ} {b : Byte} (h : b ∈ decimal n) : isDigit b = true := by
  obtain ⟨c, hc, rfl⟩ := List.mem_map.mp h
  obtain ⟨he, h1, h2⟩ :=
    toNat_ch_of_isDigit (Nat.isDigit_of_mem_toDigits (by omega) (by omega) hc)
  simp [isDigit, he, h1, h2]

theorem decimal_ne_nil (n : ℕ) : decimal n ≠ [] := by simp [decimal, ascii]

theorem digitsValue_decimal (n : ℕ) : digitsValue (decimal n) = n := by
  have hfold : ∀ (cs : List Char) (k : ℕ), (∀ c ∈ cs, c.isDigit) →
      (ascii cs).foldl (fun n b => 10 * n + (b.toNat - 48)) k = Nat.ofDigitChars 10 cs k := by
    intro cs
    induction cs with
    | nil => intro k _; simp [ascii]
    | cons c cs ih =>
      intro k hcs
      have hc := (toNat_ch_of_isDigit (hcs c (by simp))).1
      rw [Nat.ofDigitChars_cons, ← ih _ (fun d hd => hcs d (by simp [hd]))]
      simp [ascii, hc]
  rw [digitsValue, decimal,
    hfold _ 0 (fun c hc => Nat.isDigit_of_mem_toDigits (by omega) (by omega) hc)]
  exact Nat.ofDigitChars_ten_toDigits

theorem digitsValue_append (p q : Bytes) :
    digitsValue (p ++ q) = digitsValue p * 10 ^ q.length + digitsValue q := by
  have hfold : ∀ (ds : Bytes) (n : ℕ), ds.foldl (fun n b => 10 * n + (b.toNat - 48)) n =
      n * 10 ^ ds.length + digitsValue ds := by
    intro ds
    induction ds with
    | nil => intro n; simp [digitsValue]
    | cons b ds ih =>
      intro n
      have hds : digitsValue (b :: ds) = (b.toNat - 48) * 10 ^ ds.length + digitsValue ds := by
        rw [← Nat.zero_add (b.toNat - 48)]
        exact ih _
      rw [List.foldl_cons, ih, hds, List.length_cons, Nat.pow_succ]
      ring
  rw [digitsValue, List.foldl_append, hfold]
  rfl

/-- A printed number that lost its last digits reads as a smaller one. -/
theorem digitsValue_lt_of_cut {n : ℕ} {p q : Bytes} (h : decimal n = p ++ q) (hp : p ≠ [])
    (hq : q ≠ []) : digitsValue p < n := by
  have hval : n = digitsValue p * 10 ^ q.length + digitsValue q := by
    rw [← digitsValue_append, ← h, digitsValue_decimal]
  have hpow : 10 ≤ 10 ^ q.length := by
    calc 10 = 10 ^ 1 := rfl
      _ ≤ 10 ^ q.length := Nat.pow_le_pow_right (by omega) (List.length_pos_iff.mpr hq)
  rcases Nat.eq_zero_or_pos n with rfl | hn
  · have hlen := congrArg List.length h
    have := List.length_pos_iff.mpr hp
    have := List.length_pos_iff.mpr hq
    rw [List.length_append, show (decimal 0).length = 1 from rfl] at hlen
    omega
  · rcases Nat.eq_zero_or_pos (digitsValue p) with hz | hpos
    · omega
    · nlinarith

theorem length_decimal_le {n k : ℕ} (hk : 0 < k) (h : n < 10 ^ k) : (decimal n).length ≤ k := by
  simpa [decimal, ascii] using (Nat.length_toDigits_le_iff (by omega) hk).mpr h

/-- The rest of a line does not continue a number. -/
def EndsNumber (rest : Bytes) : Prop := ∀ b ∈ rest.head?, isDigit b = false

theorem endsNumber_nil : EndsNumber [] := nofun

private theorem takeWhile_digits {ds rest : Bytes} (hd : ∀ b ∈ ds, isDigit b = true)
    (hr : EndsNumber rest) :
    (ds ++ rest).takeWhile isDigit = ds ∧ (ds ++ rest).dropWhile isDigit = rest := by
  have hrest : rest.takeWhile isDigit = [] ∧ rest.dropWhile isDigit = rest := by
    cases rest with
    | nil => simp
    | cons b rest => simp [hr b (by simp)]
  rw [List.takeWhile_append_of_pos hd, List.dropWhile_append_of_pos hd, hrest.1, hrest.2]
  simp

private theorem skipSpace_digits {ds rest : Bytes} (hne : ds ≠ [])
    (hd : ∀ b ∈ ds, isDigit b = true) :
    skipSpace (ds ++ rest) = ds ++ rest ∧ scanSign (ds ++ rest) = (false, ds ++ rest) := by
  cases ds with
  | nil => exact absurd rfl hne
  | cons b ds =>
    have hb := hd b (by simp)
    simp only [isDigit, Bool.and_eq_true, decide_eq_true_eq] at hb
    have hsp : isSpace b = false := by
      simp only [isSpace, Bool.or_eq_false_iff, beq_eq_false_iff_ne, ne_eq, Bool.and_eq_false_iff,
        decide_eq_false_iff_not]
      refine ⟨fun h => ?_, by omega⟩
      have : b.toNat = 32 := by rw [h]; rfl
      omega
    have hsign : b ≠ ch '-' ∧ b ≠ ch '+' := by
      constructor <;> rintro rfl <;> revert hb <;> decide
    simp [skipSpace, scanSign, hsp, hsign]

section Digits
variable {ds rest : Bytes}

theorem scanNumber_digits (hne : ds ≠ []) (hd : ∀ b ∈ ds, isDigit b = true)
    (hr : EndsNumber rest) : scanNumber (ds ++ rest) = some ((false, digitsValue ds), rest) := by
  obtain ⟨hskip, hsign⟩ := @skipSpace_digits ds rest hne hd
  obtain ⟨htake, hdrop⟩ := takeWhile_digits hd hr
  simp [scanNumber, hskip, hsign, htake, hdrop, hne]

theorem scanNumber_minus_digits (hne : ds ≠ []) (hd : ∀ b ∈ ds, isDigit b = true)
    (hr : EndsNumber rest) :
    scanNumber (ch '-' :: (ds ++ rest)) = some ((true, digitsValue ds), rest) := by
  obtain ⟨htake, hdrop⟩ := takeWhile_digits hd hr
  have hskip : skipSpace (ch '-' :: (ds ++ rest)) = ch '-' :: (ds ++ rest) := by
    simp [skipSpace, show isSpace (ch '-') = false from rfl]
  simp [scanNumber, hskip, scanSign, htake, hdrop, hne]

end Digits

theorem scanNumber_decimal (n : ℕ) (rest : Bytes) (hr : EndsNumber rest) :
    scanNumber (decimal n ++ rest) = some ((false, n), rest) := by
  rw [scanNumber_digits (decimal_ne_nil n) (fun _ => isDigit_of_mem_decimal) hr,
    digitsValue_decimal]

theorem scanNumber_minus_decimal (n : ℕ) (rest : Bytes) (hr : EndsNumber rest) :
    scanNumber (ch '-' :: (decimal n ++ rest)) = some ((true, n), rest) := by
  rw [scanNumber_minus_digits (decimal_ne_nil n) (fun _ => isDigit_of_mem_decimal) hr,
    digitsValue_decimal]

@[simp] theorem scanU_space (s : Bytes) : scanU (ch ' ' :: s) = scanU s := rfl

@[simp] theorem scanD_space (s : Bytes) : scanD (ch ' ' :: s) = scanD s := rfl

@[simp] theorem scanS_space (width : ℕ) (s : Bytes) : scanS width (ch ' ' :: s) = scanS width s := rfl

/-- `%u` reads back what `%u` printed. -/
theorem scanU_printU (x : Int32Bits) (rest : Bytes) (hr : EndsNumber rest) :
    scanU (printU x ++ rest) = some (x, rest) := by
  have hx : ¬ 2 ^ 64 ≤ x.toNat := by have := x.isLt; omega
  simp only [scanU, printU, scanNumber_decimal _ _ hr, Option.map_some, toUnsigned, if_neg hx,
    Bool.false_eq_true, if_false, BitVec.ofNat_toNat, BitVec.setWidth_eq]

/-- `%d` reads back what `%d` printed. -/
theorem scanD_printD (x : Int32Bits) (rest : Bytes) (hr : EndsNumber rest) :
    scanD (printD x ++ rest) = some (x, rest) := by
  have hlo := BitVec.le_two_mul_toInt (x := x)
  have hhi := BitVec.two_mul_toInt_lt (x := x)
  by_cases hneg : x.toInt < 0
  · have hval : max (-(x.toInt.natAbs : ℤ)) (-2 ^ 63) = x.toInt := by omega
    simp only [scanD, printD, if_pos hneg, List.cons_append, scanNumber_minus_decimal _ _ hr,
      Option.map_some, toSigned, if_true, hval, BitVec.ofInt_toInt]
  · have hval : min (x.toInt.natAbs : ℤ) (2 ^ 63 - 1) = x.toInt := by omega
    simp only [scanD, printD, if_neg hneg, scanNumber_decimal _ _ hr, Option.map_some, toSigned,
      Bool.false_eq_true, if_false, hval, BitVec.ofInt_toInt]

/-- `%s` reads back a token without blanks that is followed by a blank. -/
theorem scanS_token {width : ℕ} (tok rest : Bytes) (hne : tok ≠ [])
    (ht : ∀ b ∈ tok, isSpace b = false) (hw : tok.length ≤ width) :
    scanS width (tok ++ ch ' ' :: rest) = some (tok, ch ' ' :: rest) := by
  have hskip : skipSpace (tok ++ ch ' ' :: rest) = tok ++ ch ' ' :: rest := by
    cases tok with
    | nil => exact absurd rfl hne
    | cons b tok => simp [skipSpace, ht b (by simp)]
  have hword : (tok ++ ch ' ' :: rest).takeWhile (fun b => !isSpace b) = tok := by
    rw [List.takeWhile_append_of_pos (fun b hb => by simp [ht b hb])]
    simp [show isSpace (ch ' ') = true from rfl]
  simp [scanS, hskip, hword, List.take_of_length_le hw, hne]

end ModbusSecurity.TextStreams
