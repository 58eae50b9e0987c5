import Mathlib.Data.List.TakeWhile
import ModbusSecurity.KeyStore
import ModbusSecurity.TableListings

/-! # The counter file

The text that `ctr_state_persist` prints for a counter table and the entries that
`ctr_state_load` reads from a text. -/
namespace ModbusSecurity.CounterFile
open ByteStrings TextStreams KeyStore TableListings

structure CtrEntry where
  validOut : Int32Bits
  nextOut : Int32Bits
  validIn : Int32Bits
  highIn : Int32Bits
  deriving DecidableEq, Repr

abbrev CtrTable := Channel → CtrEntry

def emptyCtrTable : CtrTable := fun _ => ⟨0, 0, 0, 0⟩

/-- Entries that `ctr_state_persist` skips. -/
def CtrEntry.blank (e : CtrEntry) : Bool := e.validOut == 0 && e.validIn == 0

/-- The cells in the order of the two loops of `ctr_state_persist`. -/
def channels : List Channel :=
  (List.finRange (keyStoreMaxAddr + 1)).flatMap fun addr =>
    (List.finRange 3).map fun di => (addr, di)

def dirName (di : Fin 3) : Bytes :=
  match di with
  | 0 => ascii ['m', '2', 's']
  | 1 => ascii ['s', '2', 'm']
  | 2 => ascii ['b', 'c']

/-- `"%u %s %d %u %d %u"`, without the newline. -/
def persistLine (c : Channel) (e : CtrEntry) : Bytes :=
  printU (BitVec.ofNat 32 c.1) ++ ch ' ' :: (dirName c.2 ++ ch ' ' ::
    (printD e.validOut ++ ch ' ' :: (printU e.nextOut ++ ch ' ' ::
      (printD e.validIn ++ ch ' ' :: printU e.highIn))))

def persistText (table : CtrTable) : Bytes :=
  (listing channels CtrEntry.blank table).flatMap fun e => persistLine e.1 e.2 ++ [ch '\n']

/-- `sscanf(line, "%u %7s %d %u %d %u", …)` with all six items assigned. -/
def scanCtrLine (line : Bytes) : Option (Int32Bits × Bytes × CtrEntry) := do
  let (addr, p) ← scanU line
  let (dirTok, p) ← scanS 7 p
  let (validOut, p) ← scanD p
  let (nextOut, p) ← scanU p
  let (validIn, p) ← scanD p
  let (highIn, _) ← scanU p
  pure (addr, dirTok, ⟨validOut, nextOut, validIn, highIn⟩)

/-- What one line of the file stores, if anything. -/
def parseCtrLine (line : Bytes) : Option (Channel × CtrEntry) :=
  match scanCtrLine (cString line) with
  | none => none
  | some (addr, dirTok, e) => (fileChannel addr dirTok).map fun c => (c, e)

def ctrFileEntries (text : Bytes) : List (Channel × CtrEntry) :=
  (fileLines 256 text).filterMap parseCtrLine

/-- The reading loop of `ctr_state_load`. -/
def loadText (text : Bytes) (table : CtrTable) : CtrTable := overlay (ctrFileEntries text) table

/-- What a file says about a channel. -/
def listed (text : Bytes) (c : Channel) : Option CtrEntry := lastEntry (ctrFileEntries text) c

theorem loadText_apply (text : Bytes) (table : CtrTable) (c : Channel) :
    loadText text table c = (listed text c).getD (table c) := overlay_apply _ _ _

theorem mem_channels (c : Channel) : c ∈ channels := by simp [channels]

theorem endsNumber_space (rest : Bytes) : EndsNumber (ch ' ' :: rest) := by
  intro b hb
  obtain rfl : ch ' ' = b := by simpa using hb
  rfl

private theorem endsNumber_newline : EndsNumber [ch '\n'] := by
  intro b hb
  obtain rfl : ch '\n' = b := by simpa using hb
  rfl

theorem dirName_token (di : Fin 3) :
    dirName di ≠ [] ∧ (∀ b ∈ dirName di, isSpace b = false) ∧ (dirName di).length ≤ 3 := by
  revert di
  decide

private theorem parseDir_dirName (di : Fin 3) :
    (parseDir (dirName di)).bind keyDirectionIndex = some di := by
  revert di
  decide

theorem fileChannel_line (c : Channel) :
    fileChannel (BitVec.ofNat 32 c.1) (dirName c.2) = some c := by
  have hval : (BitVec.ofNat 32 c.1.val).toNat = c.1.val := by
    have := c.1.isLt
    simp only [keyStoreMaxAddr] at this
    exact Nat.mod_eq_of_lt (by omega)
  have hlt : (BitVec.ofNat 32 c.1.val).toNat < keyStoreMaxAddr + 1 := by
    rw [hval]
    exact c.1.isLt
  rw [fileChannel, dif_pos hlt, parseDir_dirName]
  simp [hval]

theorem scanCtrLine_persistLine (c : Channel) (e : CtrEntry) :
    scanCtrLine (persistLine c e ++ [ch '\n']) =
      some (BitVec.ofNat 32 c.1, dirName c.2, e) := by
  obtain ⟨hne, hsp, hlen⟩ := dirName_token c.2
  simp only [scanCtrLine, persistLine, List.append_assoc, List.cons_append,
    scanU_printU _ _ (endsNumber_space _), Option.bind_eq_bind, Option.bind_some, scanS_space,
    scanS_token _ _ hne hsp (show _ ≤ 7 by omega), scanD_space, scanU_space,
    scanD_printD _ _ (endsNumber_space _), scanU_printU _ _ endsNumber_newline]
  rfl

/-- The bytes that a printed line is made of. -/
def lineByte (b : Byte) : Bool :=
  isDigit b || b == ch '-' || b == ch ' ' || (97 ≤ b.toNat && b.toNat ≤ 122)

private theorem lineByte_printU (x : Int32Bits) : ∀ b ∈ printU x, lineByte b := by
  intro b hb
  simp [lineByte, isDigit_of_mem_decimal hb]

private theorem lineByte_printD (x : Int32Bits) : ∀ b ∈ printD x, lineByte b := by
  intro b hb
  unfold printD at hb
  split at hb
  · rcases List.mem_cons.mp hb with rfl | hb
    · rfl
    · simp [lineByte, isDigit_of_mem_decimal hb]
  · simp [lineByte, isDigit_of_mem_decimal hb]

theorem lineByte_persistLine (c : Channel) (e : CtrEntry) :
    ∀ b ∈ persistLine c e, lineByte b := by
  have hdir : ∀ b ∈ dirName c.2, lineByte b := by
    generalize c.2 = di
    revert di
    decide
  intro b hb
  simp only [persistLine, List.mem_append, List.mem_cons] at hb
  rcases hb with hb | rfl | hb | rfl | hb | rfl | hb | rfl | hb | rfl | hb
  · exact lineByte_printU _ b hb
  · rfl
  · exact hdir b hb
  · rfl
  · exact lineByte_printD _ b hb
  · rfl
  · exact lineByte_printU _ b hb
  · rfl
  · exact lineByte_printD _ b hb
  · rfl
  · exact lineByte_printU _ b hb

private theorem length_printU (x : Int32Bits) : (printU x).length ≤ 10 :=
  length_decimal_le (by omega) (by have := x.isLt; omega)

private theorem length_printD (x : Int32Bits) : (printD x).length ≤ 11 := by
  have hlo := BitVec.le_two_mul_toInt (x := x)
  have hhi := BitVec.two_mul_toInt_lt (x := x)
  have hd : (decimal x.toInt.natAbs).length ≤ 10 := length_decimal_le (by omega) (by omega)
  unfold printD
  split
  · rw [List.length_cons]
    omega
  · omega

theorem persistLine_fits (c : Channel) (e : CtrEntry) :
    ch '\n' ∉ persistLine c e ∧ (persistLine c e).length + 2 ≤ 256 := by
  constructor
  · intro h
    exact absurd (lineByte_persistLine c e _ h) (by decide)
  · obtain ⟨-, -, hdir⟩ := dirName_token c.2
    have h1 := length_printU (BitVec.ofNat 32 c.1)
    have h2 := length_printD e.validOut
    have h3 := length_printU e.nextOut
    have h4 := length_printD e.validIn
    have h5 := length_printU e.highIn
    simp only [persistLine, List.length_append, List.length_cons]
    omega

private theorem cString_persistLine (c : Channel) (e : CtrEntry) :
    cString (persistLine c e ++ [ch '\n']) = persistLine c e ++ [ch '\n'] := by
  have hne : ∀ b ∈ persistLine c e ++ [ch '\n'], decide (b ≠ 0) = true := by
    intro b hb
    rcases List.mem_append.mp hb with hb | hb
    · have := lineByte_persistLine c e b hb
      rw [decide_eq_true_eq]
      rintro rfl
      revert this
      decide
    · obtain rfl : b = ch '\n' := by simpa using hb
      decide
  rw [cString, List.takeWhile_eq_self_iff.mpr hne]

/-- A printed line is read back as the entry it was printed from. -/
theorem parseCtrLine_persistLine (c : Channel) (e : CtrEntry) :
    parseCtrLine (persistLine c e ++ [ch '\n']) = some (c, e) := by
  rw [parseCtrLine, cString_persistLine, scanCtrLine_persistLine]
  simp only [fileChannel_line, Option.map_some]

private theorem ctrFileEntries_lines (es : List (Channel × CtrEntry)) :
    ctrFileEntries (es.flatMap fun e => persistLine e.1 e.2 ++ [ch '\n']) = es := by
  induction es with
  | nil => rfl
  | cons e es ih =>
    obtain ⟨hnl, hlen⟩ := persistLine_fits e.1 e.2
    rw [ctrFileEntries] at ih ⊢
    rw [List.flatMap_cons, List.append_assoc, List.singleton_append, fileLines_cons _ _ hnl hlen,
      List.filterMap_cons, parseCtrLine_persistLine, ih]

theorem listed_persistText (table : CtrTable) (c : Channel) :
    listed (persistText table) c = if (table c).blank then none else some (table c) := by
  rw [listed, persistText, ctrFileEntries_lines, lastEntry_listing mem_channels]

/-- Loading a persisted table restores every entry it had set and no other. -/
theorem loadText_persistText (table old : CtrTable) (c : Channel) :
    loadText (persistText table) old c = if (table c).blank then old c else table c := by
  rw [loadText, persistText, ctrFileEntries_lines, overlay_listing mem_channels]

end ModbusSecurity.CounterFile
