import Mathlib.Logic.Function.Basic
import ModbusSecurity.TextStreams

/-! # The key table

Encryption and MAC keys per slave address and direction, as `key_store.c` keeps them.
The same guard on `(slave_addr, dir)` opens every function of the key table and of the
counter table, so it is stated once, as `channelIndex`. -/
namespace ModbusSecurity.KeyStore
open ByteStrings TextStreams

def keySize : ℕ := 16

def keyStoreMaxAddr : ℕ := 247

/-- A `key_direction_t`; the C type also admits values outside the enumeration. -/
inductive KeyDirection where
  | masterToSlave
  | slaveToMaster
  | broadcast
  | other (value : ℕ)
  deriving DecidableEq, Repr

/-- There are addresses and directions, which every literal of their indices rests on. -/
instance (priority := 1100) addressCount_ne_zero : NeZero (keyStoreMaxAddr + 1) := ⟨by decide⟩
instance directionCount_ne_zero : NeZero 3 := ⟨by decide⟩

def keyDirectionIndex : KeyDirection → Option (Fin 3)
  | .masterToSlave => some 0
  | .slaveToMaster => some 1
  | .broadcast => some 2
  | .other _ => none

/-- A cell of the two parallel tables. -/
abbrev Channel := Fin (keyStoreMaxAddr + 1) × Fin 3

/-- The bounds check in front of every table access. -/
def channelIndex (slave_addr : Byte) (dir : KeyDirection) : Option Channel :=
  if h : slave_addr.toNat < keyStoreMaxAddr + 1 then
    (keyDirectionIndex dir).map fun di => (⟨slave_addr.toNat, h⟩, di)
  else none

abbrev KeyBytes := { k : Bytes // k.length = keySize }

structure DirectionalKeys where
  encKey : KeyBytes
  macKey : KeyBytes
  deriving DecidableEq

structure KeyEntry where
  valid : Bool
  keys : DirectionalKeys
  initialCtr : BitVec 32

abbrev KeyTable := Channel → KeyEntry

def zeroKey : KeyBytes := ⟨List.replicate keySize 0, by simp⟩

def emptyKeyTable : KeyTable := fun _ => ⟨false, ⟨zeroKey, zeroKey⟩, 0⟩

def keyStoreLookup (table : KeyTable) (slave_addr : Byte) (dir : KeyDirection) :
    Option DirectionalKeys :=
  match channelIndex slave_addr dir with
  | none => none
  | some c => if (table c).valid then some (table c).keys else none

def keyStoreProvision (table : KeyTable) (slave_addr : Byte) (dir : KeyDirection)
    (keys : DirectionalKeys) : Option KeyTable :=
  (channelIndex slave_addr dir).map fun c => Function.update table c ⟨true, keys, 0⟩

def keyStoreGetInitialCtr (table : KeyTable) (slave_addr : Byte) (dir : KeyDirection) :
    Option (BitVec 32) :=
  match channelIndex slave_addr dir with
  | none => none
  | some c => if (table c).valid then some (table c).initialCtr else none

def parseDir (tok : Bytes) : Option KeyDirection :=
  if tok = ascii ['m', '2', 's'] then some .masterToSlave
  else if tok = ascii ['s', '2', 'm'] then some .slaveToMaster
  else if tok = ascii ['b', 'c'] then some .broadcast
  else none

/-- `sscanf(p, "%u %7s %23s %23s %15s", …)` with all five items assigned. -/
def scanKeyLine (p : Bytes) : Option (Int32Bits × Bytes × Bytes × Bytes × Bytes) := do
  let (addr, p) ← scanU p
  let (dirTok, p) ← scanS 7 p
  let (encTok, p) ← scanS 23 p
  let (macTok, p) ← scanS 23 p
  let (ctrTok, _) ← scanS 15 p
  pure (addr, dirTok, encTok, macTok, ctrTok)

/-- The cell of an address read with `%u` and a direction token. -/
def fileChannel (addr : Int32Bits) (dirTok : Bytes) : Option Channel :=
  if h : addr.toNat < keyStoreMaxAddr + 1 then
    ((parseDir dirTok).bind keyDirectionIndex).map fun di => (⟨addr.toNat, h⟩, di)
  else none

def isCommentLine (p : Bytes) : Bool :=
  match p.head? with
  | none => true
  | some b => b == ch '#' || b == ch '\n' || b == ch '\r'

/-- The checks behind `sscanf`, and the entry that is stored. -/
def checkTokens : Int32Bits × Bytes × Bytes × Bytes × Bytes → Option (Channel × KeyEntry)
  | (addr, dirTok, encTok, macTok, ctrTok) =>
    if h : encTok.length = keySize ∧ macTok.length = keySize then
      (fileChannel addr dirTok).map fun c =>
        (c, ⟨true, ⟨⟨encTok, h.1⟩, ⟨macTok, h.2⟩⟩, strtoulHex ctrTok⟩)
    else none

/-- What one line of the key file registers, if anything. -/
def parseKeyLine (line : Bytes) : Option (Channel × KeyEntry) :=
  let p := (cString line).dropWhile fun b => b == ch ' ' || b == ch '\t'
  if isCommentLine p then none else (scanKeyLine p).bind checkTokens

def keyFileEntries (text : Bytes) : List (Channel × KeyEntry) :=
  (fileLines 256 text).filterMap parseKeyLine

/-- `key_store_load_file`: the count of entries (`none` for `-1`) and the new table. -/
def keyStoreLoadFile (table : KeyTable) (file : Option Bytes) : Option ℕ × KeyTable :=
  match file with
  | none => (none, table)
  | some text =>
    (some (keyFileEntries text).length,
      (keyFileEntries text).foldl (fun t e => Function.update t e.1 e.2) table)

theorem channelIndex_eq_some {slave_addr : Byte} {dir : KeyDirection} {c : Channel}
    (h : channelIndex slave_addr dir = some c) :
    c.1.val = slave_addr.toNat ∧ keyDirectionIndex dir = some c.2 := by
  unfold channelIndex at h
  split at h
  · obtain ⟨di, hdi, rfl⟩ := Option.map_eq_some_iff.mp h
    exact ⟨rfl, hdi⟩
  · cases h

def channelAddr (c : Channel) : Byte := BitVec.ofNat 8 c.1

theorem channelAddr_of_channelIndex {slave_addr : Byte} {dir : KeyDirection} {c : Channel}
    (h : channelIndex slave_addr dir = some c) : channelAddr c = slave_addr := by
  rw [channelAddr, (channelIndex_eq_some h).1, BitVec.ofNat_toNat, BitVec.setWidth_eq]

theorem keyDirectionIndex_injective {d e : KeyDirection} {i : Fin 3}
    (hd : keyDirectionIndex d = some i) (he : keyDirectionIndex e = some i) : d = e := by
  cases d <;> cases e <;> simp_all [keyDirectionIndex] <;> omega

/-- Different `(slave_addr, dir)` pairs use different cells. -/
theorem channelIndex_injective {a b : Byte} {d e : KeyDirection} {c : Channel}
    (ha : channelIndex a d = some c) (hb : channelIndex b e = some c) : a = b ∧ d = e := by
  obtain ⟨ha1, ha2⟩ := channelIndex_eq_some ha
  obtain ⟨hb1, hb2⟩ := channelIndex_eq_some hb
  exact ⟨BitVec.eq_of_toNat_eq (ha1.symm.trans hb1), keyDirectionIndex_injective ha2 hb2⟩

theorem keyStoreLookup_eq_some {table : KeyTable} {slave_addr : Byte} {dir : KeyDirection}
    {keys : DirectionalKeys} (h : keyStoreLookup table slave_addr dir = some keys) :
    ∃ c, channelIndex slave_addr dir = some c ∧ (table c).valid = true ∧
      (table c).keys = keys := by
  unfold keyStoreLookup at h
  cases hc : channelIndex slave_addr dir with
  | none => simp [hc] at h
  | some c =>
    simp only [hc, Option.ite_none_right_eq_some, Option.some.injEq] at h
    exact ⟨c, rfl, h⟩

theorem keyStoreLookup_of_channel {table : KeyTable} {slave_addr : Byte} {dir : KeyDirection}
    {c : Channel} (hc : channelIndex slave_addr dir = some c) :
    keyStoreLookup table slave_addr dir = if (table c).valid then some (table c).keys else none := by
  simp [keyStoreLookup, hc]

end ModbusSecurity.KeyStore
