import ModbusSecurity.CounterFile
import ModbusSecurity.CounterMode

/-! # The counter table of a process and its file

`ctr_state.c` over an explicit state: the two tables of the process, the path of the
counter file and the disk. A disk carries the outcomes of the accesses that are still to
come, so that any open or write may be made to fail. -/
namespace ModbusSecurity.CounterState
open ByteStrings TextStreams KeyStore CounterFile CounterMode

inductive Outcome where
  | succeeds
  | openFails
  /-- The file is truncated and only a prefix of the data reaches it. -/
  | writesOnly (count : ℕ)
  deriving DecidableEq

structure Disk where
  files : Bytes → Option Bytes
  /-- Outcomes of the next accesses; those after the list succeed. -/
  pending : List Outcome

def Disk.write (d : Disk) (path contents : Bytes) : Bool × Disk :=
  match d.pending with
  | .openFails :: rest => (false, ⟨d.files, rest⟩)
  | .writesOnly count :: rest =>
    (true, ⟨Function.update d.files path (some (contents.take count)), rest⟩)
  | rest => (true, ⟨Function.update d.files path (some contents), rest.tail⟩)

def Disk.read (d : Disk) (path : Bytes) : Option Bytes × Disk :=
  match d.pending with
  | .openFails :: rest => (none, ⟨d.files, rest⟩)
  | rest => (d.files path, ⟨d.files, rest.tail⟩)

/-- No access fails from here on. -/
def Disk.Reliable (d : Disk) : Prop := d.pending = []

theorem Disk.write_reliable {d : Disk} (hd : d.Reliable) (path contents : Bytes) :
    d.write path contents = (true, ⟨Function.update d.files path (some contents), []⟩) := by
  simp [Disk.write, show d.pending = [] from hd]

theorem Disk.read_reliable {d : Disk} (hd : d.Reliable) (path : Bytes) :
    d.read path = (d.files path, d) := by
  obtain ⟨files, pending⟩ := d
  obtain rfl : pending = [] := hd
  rfl

/-- A process: its key table, counter table and state path, and the disk it runs on. -/
structure Node where
  keyTable : KeyTable
  ctrTable : CtrTable
  statePath : Bytes
  disk : Disk

def ctrStateDefaultPath : Bytes := ascii ['c', 't', 'r', '_', 's', 't', 'a', 't', 'e', '.', 'd', 'a', 't']

/-- A process before its first action. -/
def startProcess (disk : Disk) : Node := ⟨emptyKeyTable, emptyCtrTable, ctrStateDefaultPath, disk⟩

/-- The path is cut to the 511 bytes that `state_path` holds. -/
def ctrStateSetPath (n : Node) (path : Bytes) : Node := { n with statePath := path.take 511 }

/-- The result is `true` for `0` and `false` for `-1`. A write that comes short goes
unnoticed: neither `fprintf` nor `fclose` is checked. -/
def ctrStatePersist (n : Node) : Bool × Node :=
  let (opened, disk) := n.disk.write n.statePath (persistText n.ctrTable)
  (opened, { n with disk := disk })

def ctrStateReset (n : Node) (slave_addr : Byte) (dir : KeyDirection) : Node :=
  match channelIndex slave_addr dir with
  | none => n
  | some c =>
    let e := { n.ctrTable c with validOut := 0, validIn := 0 }
    (ctrStatePersist { n with ctrTable := Function.update n.ctrTable c e }).2

/-- Blocks reserved for a message, in the `uint32_t` of the source. -/
def numBlocks (msg_len : ℕ) : Int32Bits :=
  let blocks := BitVec.ofNat 32 ((msg_len + 15) % 2 ^ 64 / 16)
  if blocks = 0 then 1 else blocks

def ctrStateNextOutgoing (n : Node) (slave_addr : Byte) (dir : KeyDirection) (msg_len : ℕ) :
    Int32Bits × Node :=
  match channelIndex slave_addr dir with
  | none => (0, n)
  | some c =>
    let e := n.ctrTable c
    let e := if e.validOut = 0 then
        { e with nextOut := (keyStoreGetInitialCtr n.keyTable slave_addr dir).getD 0, validOut := 1 }
      else e
    let value := e.nextOut
    let e := { e with nextOut := value + numBlocks msg_len }
    (value, (ctrStatePersist { n with ctrTable := Function.update n.ctrTable c e }).2)

def ctrStateValidateIncoming (n : Node) (slave_addr : Byte) (dir : KeyDirection) (ctr : Int32Bits) :
    Bool × Node :=
  match channelIndex slave_addr dir with
  | none => (false, n)
  | some c =>
    let e := n.ctrTable c
    if e.validIn = 0 then
      if ctr < (keyStoreGetInitialCtr n.keyTable slave_addr dir).getD 0 then (false, n)
      else
        let e := { e with highIn := ctr, validIn := 1 }
        (true, (ctrStatePersist { n with ctrTable := Function.update n.ctrTable c e }).2)
    else if ctr < e.highIn then (false, n)
    else if ctr = e.highIn then (true, n)
    else
      let e := { e with highIn := ctr }
      (true, (ctrStatePersist { n with ctrTable := Function.update n.ctrTable c e }).2)

def ctrStateLoad (n : Node) : Bool × Node :=
  match n.disk.read n.statePath with
  | (none, disk) => (false, { n with disk := disk })
  | (some text, disk) => (true, { n with ctrTable := loadText text n.ctrTable, disk := disk })

/-- The counter a channel starts from when it has no entry. -/
def seed (keyTable : KeyTable) (c : Channel) : Int32Bits :=
  if (keyTable c).valid then (keyTable c).initialCtr else 0

/-- The value the next reservation on a channel returns. -/
def nextValue (n : Node) (c : Channel) : Int32Bits :=
  if (n.ctrTable c).validOut = 0 then seed n.keyTable c else (n.ctrTable c).nextOut

/-- The entry after a reservation from `value`. -/
def reserve (e : CtrEntry) (value : Int32Bits) (msg_len : ℕ) : CtrEntry :=
  { e with
    validOut := if e.validOut = 0 then 1 else e.validOut
    nextOut := value + numBlocks msg_len }

/-- The process with a new entry stored and the table written out. -/
def storeEntry (n : Node) (c : Channel) (e : CtrEntry) : Node :=
  (ctrStatePersist { n with ctrTable := Function.update n.ctrTable c e }).2

section Fields
variable (n : Node) (c : Channel) (e : CtrEntry)

@[simp] theorem storeEntry_keyTable : (storeEntry n c e).keyTable = n.keyTable := rfl

@[simp] theorem storeEntry_ctrTable :
    (storeEntry n c e).ctrTable = Function.update n.ctrTable c e := rfl

@[simp] theorem storeEntry_statePath : (storeEntry n c e).statePath = n.statePath := rfl

theorem storeEntry_disk : (storeEntry n c e).disk =
    (n.disk.write n.statePath (persistText (Function.update n.ctrTable c e))).2 := rfl

theorem storeEntry_reliable (hd : n.disk.Reliable) : (storeEntry n c e).disk =
    ⟨Function.update n.disk.files n.statePath
      (some (persistText (Function.update n.ctrTable c e))), []⟩ := by
  rw [storeEntry_disk, Disk.write_reliable hd]

end Fields

theorem keyStoreGetInitialCtr_getD {slave_addr : Byte} {dir : KeyDirection} {c : Channel}
    (hc : channelIndex slave_addr dir = some c) (keyTable : KeyTable) :
    (keyStoreGetInitialCtr keyTable slave_addr dir).getD 0 = seed keyTable c := by
  simp only [keyStoreGetInitialCtr, hc, seed]
  split <;> rfl

/-- On a valid channel a reservation hands out `nextValue` and moves past the blocks. -/
theorem ctrStateNextOutgoing_eq {slave_addr : Byte} {dir : KeyDirection} {c : Channel}
    (hc : channelIndex slave_addr dir = some c) (n : Node) (msg_len : ℕ) :
    ctrStateNextOutgoing n slave_addr dir msg_len =
      (nextValue n c, storeEntry n c (reserve (n.ctrTable c) (nextValue n c) msg_len)) := by
  simp only [ctrStateNextOutgoing, hc, keyStoreGetInitialCtr_getD hc, nextValue, reserve, storeEntry]
  by_cases h : (n.ctrTable c).validOut = 0
  · simp only [if_pos h]
  · simp only [if_neg h]

theorem reserve_validOut_ne_zero (e : CtrEntry) (value : Int32Bits) (msg_len : ℕ) :
    (reserve e value msg_len).validOut ≠ 0 := by
  simp only [reserve]
  split
  · decide
  · assumption

/-- A reservation moves its own channel by the reserved blocks. -/
theorem nextValue_reserve (n : Node) (c : Channel) (e : CtrEntry) (value : Int32Bits) (msg_len : ℕ) :
    nextValue (storeEntry n c (reserve e value msg_len)) c = value + numBlocks msg_len := by
  rw [nextValue, storeEntry_ctrTable, Function.update_self,
    if_neg (reserve_validOut_ne_zero e value msg_len)]
  rfl

theorem nextValue_of_set {n : Node} {c : Channel} (h : (n.ctrTable c).validOut ≠ 0) :
    nextValue n c = (n.ctrTable c).nextOut := if_neg h

theorem nextValue_storeEntry_ne (n : Node) {c d : Channel} (h : d ≠ c) (e : CtrEntry) :
    nextValue (storeEntry n c e) d = nextValue n d := by
  simp [nextValue, h]

theorem ctrStateReset_eq {slave_addr : Byte} {dir : KeyDirection} {c : Channel}
    (hc : channelIndex slave_addr dir = some c) (n : Node) :
    ctrStateReset n slave_addr dir =
      storeEntry n c { n.ctrTable c with validOut := 0, validIn := 0 } := by
  simp [ctrStateReset, hc, storeEntry]

theorem ctrStateValidateIncoming_eq {slave_addr : Byte} {dir : KeyDirection} {c : Channel}
    (hc : channelIndex slave_addr dir = some c) (n : Node) (ctr : Int32Bits) :
    ctrStateValidateIncoming n slave_addr dir ctr =
      if (n.ctrTable c).validIn = 0 then
        if ctr < seed n.keyTable c then (false, n)
        else (true, storeEntry n c { n.ctrTable c with highIn := ctr, validIn := 1 })
      else if ctr < (n.ctrTable c).highIn then (false, n)
      else if ctr = (n.ctrTable c).highIn then (true, n)
      else (true, storeEntry n c { n.ctrTable c with highIn := ctr }) := by
  simp only [ctrStateValidateIncoming, hc, keyStoreGetInitialCtr_getD hc, storeEntry]

/-- `ctr_state_validate_incoming` never touches the outgoing half of an entry. -/
theorem ctrStateValidateIncoming_cases {slave_addr : Byte} {dir : KeyDirection} {c : Channel}
    (hc : channelIndex slave_addr dir = some c) (n : Node) (ctr : Int32Bits) :
    (ctrStateValidateIncoming n slave_addr dir ctr).2 = n ∨
    ∃ validIn highIn, (ctrStateValidateIncoming n slave_addr dir ctr).2 =
      storeEntry n c { n.ctrTable c with validIn := validIn, highIn := highIn } := by
  simp only [ctrStateValidateIncoming, hc]
  split
  · split
    · exact .inl rfl
    · exact .inr ⟨1, ctr, rfl⟩
  · split
    · exact .inl rfl
    · split
      · exact .inl rfl
      · exact .inr ⟨(n.ctrTable c).validIn, ctr, rfl⟩

theorem ctrStateLoad_reliable (n : Node) (hd : n.disk.Reliable) :
    (ctrStateLoad n).2 =
      { n with ctrTable := match n.disk.files n.statePath with
          | none => n.ctrTable
          | some text => loadText text n.ctrTable } := by
  rw [ctrStateLoad, Disk.read_reliable hd]
  cases n.disk.files n.statePath <;> rfl

theorem ctrStateLoad_keyTable (n : Node) : (ctrStateLoad n).2.keyTable = n.keyTable := by
  rw [ctrStateLoad]
  split <;> rfl

/-- The counters of a channel at both ends: set and equal, or unset with equal seeds. -/
def InStep (m n : Node) (c : Channel) : Prop :=
  ((m.ctrTable c).validOut ≠ 0 ∧ (n.ctrTable c).validOut ≠ 0 ∧
      (m.ctrTable c).nextOut = (n.ctrTable c).nextOut) ∨
    ((m.ctrTable c).validOut = 0 ∧ (n.ctrTable c).validOut = 0 ∧
      (m.keyTable c).initialCtr = (n.keyTable c).initialCtr)

/-- Both ends hold the same key on the channel. -/
def SameKey (m n : Node) (c : Channel) : Prop :=
  (m.keyTable c).valid = true ∧ (n.keyTable c).valid = true ∧
    (m.keyTable c).keys = (n.keyTable c).keys

theorem nextValue_of_inStep {m n : Node} {c : Channel} (hk : SameKey m n c) (h : InStep m n c) :
    nextValue m c = nextValue n c := by
  obtain ⟨hm, hn, -⟩ := hk
  rcases h with ⟨h1, h2, h⟩ | ⟨h1, h2, h⟩
  · rw [nextValue, nextValue, if_neg h1, if_neg h2, h]
  · rw [nextValue, nextValue, if_pos h1, if_pos h2, seed, seed, if_pos hm, if_pos hn, h]

/-- For the messages of the protocol nothing is lost in the 32-bit block count. -/
theorem numBlocks_toNat {msg_len : ℕ} (h : msg_len < 2 ^ 32) :
    (numBlocks msg_len).toNat = max 1 (blockCount 16 msg_len) := by
  have hmod : (msg_len + 15) % 2 ^ 64 = msg_len + 15 := Nat.mod_eq_of_lt (by omega)
  have hval : (BitVec.ofNat 32 ((msg_len + 15) / 16)).toNat = (msg_len + 15) / 16 :=
    Nat.mod_eq_of_lt (by omega)
  simp only [numBlocks, hmod, blockCount]
  split
  · rename_i h0
    rw [h0] at hval
    have : (0 : Int32Bits).toNat = 0 := rfl
    have : (1 : Int32Bits).toNat = 1 := rfl
    omega
  · rename_i h0
    have hne : (msg_len + 15) / 16 ≠ 0 := by
      intro hz
      rw [hz] at h0
      exact h0 rfl
    omega

end ModbusSecurity.CounterState
