import ModbusSecurity.ExchangeEffects
import ModbusSecurity.TransparentExchange

/-! # Master mode and slave mode in one process

Both modes reserve on the same table, each with a counter file of its own. A mode is
separate if its exchanges are a function of its own file and its own inputs. -/
namespace ModbusSecurity.ModeSeparation
open ByteStrings KeyStore CounterFile CounterState SecureFraming ModbusPdu SecureDemo
open ExchangeEffects TransitionRuns TransparentExchange

inductive Action where
  | switchMode
  | runExchange (port : SerialPort)

def perform (P : Primitives) (p : Process) : Action → Exchange × Process
  | .switchMode => ({}, { p with isMaster := !p.isMaster })
  | .runExchange port => doRunExchange P port p

def step (P : Primitives) (p : Process) (a : Action) : Process := (perform P p a).2

/-- What an exchange takes from outside: the port, and without one the frame that is read
from `sent_frame.bin` in slave mode. -/
structure Input where
  port : SerialPort
  sentFrame : Option Bytes

def inputOf (p : Process) (port : SerialPort) : Input :=
  ⟨port, if p.isMaster || p.config.hasPort then none else p.node.disk.files sentFramePath⟩

/-- The inputs of the exchanges made in one mode. -/
def ownInputs (P : Primitives) (isMaster : Bool) : Process → List Action → List Input
  | _, [] => []
  | p, .switchMode :: as => ownInputs P isMaster (step P p .switchMode) as
  | p, .runExchange port :: as =>
    (if p.isMaster = isMaster then [inputOf p port] else []) ++
      ownInputs P isMaster (step P p (.runExchange port)) as

/-- The exchanges made in one mode: all counter blocks used for sending and receiving. -/
def ownExchanges (P : Primitives) (isMaster : Bool) : Process → List Action → List Exchange
  | _, [] => []
  | p, .switchMode :: as => ownExchanges P isMaster (step P p .switchMode) as
  | p, .runExchange port :: as =>
    (if p.isMaster = isMaster then [(doRunExchange P port p).1] else []) ++
      ownExchanges P isMaster (step P p (.runExchange port)) as

/-- What a mode has of its own. The Modbus tables belong to the slave. -/
structure OwnState where
  keyTable : KeyTable
  keysLoaded : Bool
  config : Config
  file : Option Bytes
  tables : DataModel

def ownState (isMaster : Bool) (p : Process) : OwnState :=
  ⟨p.node.keyTable, p.keysLoaded, p.config, p.node.disk.files (statePathOf isMaster),
    if isMaster then staticDataModel else p.tables⟩

/-- Two runs with the same own state at the start and the same own inputs make the same own
exchanges and end in the same own state. -/
def ModesSeparate (P : Primitives) : Prop :=
  ∀ (isMaster : Bool) (p q : Process), p.node.disk.Reliable → q.node.disk.Reliable →
    ownState isMaster p = ownState isMaster q → ∀ as bs : List Action,
    ownInputs P isMaster p as = ownInputs P isMaster q bs →
      ownExchanges P isMaster p as = ownExchanges P isMaster q bs ∧
        ownState isMaster (run (step P) p as) = ownState isMaster (run (step P) q bs)

/-! ### The mode by itself -/

/-- A process that knows nothing but the own state of a mode and one input. -/
def isolated (isMaster : Bool) (o : OwnState) (i : Input) : Process where
  argv0 := none
  isMaster := isMaster
  keysLoaded := o.keysLoaded
  config := o.config
  node := ⟨o.keyTable, emptyCtrTable, ctrStateDefaultPath,
    ⟨Function.update (Function.update (fun _ => none) sentFramePath i.sentFrame)
      (statePathOf isMaster) o.file, []⟩⟩
  tables := o.tables

def isolatedExchange (P : Primitives) (isMaster : Bool) (o : OwnState) (i : Input) :
    Exchange × OwnState :=
  let (e, p) := doRunExchange P i.port (isolated isMaster o i)
  (e, ownState isMaster p)

def isolatedRun (P : Primitives) (isMaster : Bool) : OwnState → List Input → List Exchange × OwnState
  | o, [] => ([], o)
  | o, i :: is =>
    let (e, o) := isolatedExchange P isMaster o i
    let (es, o) := isolatedRun P isMaster o is
    (e :: es, o)

/-! ### When a load replaces the table -/

/-- Channels that the file of the mode does not list are as in a new process. -/
def LoadReplaces (p : Process) : Prop :=
  ∀ c, fileEntry p c = none → p.node.ctrTable c = emptyCtrTable c

/-- The exchanges of the mode find a table that their load replaces. -/
def Replaced (isMaster : Bool) (p : Process) : Action → Prop
  | .switchMode => True
  | .runExchange _ => p.isMaster = isMaster → LoadReplaces p

/-! ### Processes that agree on a file -/

/-- Equal but for the files other than `path`. -/
structure Agree (path : Bytes) (m n : Node) : Prop where
  keyTable : m.keyTable = n.keyTable
  ctrTable : m.ctrTable = n.ctrTable
  left : m.statePath = path
  right : n.statePath = path
  file : m.disk.files path = n.disk.files path
  leftReliable : m.disk.Reliable
  rightReliable : n.disk.Reliable

section Agreement
variable {P : Primitives} {path : Bytes} {m n : Node}

theorem agree_storeEntry (h : Agree path m n) (c : Channel) (e : CtrEntry) :
    Agree path (storeEntry m c e) (storeEntry n c e) := by
  have hm := storeEntry_reliable m c e h.leftReliable
  have hn := storeEntry_reliable n c e h.rightReliable
  refine ⟨h.keyTable, ?_, h.left, h.right, ?_, ?_, ?_⟩
  · rw [storeEntry_ctrTable, storeEntry_ctrTable, h.ctrTable]
  · rw [hm, hn, h.left, h.right, h.ctrTable]
    simp only [Function.update_self]
  · rw [hm, Disk.Reliable]
  · rw [hn, Disk.Reliable]

theorem nextValue_agree (h : Agree path m n) (c : Channel) : nextValue m c = nextValue n c := by
  rw [nextValue, nextValue, h.keyTable, h.ctrTable]

theorem nextOutgoing_agree (h : Agree path m n) (addr : Byte) (dir : KeyDirection) (len : ℕ) :
    (ctrStateNextOutgoing m addr dir len).1 = (ctrStateNextOutgoing n addr dir len).1 ∧
      Agree path (ctrStateNextOutgoing m addr dir len).2 (ctrStateNextOutgoing n addr dir len).2 := by
  cases hc : channelIndex addr dir with
  | none => simpa [ctrStateNextOutgoing, hc] using h
  | some c =>
    rw [ctrStateNextOutgoing_eq hc, ctrStateNextOutgoing_eq hc, nextValue_agree h, h.ctrTable]
    exact ⟨rfl, agree_storeEntry h c _⟩

theorem encrypt_agree (h : Agree path m n) (addr : Byte) (pdu : Bytes) (dir : KeyDirection) :
    (secureFrameEncryptAndBuild P m addr pdu dir).1 = (secureFrameEncryptAndBuild P n addr pdu dir).1 ∧
      Agree path (secureFrameEncryptAndBuild P m addr pdu dir).2
        (secureFrameEncryptAndBuild P n addr pdu dir).2 := by
  obtain ⟨hvalue, hnode⟩ := nextOutgoing_agree h addr dir (plaintextAdu addr pdu).length
  unfold secureFrameEncryptAndBuild
  rw [h.keyTable]
  split
  · exact ⟨rfl, h⟩
  split
  · exact ⟨rfl, h⟩
  · refine ⟨?_, hnode⟩
    simp only [hvalue]

theorem verify_agree (h : Agree path m n) (wire : Bytes) (expected_addr : Byte) (dir : KeyDirection) :
    (secureFrameVerifyAndDecrypt P m wire expected_addr dir).1 =
        (secureFrameVerifyAndDecrypt P n wire expected_addr dir).1 ∧
      Agree path (secureFrameVerifyAndDecrypt P m wire expected_addr dir).2
        (secureFrameVerifyAndDecrypt P n wire expected_addr dir).2 := by
  unfold secureFrameVerifyAndDecrypt
  rw [h.keyTable]
  split
  · exact ⟨rfl, h⟩
  · rename_i frame _
    obtain ⟨hvalue, hnode⟩ := nextOutgoing_agree h frame.addr dir frame.ciphertext.length
    simp only
    split
    · exact ⟨rfl, h⟩
    split
    · exact ⟨rfl, h⟩
    split
    · exact ⟨rfl, h⟩
    simp only [hvalue]
    split
    · exact ⟨rfl, hnode⟩
    split
    · exact ⟨rfl, hnode⟩
    · exact ⟨rfl, hnode⟩

theorem stored_agree (h : Agree path m n) (hpath : path ≠ sentFramePath) (wire : Bytes) :
    Agree path { m with disk := (m.disk.write sentFramePath wire).2 }
      { n with disk := (n.disk.write sentFramePath wire).2 } := by
  rw [Disk.write_reliable h.leftReliable, Disk.write_reliable h.rightReliable]
  refine ⟨h.keyTable, h.ctrTable, h.left, h.right, ?_, rfl, rfl⟩
  simp only [Function.update_of_ne hpath, h.file]

theorem runAsMaster_agree (h : Agree path m n) (hpath : path ≠ sentFramePath) (config : Config)
    (port : SerialPort) :
    (runAsMaster P config port m).1 = (runAsMaster P config port n).1 ∧
      Agree path (runAsMaster P config port m).2 (runAsMaster P config port n).2 := by
  unfold runAsMaster
  split
  · exact ⟨rfl, h⟩
  · rename_i pdu _
    obtain ⟨hresult, hnode⟩ := encrypt_agree (P := P) h config.slaveAddr pdu .masterToSlave
    generalize secureFrameEncryptAndBuild P m config.slaveAddr pdu .masterToSlave = rm at hresult hnode
    generalize secureFrameEncryptAndBuild P n config.slaveAddr pdu .masterToSlave = rn at hresult hnode
    obtain ⟨result, m₁⟩ := rm
    obtain ⟨_, n₁⟩ := rn
    obtain rfl := hresult
    cases result with
    | none => exact ⟨rfl, hnode⟩
    | some sent =>
      simp only
      split
      · exact ⟨rfl, stored_agree hnode hpath sent.wire⟩
      split
      · exact ⟨rfl, hnode⟩
      split
      · exact ⟨rfl, hnode⟩
      · exact ⟨rfl, hnode⟩
      · rename_i rx _ _
        obtain ⟨hv, hnode'⟩ := verify_agree (P := P) hnode rx config.slaveAddr .slaveToMaster
        exact ⟨by rw [hv], hnode'⟩

theorem processIncomingFrame_agree (h : Agree path m n) (config : Config) (port : Option SerialPort)
    (rx : Bytes) (tables : DataModel) :
    let rm := processIncomingFrame P config port rx m tables
    let rn := processIncomingFrame P config port rx n tables
    rm.1 = rn.1 ∧ Agree path rm.2.1 rn.2.1 ∧ rm.2.2 = rn.2.2 := by
  unfold processIncomingFrame
  obtain ⟨hv, hnode⟩ := verify_agree (P := P) h rx config.slaveAddr .masterToSlave
  generalize secureFrameVerifyAndDecrypt P m rx config.slaveAddr .masterToSlave = rm at hv hnode
  generalize secureFrameVerifyAndDecrypt P n rx config.slaveAddr .masterToSlave = rn at hv hnode
  obtain ⟨r, m₁⟩ := rm
  obtain ⟨_, n₁⟩ := rn
  obtain rfl := hv
  simp only
  split
  · rename_i addr pdu sp _ _ _
    split
    · exact ⟨rfl, hnode, rfl⟩
    · rename_i reply _ _
      obtain ⟨hresult, hnode'⟩ := encrypt_agree (P := P) hnode addr reply .slaveToMaster
      generalize secureFrameEncryptAndBuild P m₁ addr reply .slaveToMaster = em at hresult hnode'
      generalize secureFrameEncryptAndBuild P n₁ addr reply .slaveToMaster = en at hresult hnode'
      obtain ⟨result, m₂⟩ := em
      obtain ⟨_, n₂⟩ := en
      obtain rfl := hresult
      cases result with
      | none => exact ⟨rfl, hnode', rfl⟩
      | some sent => exact ⟨rfl, hnode', rfl⟩
  · exact ⟨rfl, hnode, rfl⟩

theorem runAsSlave_agree (h : Agree path m n) (config : Config) (port : SerialPort)
    (hsent : config.hasPort = false → m.disk.files sentFramePath = n.disk.files sentFramePath)
    (tables : DataModel) :
    let rm := runAsSlave P config port m tables
    let rn := runAsSlave P config port n tables
    rm.1 = rn.1 ∧ Agree path rm.2.1 rn.2.1 ∧ rm.2.2 = rn.2.2 := by
  unfold runAsSlave
  rw [Disk.read_reliable h.leftReliable, Disk.read_reliable h.rightReliable]
  cases hport : config.hasPort with
  | false =>
    rw [hsent hport]
    cases n.disk.files sentFramePath with
    | none => exact ⟨rfl, h, rfl⟩
    | some rx => exact processIncomingFrame_agree h _ _ _ _
  | true =>
    simp only [Bool.not_true, Bool.false_eq_true, if_false]
    split
    · exact ⟨rfl, h, rfl⟩
    split
    · exact ⟨rfl, h, rfl⟩
    · exact ⟨rfl, h, rfl⟩
    · exact processIncomingFrame_agree h _ _ _ _

end Agreement

/-! ### One exchange -/

section Exchange
variable {P : Primitives} {p q : Process}

/-- Behind a load that replaces the table, the table is a function of the file. -/
theorem loaded_ctrTable (hd : p.node.disk.Reliable) (h : LoadReplaces p) :
    (loaded p).ctrTable = fun c => (fileEntry p c).getD (emptyCtrTable c) := by
  funext c
  rw [loaded_entry hd]
  cases hc : fileEntry p c with
  | none => rw [Option.getD_none, Option.getD_none, h c hc]
  | some e => rfl

/-- A load leaves exactly the unlisted channels unset that were unset before. -/
theorem load_unsets_iff (hd : p.node.disk.Reliable) :
    (∀ c, fileEntry p c = none → ((loaded p).ctrTable c).validOut = 0) ↔
      ∀ c, fileEntry p c = none → (p.node.ctrTable c).validOut = 0 := by
  refine forall_congr' fun c => imp_congr_right fun hc => ?_
  rw [loaded_entry hd, hc, Option.getD_none]

theorem loaded_agree (hp : p.node.disk.Reliable) (hq : q.node.disk.Reliable)
    (hmode : p.isMaster = q.isMaster) (hkeys : p.node.keyTable = q.node.keyTable)
    (hfile : p.node.disk.files (statePathOf p.isMaster) = q.node.disk.files (statePathOf p.isMaster))
    (hpr : LoadReplaces p) (hqr : LoadReplaces q) :
    Agree (statePathOf p.isMaster) (loaded p) (loaded q) := by
  obtain ⟨⟨hpk, hps, hpd, -⟩, hpdisk⟩ := loaded_frame hp
  obtain ⟨⟨hqk, hqs, hqd, -⟩, hqdisk⟩ := loaded_frame hq
  refine ⟨?_, ?_, ?_, ?_, ?_, hpd, hqd⟩
  · exact hpk.trans (hkeys.trans hqk.symm)
  · rw [loaded_ctrTable hp hpr, loaded_ctrTable hq hqr]
    simp only [fileEntry, ← hmode, hfile]
  · exact hps.trans (statePathOf_take _)
  · exact hqs.trans (hmode ▸ statePathOf_take _)
  · rw [hpdisk, hqdisk, hfile]

/-- An exchange keeps the mode, the disk reliable and the own state of the other mode. -/
theorem exchange_frame (hd : p.node.disk.Reliable) (port : SerialPort) :
    (doRunExchange P port p).2.isMaster = p.isMaster ∧
    (doRunExchange P port p).2.node.disk.Reliable ∧
    ownState (!p.isMaster) (doRunExchange P port p).2 = ownState (!p.isMaster) p := by
  obtain ⟨hmode, hkeys, hconfig, htables⟩ := doRunExchange_settings (P := P) (p := p) port
  obtain ⟨hkeyTable, hreliable, hfiles⟩ := doRunExchange_frame (P := P) hd port
  have hfile := hfiles _ (statePathOf_ne (Bool.not_ne_self _)) (statePathOf_ne_sent _)
  refine ⟨hmode, hreliable, ?_⟩
  rw [ownState, ownState, hkeyTable, hkeys, hconfig, hfile]
  cases h : p.isMaster with
  | true => rw [htables h]
  | false => rfl

theorem ownState_isolated (isMaster : Bool) (p : Process) (i : Input) :
    ownState isMaster (isolated isMaster (ownState isMaster p) i) = ownState isMaster p := by
  cases isMaster <;> simp [ownState, isolated]

theorem agree_isolated (hd : p.node.disk.Reliable) (hp : LoadReplaces p) (i : Input) :
    Agree (statePathOf p.isMaster)
      (loaded (isolated p.isMaster (ownState p.isMaster p) i)) (loaded p) := by
  refine loaded_agree (p := isolated p.isMaster (ownState p.isMaster p) i) ?_ hd rfl rfl ?_
    (fun _ _ => rfl) hp
  · exact (rfl : ([] : List Outcome) = [])
  · exact Function.update_self ..

/-- Behind a load that replaces the table, an exchange is the one of the mode by itself. -/
theorem exchange_isolated (hd : p.node.disk.Reliable) (hp : LoadReplaces p) (port : SerialPort) :
    isolatedExchange P p.isMaster (ownState p.isMaster p) (inputOf p port) =
      ((doRunExchange P port p).1, ownState p.isMaster (doRunExchange P port p).2) := by
  have hagree := agree_isolated hd hp (inputOf p port)
  have hown := ownState_isolated p.isMaster p (inputOf p port)
  set q := isolated p.isMaster (ownState p.isMaster p) (inputOf p port) with hq
  have hqd : q.node.disk.Reliable := (rfl : ([] : List Outcome) = [])
  rw [isolatedExchange, ← hq]
  cases hkeys : p.keysLoaded with
  | false =>
    rw [doRunExchange_unloaded (p := q) hkeys, doRunExchange_unloaded hkeys]
    exact Prod.ext rfl hown
  | true =>
    cases hmode : p.isMaster with
    | true =>
      obtain ⟨hresult, hnode⟩ := runAsMaster_agree (P := P) hagree (statePathOf_ne_sent _) p.config port
      have hfile := hnode.file
      rw [hmode] at hfile
      rw [doRunExchange_master (p := q) hkeys hmode, doRunExchange_master hkeys hmode]
      refine Prod.ext hresult (OwnState.mk.injEq .. ▸ ⟨hnode.keyTable, rfl, rfl, hfile, rfl⟩)
    | false =>
      have hsent : p.config.hasPort = false →
          (loaded q).disk.files sentFramePath = (loaded p).disk.files sentFramePath := by
        intro hport
        rw [(loaded_frame (p := q) hqd).2, (loaded_frame hd).2]
        have hne : sentFramePath ≠ statePathOf false := (statePathOf_ne_sent _).symm
        simp [hq, isolated, inputOf, Function.update_of_ne hne, hmode, hport]
      obtain ⟨hresult, hnode, htables⟩ :=
        runAsSlave_agree (P := P) hagree p.config port hsent p.tables
      have hfile := hnode.file
      have hqt : q.tables = p.tables := by simp [hq, isolated, ownState, hmode]
      rw [hmode] at hfile
      rw [doRunExchange_slave (p := q) hkeys hmode, doRunExchange_slave hkeys hmode, hqt]
      exact Prod.ext hresult (OwnState.mk.injEq .. ▸ ⟨hnode.keyTable, rfl, rfl, hfile, htables⟩)

end Exchange

/-! ### Runs -/

section Runs
variable {P : Primitives} {isMaster : Bool}

/-- The exchanges of a mode and its own state at the end, from those at the start. -/
theorem ownExchanges_eq {p : Process} (hd : p.node.disk.Reliable) (as : List Action)
    (h : Always (step P) (Replaced isMaster) p as) :
    isolatedRun P isMaster (ownState isMaster p) (ownInputs P isMaster p as) =
      (ownExchanges P isMaster p as, ownState isMaster (run (step P) p as)) := by
  induction as generalizing p with
  | nil => rfl
  | cons a as ih =>
    cases a with
    | switchMode => exact ih (p := step P p .switchMode) hd h.2
    | runExchange port =>
      obtain ⟨hmode, hd', hother⟩ := exchange_frame (P := P) hd port
      have hrest := ih (p := step P p (.runExchange port)) hd' h.2
      rw [run_cons, ownInputs, ownExchanges]
      by_cases hown : p.isMaster = isMaster
      · subst hown
        have hone := exchange_isolated (P := P) hd (h.1 rfl) port
        rw [if_pos rfl, if_pos rfl, List.singleton_append, List.singleton_append, isolatedRun, hone]
        exact congrArg (fun r => (_ :: r.1, r.2)) hrest
      · have hnot : isMaster = !p.isMaster := by
          revert hown
          cases p.isMaster <;> cases isMaster <;> simp
        subst hnot
        rw [if_neg hown, if_neg hown, List.nil_append, List.nil_append, ← hrest]
        exact congrArg (fun o => isolatedRun P _ o _) hother.symm

end Runs

/-- A load unsets the unlisted channels exactly if they are unset before it; and where every
own exchange loads a file that replaces the table, two runs with the same own state at the
start and the same own inputs make the same exchanges and leave the same file. -/
theorem modes_separate (P : Primitives) :
    (∀ p : Process, p.node.disk.Reliable →
      ((∀ c, fileEntry p c = none → ((loaded p).ctrTable c).validOut = 0) ↔
        ∀ c, fileEntry p c = none → (p.node.ctrTable c).validOut = 0)) ∧
    ∀ (isMaster : Bool) (p q : Process), p.node.disk.Reliable → q.node.disk.Reliable →
      ownState isMaster p = ownState isMaster q → ∀ as bs : List Action,
      ownInputs P isMaster p as = ownInputs P isMaster q bs →
      Always (step P) (Replaced isMaster) p as → Always (step P) (Replaced isMaster) q bs →
        ownExchanges P isMaster p as = ownExchanges P isMaster q bs ∧
          ownState isMaster (run (step P) p as) = ownState isMaster (run (step P) q bs) := by
  refine ⟨fun p hd => load_unsets_iff hd, ?_⟩
  intro isMaster p q hp hq hstart as bs hinputs has hbs
  have hrun := ownExchanges_eq hp as has
  rw [hstart, hinputs, ownExchanges_eq hq bs hbs] at hrun
  exact ⟨(Prod.mk.inj hrun).1.symm, (Prod.mk.inj hrun).2.symm⟩

/-! ### A table that stays -/

/-- A process with keys and a port, and no file on the disk. -/
def keyedProcess : Process :=
  { newProcess none ⟨fun _ => none, []⟩ with
    keysLoaded := true
    config := ⟨true, 1, funcWriteMultipleRegisters, 1, 2⟩
    node := { startProcess ⟨fun _ => none, []⟩ with
      keyTable := fun _ => ⟨true, ⟨zeroKey, zeroKey⟩, 0⟩ } }

def deadPort : SerialPort := ⟨false, false, fun _ => none⟩

/-- The counters of slave 1 in a master's file. -/
def masterTable : CtrTable :=
  Function.update (Function.update emptyCtrTable (1, 0) ⟨1, 5, 0, 0⟩) (1, 1) ⟨1, 9, 0, 0⟩

/-- A process that finds this file on its disk. -/
def resumedProcess : Process :=
  { keyedProcess with
    node := { keyedProcess.node with
      disk := ⟨Function.update (fun _ => none) (statePathOf true) (some (persistText masterTable)), []⟩ } }

def readRequest : Bytes := [funcReadHoldingRegisters, 0, 0, 0, 1]

/-- A port that brings the read, sealed under counter 0. -/
def requestPort (P : Primitives) : SerialPort :=
  ⟨true, true, fun _ => some (secureFrameBuild (sealFrame P ⟨zeroKey, zeroKey⟩ 1 0 readRequest))⟩

section ServedRequest
variable {P : Primitives}

private theorem other_cons {isMaster : Bool} {p : Process} (hmode : p.isMaster = !isMaster)
    (port : SerialPort) (as : List Action) :
    ownInputs P isMaster p (.runExchange port :: .switchMode :: as) =
        ownInputs P isMaster (step P (step P p (.runExchange port)) .switchMode) as ∧
      ownExchanges P isMaster p (.runExchange port :: .switchMode :: as) =
        ownExchanges P isMaster (step P (step P p (.runExchange port)) .switchMode) as := by
  simp [ownInputs, ownExchanges, hmode]

private theorem one_exchange {isMaster : Bool} {p : Process} (hmode : p.isMaster = isMaster)
    (hport : p.config.hasPort = true) (port : SerialPort) :
    ownInputs P isMaster p [.runExchange port] = [⟨port, none⟩] ∧
      ownExchanges P isMaster p [.runExchange port] = [(doRunExchange P port p).1] := by
  simp [ownInputs, ownExchanges, inputOf, hmode, hport]

private theorem file_resumed :
    resumedProcess.node.disk.files (statePathOf true) = some (persistText masterTable) := by
  rw [resumedProcess]
  simp only [Function.update_self]

private theorem fileEntry_resumed {p : Process} (hmode : p.isMaster = true)
    (hfile : p.node.disk.files (statePathOf true) = some (persistText masterTable)) (c : Channel) :
    fileEntry p c = if (masterTable c).blank then none else some (masterTable c) := by
  rw [fileEntry, hmode, hfile, Option.bind_some, listed_persistText]

private theorem loadReplaces_resumed {p : Process} (hmode : p.isMaster = true)
    (hfile : p.node.disk.files (statePathOf true) = some (persistText masterTable))
    (htable : ∀ c, c ≠ (1, 0) → c ≠ (1, 1) → p.node.ctrTable c = emptyCtrTable c) :
    LoadReplaces p := by
  intro c hc
  rw [fileEntry_resumed hmode hfile] at hc
  apply htable c
  · rintro rfl
    exact absurd hc (by decide)
  · rintro rfl
    exact absurd hc (by decide)

/-- The slave once it has answered the read. -/
private theorem served_read :
    let r := (doRunExchange P (requestPort P) { resumedProcess with isMaster := false }).2
    r.isMaster = false ∧ r.config = keyedProcess.config ∧ r.node.disk.Reliable ∧
    r.node.disk.files (statePathOf true) = some (persistText masterTable) ∧
    ∃ reply, r.node = afterExchange (loaded { resumedProcess with isMaster := false }) (1, 0) (1, 1)
      readRequest reply := by
  let q : Process := { resumedProcess with isMaster := false }
  have hd : q.node.disk.Reliable := (rfl : ([] : List Outcome) = [])
  obtain ⟨hmode, -, hconfig, -⟩ := doRunExchange_settings (P := P) (p := q) (requestPort P)
  obtain ⟨-, hreliable, hfiles⟩ := doRunExchange_frame (P := P) hd (requestPort P)
  have hother : statePathOf true ≠ statePathOf q.isMaster :=
    statePathOf_ne (show true ≠ false by decide)
  refine ⟨hmode, hconfig, hreliable, ?_, ?_⟩
  · rw [← file_resumed]
    exact hfiles _ hother (statePathOf_ne_sent true)
  · have hnext : nextValue (loaded q) (1, 0) = 0 := rfl
    have hne : readRequest ≠ [] := by decide
    have hlen : readRequest.length ≤ maxPdu := by decide
    obtain ⟨reply, -, -, -, -, hnode, -⟩ :=
      slaveTurn_eq (P := P) q.config ⟨loaded q, loaded q, q.tables⟩
        (show channelIndex 1 .masterToSlave = some (1, 0) from rfl)
        (show channelIndex 1 .slaveToMaster = some (1, 1) from rfl) rfl rfl rfl hne hlen
    rw [hnext] at hnode
    exact ⟨reply, (congrArg (fun t => t.2.node) (doRunExchange_slave (p := q) rfl rfl _)).trans hnode⟩

end ServedRequest

/-- The slave serves a read on the channels that the master's file lists: the counter in
memory moves, and the master's exchange behind it is as without it. -/
theorem modes_separate_served_request :
    let P := leaPrimitives fun _ _ => ⟨List.replicate 32 0, rfl⟩
    let as : List Action := [.switchMode, .runExchange (requestPort P), .switchMode]
    let p := run (step P) resumedProcess as
    fileEntry p (1, 0) = some ⟨1, 5, 0, 0⟩ ∧ (p.node.ctrTable (1, 0)).nextOut = 1 ∧
    (∀ c, fileEntry p c = none → ((loaded p).ctrTable c).validOut = 0) ∧
    ownExchanges P true resumedProcess (as ++ [.runExchange deadPort]) =
      ownExchanges P true resumedProcess [.runExchange deadPort] ∧
    ownState true (run (step P) resumedProcess (as ++ [.runExchange deadPort])) =
      ownState true (run (step P) resumedProcess [.runExchange deadPort]) := by
  intro P as p
  have hd : resumedProcess.node.disk.Reliable := (rfl : ([] : List Outcome) = [])
  obtain ⟨hslave, hconfig, hpd, hfile, reply, hnode⟩ := served_read (P := P)
  have hp : p = step P (doRunExchange P (requestPort P)
    { resumedProcess with isMaster := false }).2 .switchMode := rfl
  -- the response stays unread
  generalize (doRunExchange P (requestPort P) { resumedProcess with isMaster := false }).2 = r at *
  have hmode : p.isMaster = true := by
    rw [hp]
    exact congrArg not hslave
  have hport : p.config.hasPort = true := by
    rw [hp]
    exact congrArg Config.hasPort hconfig
  replace hpd : p.node.disk.Reliable := hp ▸ hpd
  replace hfile : p.node.disk.files (statePathOf true) = some (persistText masterTable) :=
    hp ▸ hfile
  replace hnode : p.node = afterExchange (loaded { resumedProcess with isMaster := false })
    (1, 0) (1, 1) readRequest reply := hp ▸ hnode
  have htable : ∀ c, c ≠ (1, 0) → c ≠ (1, 1) → p.node.ctrTable c = emptyCtrTable c := by
    intro c h0 h1
    simp only [hnode, afterExchange, storeEntry_ctrTable, Function.update_of_ne h1,
      Function.update_of_ne h0]
    rfl
  have hreplaces : LoadReplaces p := loadReplaces_resumed hmode hfile htable
  have hstart : LoadReplaces resumedProcess :=
    loadReplaces_resumed rfl file_resumed fun _ _ _ => rfl
  have has : Always (step P) (Replaced true) resumedProcess (as ++ [.runExchange deadPort]) :=
    And.intro trivial (And.intro (fun h => absurd h Bool.false_ne_true)
      (And.intro trivial (And.intro (fun _ => hreplaces) trivial)))
  have hbs : Always (step P) (Replaced true) resumedProcess [.runExchange deadPort] :=
    And.intro (fun _ => hstart) trivial
  have hinputs : ownInputs P true resumedProcess (as ++ [.runExchange deadPort]) =
      ownInputs P true resumedProcess [.runExchange deadPort] := by
    have hstart : resumedProcess.isMaster = true := rfl
    rw [(one_exchange hstart rfl deadPort).1, ← (one_exchange (P := P) hmode hport deadPort).1]
    exact (other_cons (p := step P resumedProcess .switchMode) rfl (requestPort P) _).1
  have hunset : ∀ c, fileEntry p c = none → (p.node.ctrTable c).validOut = 0 := by
    intro c hc
    rw [hreplaces c hc]
    rfl
  obtain ⟨hone, hruns⟩ := modes_separate P
  refine ⟨?_, ?_, (hone p hpd).mpr hunset,
    hruns true resumedProcess resumedProcess hd hd rfl _ _ hinputs has hbs⟩
  · rw [fileEntry_resumed hmode hfile]
    rfl
  · rw [hnode]
    simp only [afterExchange, storeEntry_ctrTable]
    rfl

/-- A port that brings the frame of counter 0. -/
def firstFramePort (P : Primitives) : SerialPort :=
  ⟨true, true, fun _ =>
    some (secureFrameBuild (sealFrame P ⟨zeroKey, zeroKey⟩ 1 0 []))⟩

section KeptTable
variable {P : Primitives}

private theorem slave_used {n : Node} (hkey : n.keyTable = keyedProcess.node.keyTable)
    (tables : DataModel) :
    (runAsSlave P keyedProcess.config (firstFramePort P) n tables).1.received.map (·.used) =
      some (blocksUsed (nextValue n (1, 0)) 3) := by
  have hc : channelIndex 1 .masterToSlave = some (1, 0) := rfl
  have hvalid : (n.keyTable (1, 0)).valid = true := by rw [hkey]; rfl
  have hkeys : (n.keyTable (1, 0)).keys = ⟨zeroKey, zeroKey⟩ := by rw [hkey]; rfl
  have hlen : ([] : Bytes).length ≤ maxPdu := by decide
  obtain ⟨hwire, hne⟩ := wire_length (P := P) ⟨zeroKey, zeroKey⟩ 1 0 hlen
  have hauth := authenticate_sealFrame (P := P) hlen hc hvalid (.inl (rfl : (1 : Byte) = 1)) 0
  obtain ⟨-, -, -, hused, -⟩ := verify_of_ok hauth hc
  rw [hkeys, sealFrame, length_crypt, length_plaintextAdu] at hused
  rw [firstFramePort, runAsSlave_frame n tables rfl hne hwire, processIncomingFrame_received,
    Option.map_some]
  exact congrArg some hused

private theorem slave_exchange_used {r : Process} (hd : r.node.disk.Reliable)
    (hkeys : r.keysLoaded = true) (hmode : r.isMaster = false)
    (hconfig : r.config = keyedProcess.config)
    (hkey : r.node.keyTable = keyedProcess.node.keyTable) :
    (doRunExchange P (firstFramePort P) r).1.received.map (·.used) =
      some (blocksUsed (nextValue (loaded r) (1, 0)) 3) := by
  rw [doRunExchange_slave hkeys hmode, hconfig]
  exact slave_used ((loaded_frame hd).1.keyTable.trans hkey) r.tables

/-- An exchange whose frame is encrypted and cannot be sent. -/
private theorem runAsMaster_dead {config : Config} {n n₁ : Node} {req : Bytes} {result : BuildResult}
    (hport : config.hasPort = true)
    (hbuild : modbusBuildRequest config.funcCode config.startAddr config.valueOrQty = some req)
    (hsend : secureFrameEncryptAndBuild P n config.slaveAddr req .masterToSlave = (some result, n₁)) :
    (runAsMaster P config deadPort n).2 = n₁ := by
  simp [runAsMaster, hbuild, hsend, hport, deadPort]

private theorem dead_exchange : (doRunExchange P deadPort keyedProcess).2 =
    { keyedProcess with node := storeEntry (loaded keyedProcess) (1, 0) ⟨1, 1, 0, 0⟩ } := by
  obtain ⟨req, hreq, hlen⟩ : ∃ req, modbusBuildRequest funcWriteMultipleRegisters 1 2 = some req ∧
      req.length = 10 := ⟨_, rfl, rfl⟩
  have hsend := secureFrameEncryptAndBuild_eq (P := P) (n := loaded keyedProcess)
    (show req.length ≤ maxPdu by rw [hlen]; decide)
    (show channelIndex 1 .masterToSlave = some (1, 0) from rfl) rfl
  rw [doRunExchange_master rfl rfl, runAsMaster_dead rfl hreq hsend, hlen]
  rfl

/-- With LEA and any MAC: an exchange of the master moves the counter that the slave, whose
file does not exist, decrypts with. -/
theorem master_exchange_moves_slave_counter : ¬ ∃ mac, ModesSeparate (leaPrimitives mac) := by
  rintro ⟨mac, h⟩
  let P := leaPrimitives mac
  let q : Process := { keyedProcess with isMaster := false }
  let r : Process := { keyedProcess with
    isMaster := false
    node := storeEntry (loaded keyedProcess) (1, 0) ⟨1, 1, 0, 0⟩ }
  have hd : keyedProcess.node.disk.Reliable := (rfl : ([] : List Outcome) = [])
  have hq : q.isMaster = false := rfl
  have hr : r.isMaster = false := rfl
  have hstep : step P (step P keyedProcess (.runExchange deadPort)) .switchMode = r := by
    rw [show step P keyedProcess (.runExchange deadPort) = _ from dead_exchange]
    rfl
  have hinputs : ownInputs P false keyedProcess
      [.runExchange deadPort, .switchMode, .runExchange (firstFramePort P)] =
      ownInputs P false keyedProcess [.switchMode, .runExchange (firstFramePort P)] := by
    rw [(other_cons rfl _ _).1, hstep, (one_exchange hr rfl _).1]
    exact (one_exchange hq rfl _).1.symm
  obtain ⟨hsame, -⟩ := h false keyedProcess keyedProcess hd hd rfl _ _ hinputs
  rw [(other_cons rfl _ _).2, hstep, (one_exchange hr rfl _).2] at hsame
  replace hsame := hsame.trans (one_exchange hq rfl _).2
  have hboth : (doRunExchange P (firstFramePort P) r).1 = (doRunExchange P (firstFramePort P) q).1 :=
    (List.cons.inj hsame).1
  have hused := slave_exchange_used (P := P) (r := r) (frame_storeEntry (loaded_frame hd).1.reliable
    (1, 0) ⟨1, 1, 0, 0⟩).reliable rfl rfl rfl rfl
  have hqused := slave_exchange_used (P := P) (r := q) hd rfl rfl rfl rfl
  rw [hboth, hqused] at hused
  have hblocks : blocksUsed (nextValue (loaded q) (1, 0)) 3 =
      blocksUsed (nextValue (loaded r) (1, 0)) 3 :=
    Option.some.inj hused
  have hvq : nextValue (loaded q) (1, 0) = 0 := rfl
  have hvr : nextValue (loaded r) (1, 0) = 1 := rfl
  rw [hvq, hvr] at hblocks
  exact absurd hblocks (by decide)

end KeptTable

end ModbusSecurity.ModeSeparation
