import ModbusSecurity.LaunchPaths
import ModbusSecurity.LockstepLink
import ModbusSecurity.TransparentExchange

/-! # A master and its slaves on one bus

Every party is a process of the demo program on a machine of its own. A request is heard by
all slaves that listen; any party may be stopped and started again between two requests, and
finds its keys and its counters in its files. -/
namespace ModbusSecurity.MultidropBus
open ByteStrings TextStreams KeyStore CounterFile CounterState SecureFraming ModbusPdu SecureDemo
open ExchangeEffects SelfTestEffects TransparentExchange LaunchPaths TransitionRuns
open LockstepLink (Junk authenticate_of_junk)
open RestartHistory (keyText)

/-! ### The bus -/

structure Bus where
  master : Process
  slaves : Byte → Process

inductive Event where
  /-- The operator answers the master's prompts and starts an exchange. -/
  | request (input : ConfigInput) (listeners : List Byte)
  /-- Something that no party sent. -/
  | noise (rx : Bytes) (listeners : List Byte)
  | restartMaster
  | restartSlave (slave_addr : Byte)

/-- What an exchange shows: the requests that were opened, who wrote to the bus, and the
response the master opened. -/
structure Answer where
  opened : List (Byte × Bytes) := []
  speaking : List Byte := []
  reply : Option Bytes := none

def startMaster (argv0 : Option Bytes) (disk : Disk) : Process := doKeyInit (newProcess argv0 disk)

/-- Slave mode, the keys, and the slave's own address. -/
def startSlave (slave_addr : Byte) (argv0 : Option Bytes) (disk : Disk) : Process :=
  doEnvConfig ⟨some true, some slave_addr.toNat, none, none, none⟩
    (doKeyInit { newProcess argv0 disk with isMaster := false })

/-- A slave runs an exchange while `wire` is on the bus. -/
def hear (P : Primitives) (wire : Bytes) (p : Process) : Exchange × Process :=
  doRunExchange P ⟨true, true, fun _ => some wire⟩ p

/-- The PDU of a frame that was opened. -/
def openedPdu (e : Exchange) : Option Bytes :=
  e.received.bind fun r => if r.status = .ok then r.outPdu else none

section Steps
variable (P : Primitives) (b : Bus)

def heardBy (wire : Bytes) (listeners : List Byte) : Bus :=
  { b with
    slaves := fun a => if listeners.contains a then (hear P wire (b.slaves a)).2 else b.slaves a }

/-- What the listeners show when `wire` is on the bus. -/
def heardAnswer (wire : Bytes) (listeners : List Byte) (reply : Option Bytes) : Answer where
  opened := listeners.flatMap fun a =>
    ((openedPdu (hear P wire (b.slaves a)).1).map (a, ·)).toList
  speaking := listeners.flatMap fun a =>
    if (hear P wire (b.slaves a)).1.written = [] then [] else [a]
  reply := reply

/-- The bus as the master's port: a read brings what the listeners write. -/
def busPort (listeners : List Byte) : SerialPort :=
  ⟨true, true, fun wire => some (listeners.flatMap fun a => (hear P wire (b.slaves a)).1.written)⟩

def requestStep (input : ConfigInput) (listeners : List Byte) : Answer × Bus :=
  let (e, master) := doRunExchange P (busPort P b listeners) (doEnvConfig input b.master)
  (heardAnswer P b e.written listeners (openedPdu e),
    heardBy P { b with master := master } e.written listeners)

def step : Event → Answer × Bus
  | .request input listeners => requestStep P b input listeners
  | .noise rx listeners => (heardAnswer P b rx listeners none, heardBy P b rx listeners)
  | .restartMaster => ({}, { b with master := startMaster b.master.argv0 b.master.node.disk })
  | .restartSlave a =>
    let p := b.slaves a
    ({}, { b with slaves := Function.update b.slaves a (startSlave a p.argv0 p.node.disk) })

end Steps

/-! ### The same operator without any security layer -/

structure Plain where
  config : Config
  tables : Byte → DataModel

/-- The prompts of the master mode. -/
def asked (input : ConfigInput) (c : Config) : Config where
  hasPort := input.hasPort.getD c.hasPort
  slaveAddr := prompt 1 247 (fun _ => true) c.slaveAddr input.slaveAddr
  funcCode := prompt 0 255 modbusFuncIsSupported c.funcCode input.funcCode
  startAddr := prompt 0 65535 (fun _ => true) c.startAddr input.startAddr
  valueOrQty := prompt 0 65535 (fun _ => true) c.valueOrQty input.valueOrQty

/-- The configuration before the first prompt. -/
def startConfig : Config := ⟨false, 0x01, funcWriteMultipleRegisters, 1, 2⟩

def plainRequest (c : Config) (tables : Byte → DataModel) : Answer × (Byte → DataModel) :=
  match modbusBuildRequest c.funcCode c.startAddr c.valueOrQty with
  | none => ({}, tables)
  | some req =>
    let (reply, table) := modbusBuildResponse (tables c.slaveAddr) req
    (⟨[(c.slaveAddr, req)], [c.slaveAddr], reply⟩, Function.update tables c.slaveAddr table)

/-- Noise does nothing, and a server that starts again has its first tables. -/
def plainStep (t : Plain) : Event → Answer × Plain
  | .request input _ =>
    let c := asked input t.config
    ((plainRequest c t.tables).1, ⟨c, (plainRequest c t.tables).2⟩)
  | .noise _ _ => ({}, t)
  | .restartMaster => ({}, { t with config := startConfig })
  | .restartSlave a => ({}, { t with tables := Function.update t.tables a staticDataModel })

/-- What may happen on a bus with slaves `S`: a port is configured, the slave that is asked
listens, and what nobody sent fails one of the first four checks of every listener. -/
def Admitted (P : Primitives) (S : Set Byte) (keys : Byte → KeyTable) (t : Plain) : Event → Prop
  | .request input listeners =>
    listeners.Nodup ∧ (∀ a ∈ listeners, a ∈ S) ∧ (asked input t.config).hasPort = true ∧
      (asked input t.config).slaveAddr ∈ listeners
  | .noise rx listeners =>
    ∀ a ∈ listeners, a ∈ S ∧ Junk P (keys a) (rx.take maxWireLen) a .masterToSlave
  | .restartMaster => True
  | .restartSlave a => a ∈ S

/-! ### A party between two starts -/

/-- A process that finds its keys and its counters when it is started again. -/
structure Running (isMaster : Bool) (argv0 : Option Bytes) (keys : KeyTable) (p : Process) : Prop where
  mode : p.isMaster = isMaster
  executable : p.argv0 = argv0
  keysLoaded : p.keysLoaded = true
  reliable : p.node.disk.Reliable
  keyTable : p.node.keyTable = keys
  found : (startMaster argv0 p.node.disk).keysLoaded = true
  foundKeys : (startMaster argv0 p.node.disk).node.keyTable = keys
  unlisted : ∀ c, fileEntry p c = none → (p.node.ctrTable c).validOut = 0

/-- The counter that the next frame of a channel gets. -/
def counterOf (p : Process) (c : Channel) : BitVec 32 := nextValue (loaded p) c

section Party
variable {P : Primitives} {isMaster : Bool} {argv0 : Option Bytes} {keys : KeyTable} {p : Process}

theorem nextValue_congr {n n' : Node} {c : Channel} (hkeys : n'.keyTable = n.keyTable)
    (hctr : n'.ctrTable c = n.ctrTable c) : nextValue n' c = nextValue n c := by
  rw [nextValue, nextValue, hkeys, hctr]

/-- Keys come from the files that are searched, and from nothing else. -/
theorem loadFirst_congr {n n' : Node} (hd : n.disk.Reliable) (hd' : n'.disk.Reliable)
    (hkeys : n'.keyTable = n.keyTable) {paths : List Bytes}
    (hfiles : ∀ path ∈ paths, n'.disk.files path = n.disk.files path) :
    (loadFirst n' paths).1 = (loadFirst n paths).1 ∧
      (loadFirst n' paths).2.keyTable = (loadFirst n paths).2.keyTable := by
  induction paths generalizing n n' with
  | nil => exact ⟨rfl, hkeys⟩
  | cons path rest ih =>
    have hpath := hfiles path (List.mem_cons_self ..)
    simp only [loadFirst, Disk.read_reliable hd, Disk.read_reliable hd', hkeys, hpath]
    split
    · exact ⟨rfl, rfl⟩
    · exact ih hd hd' rfl fun path' hmem => hfiles path' (List.mem_cons_of_mem _ hmem)

theorem startMaster_congr {d d' : Disk} (hd : d.Reliable) (hd' : d'.Reliable)
    (hfiles : ∀ path, path ∉ writtenFiles → d'.files path = d.files path) :
    (startMaster argv0 d').keysLoaded = (startMaster argv0 d).keysLoaded ∧
      (startMaster argv0 d').node.keyTable = (startMaster argv0 d).node.keyTable := by
  have hstart : (startProcess d).disk.Reliable := hd
  have hstart' : (startProcess d').disk.Reliable := hd'
  have hsearched : ∀ path ∈ keyPaths argv0,
      (startProcess d').disk.files path = (startProcess d).disk.files path :=
    fun path hmem => hfiles path (keyPaths_not_written hmem)
  obtain ⟨hcount, hkeys⟩ := loadFirst_congr hstart hstart' rfl hsearched
  refine ⟨?_, hkeys⟩
  show decide (0 < (loadFirst (startProcess d') (keyPaths argv0)).1.getD 0) = _
  rw [hcount]
  rfl

theorem startMaster_node {d : Disk} (hd : d.Reliable) :
    (startMaster argv0 d).node.disk = d ∧ (startMaster argv0 d).node.ctrTable = emptyCtrTable := by
  obtain ⟨keyTable, hnode, -⟩ := doKeyInit_frame (newProcess argv0 d) hd
  rw [startMaster, hnode]
  exact ⟨rfl, rfl⟩

theorem running_startMaster {d : Disk} (hd : d.Reliable)
    (hfound : (startMaster argv0 d).keysLoaded = true) :
    Running true argv0 (startMaster argv0 d).node.keyTable (startMaster argv0 d) := by
  obtain ⟨hdisk, hctr⟩ := @startMaster_node argv0 d hd
  refine ⟨rfl, rfl, hfound, hdisk.symm ▸ hd, rfl, ?_, ?_, fun c _ => ?_⟩
  · rw [hdisk]
    exact hfound
  · rw [hdisk]
  · rw [hctr]
    rfl

theorem prompt_address {a : Byte} (ha : 1 ≤ a.toNat ∧ a.toNat ≤ 247) (old : Byte) :
    prompt 1 247 (fun _ => true) old (some (a.toNat : ℤ)) = a := by
  have hword : BitVec.ofInt 8 (a.toNat : ℤ) = a := by simp
  simp only [prompt, hword]
  rw [if_pos]
  refine ⟨?_, ?_, trivial⟩ <;> omega

/-- A slave starts with the keys that a master would load. -/
theorem startSlave_eq {a : Byte} (ha : 1 ≤ a.toNat ∧ a.toNat ≤ 247) (d : Disk) :
    startSlave a argv0 d = { startMaster argv0 d with
      isMaster := false
      config := { startConfig with hasPort := true, slaveAddr := a } } := by
  have haddr := prompt_address ha 0x01
  show ({ startMaster argv0 d with
    isMaster := false
    config := { startConfig with
      hasPort := true
      slaveAddr := prompt 1 247 (fun _ => true) 0x01 (some (a.toNat : ℤ)) } } : Process) = _
  rw [haddr]

theorem running_startSlave {a : Byte} (ha : 1 ≤ a.toNat ∧ a.toNat ≤ 247) {d : Disk} (hd : d.Reliable)
    (hfound : (startMaster argv0 d).keysLoaded = true) :
    Running false argv0 (startMaster argv0 d).node.keyTable (startSlave a argv0 d) := by
  obtain ⟨hdisk, hctr⟩ := @startMaster_node argv0 d hd
  rw [startSlave_eq ha]
  refine ⟨rfl, rfl, hfound, hdisk.symm ▸ hd, rfl, ?_, ?_, fun c _ => ?_⟩
  · rw [hdisk]
    exact hfound
  · rw [hdisk]
  · rw [hctr]
    rfl

theorem loaded_keyTable (hd : p.node.disk.Reliable) : (loaded p).keyTable = p.node.keyTable :=
  (loaded_frame hd).1.keyTable

/-- Whoever holds the same keys and the same file continues with the same counters. -/
theorem counterOf_congr {p' : Process} (h : Running isMaster argv0 keys p)
    (h' : Running isMaster argv0 keys p') {c : Channel} (hfile : fileEntry p' c = fileEntry p c) :
    counterOf p' c = counterOf p c := by
  have hkeys : (loaded p').keyTable = (loaded p).keyTable := by
    rw [loaded_keyTable h.reliable, loaded_keyTable h'.reliable, h.keyTable, h'.keyTable]
  rw [counterOf, counterOf]
  cases hentry : fileEntry p c with
  | some e =>
    refine nextValue_congr hkeys ?_
    rw [loaded_entry h.reliable, loaded_entry h'.reliable, hfile, hentry]
    rfl
  | none =>
    -- unlisted on both sides, so both start from the seed
    rw [nextValue, nextValue, loaded_entry h.reliable, loaded_entry h'.reliable, hfile, hentry]
    rw [Option.getD_none, Option.getD_none, if_pos (h.unlisted c hentry),
      if_pos (h'.unlisted c (hfile.trans hentry)), hkeys]

/-- Without a counter file the counters are those in memory. -/
theorem counterOf_fresh (hd : p.node.disk.Reliable)
    (hfile : p.node.disk.files (statePathOf p.isMaster) = none) (c : Channel) :
    counterOf p c = nextValue p.node c :=
  nextValue_congr (loaded_keyTable hd) (by rw [loaded_entry hd, fileEntry, hfile]; rfl)

theorem running_exchange (h : Running isMaster argv0 keys p) (port : SerialPort) :
    Running isMaster argv0 keys (doRunExchange P port p).2 ∧
      ∀ c, counterOf (doRunExchange P port p).2 c =
        nextValue (doRunExchange P port p).2.node c := by
  obtain ⟨hmode, hloaded, -, -⟩ := doRunExchange_settings (P := P) (p := p) port
  obtain ⟨hkeys, hreliable, hfiles⟩ := doRunExchange_frame (P := P) h.reliable port
  have hdisk := (loaded_frame h.reliable).2
  have hkept := doRunExchange_keptOrWritten (P := P) h.keysLoaded h.reliable port
  generalize hq : (doRunExchange P port p).2 = q at *
  -- behind an exchange a load finds what is in memory, and what is not listed is not set
  have hentry : ∀ c, (loaded q).ctrTable c = q.node.ctrTable c ∧
      (fileEntry q c = none → (q.node.ctrTable c).validOut = 0) := by
    intro c
    rw [loaded_entry hreliable, fileEntry, hmode]
    rcases hkept with ⟨htable, hfile⟩ | hwritten
    · rw [hfile, hdisk, htable, loaded_entry h.reliable]
      cases hold : fileEntry p c with
      | some e =>
        rw [fileEntry] at hold
        rw [hold]
        exact ⟨rfl, fun hnone => by cases hnone⟩
      | none =>
        have hunset := h.unlisted c hold
        rw [fileEntry] at hold
        rw [hold]
        exact ⟨rfl, fun _ => hunset⟩
    · rw [hwritten, Option.bind_some, listed_persistText]
      by_cases hblank : (q.node.ctrTable c).blank
      · rw [if_pos hblank]
        refine ⟨rfl, fun _ => ?_⟩
        simp only [CtrEntry.blank, Bool.and_eq_true, beq_iff_eq] at hblank
        exact hblank.1
      · rw [if_neg hblank]
        exact ⟨rfl, fun hnone => by cases hnone⟩
  have hothers : ∀ path, path ∉ writtenFiles → q.node.disk.files path = p.node.disk.files path :=
    fun path hother => hfiles path (fun heq => hother (heq ▸ statePathOf_written _))
      (fun heq => hother (heq ▸ by decide))
  obtain ⟨hfound, hfoundKeys⟩ := @startMaster_congr argv0 _ _ h.reliable hreliable hothers
  refine ⟨⟨hmode.trans h.mode, ?_, hloaded.trans h.keysLoaded, hreliable, hkeys.trans h.keyTable,
    hfound.trans h.found, hfoundKeys.trans h.foundKeys, fun c => (hentry c).2⟩, fun c => ?_⟩
  · rw [← hq, doRunExchange_argv0, h.executable]
  · exact nextValue_congr (loaded_keyTable hreliable) (hentry c).1

/-- A party that is stopped and started again goes on where it was. -/
theorem counterOf_startMaster (h : Running true argv0 keys p) (c : Channel) :
    Running true argv0 keys (startMaster p.argv0 p.node.disk) ∧
      counterOf (startMaster p.argv0 p.node.disk) c = counterOf p c := by
  rw [h.executable]
  have hstart := running_startMaster h.reliable h.found
  rw [h.foundKeys] at hstart
  refine ⟨hstart, counterOf_congr h hstart ?_⟩
  rw [fileEntry, fileEntry, h.mode, (startMaster_node h.reliable).1]
  rfl

theorem counterOf_startSlave {a : Byte} (ha : 1 ≤ a.toNat ∧ a.toNat ≤ 247)
    (h : Running false argv0 keys p) (c : Channel) :
    Running false argv0 keys (startSlave a p.argv0 p.node.disk) ∧
      counterOf (startSlave a p.argv0 p.node.disk) c = counterOf p c := by
  rw [h.executable]
  have hstart := running_startSlave ha h.reliable h.found
  rw [h.foundKeys] at hstart
  refine ⟨hstart, counterOf_congr h hstart ?_⟩
  rw [startSlave_eq ha, fileEntry, fileEntry, h.mode, (startMaster_node h.reliable).1]

end Party

/-! ### What a slave does with what it hears -/

/-- A slave that leaves the bus, its server and its counters alone. -/
structure Unmoved (keys : KeyTable) (p : Process) (t : Exchange × Process) : Prop where
  written : t.1.written = []
  opened : openedPdu t.1 = none
  running : Running false p.argv0 keys t.2
  config : t.2.config = p.config
  tables : t.2.tables = p.tables
  counters : ∀ c, counterOf t.2 c = counterOf p c

/-- How far a request and its response move the counters. -/
def advanced (m2s s2m : Channel) (req reply : Bytes) (value : Channel → BitVec 32) (c : Channel) :
    BitVec 32 :=
  if c = s2m then value c + numBlocks (reply.length + 3)
  else if c = m2s then value c + numBlocks (req.length + 3)
  else value c

section Turns
variable {P : Primitives} {argv0 : Option Bytes} {keys : KeyTable} {p : Process} {m2s s2m : Channel}

theorem openedPdu_of_recovers {e : Exchange} {pdu : Bytes} (h : Recovers e.received pdu) :
    openedPdu e = some pdu := by
  obtain ⟨r, hreceived, hok, hpdu, -⟩ := h
  rw [openedPdu, hreceived, Option.bind_some, if_pos hok, hpdu]

theorem processIncomingFrame_junk {config : Config} {rx : Bytes} {n : Node}
    (hj : Junk P n.keyTable rx config.slaveAddr .masterToSlave) (port : Option SerialPort)
    (tables : DataModel) : ∃ r : VerifyResult, r.status ≠ .ok ∧
      processIncomingFrame P config port rx n tables = ({ received := some r }, n, tables) := by
  obtain ⟨s, hs⟩ := authenticate_of_junk hj
  obtain ⟨hok, -, hstatus, -, hn⟩ := verify_of_error hs
  unfold processIncomingFrame
  generalize secureFrameVerifyAndDecrypt P n rx config.slaveAddr .masterToSlave = v at *
  obtain ⟨r, n'⟩ := v
  obtain rfl : n' = n := hn
  have hfail : r.status ≠ .ok := hstatus ▸ hok
  refine ⟨r, hfail, ?_⟩
  simp only
  split
  · exact absurd ‹r.status = .ok› hfail
  · rfl

theorem runAsSlave_junk {config : Config} (hport : config.hasPort = true) {wire : Bytes} {n : Node}
    (hj : Junk P n.keyTable (wire.take maxWireLen) config.slaveAddr .masterToSlave)
    (tables : DataModel) : ∃ e : Exchange, e.written = [] ∧ openedPdu e = none ∧
      runAsSlave P config ⟨true, true, fun _ => some wire⟩ n tables = (e, n, tables) := by
  have hread : serialPortRead ⟨true, true, fun _ => some wire⟩ [] = some (wire.take maxWireLen) := rfl
  unfold runAsSlave
  rw [hport, hread]
  cases hrx : wire.take maxWireLen with
  | nil => exact ⟨{}, rfl, rfl, rfl⟩
  | cons b bs =>
    rw [hrx] at hj
    obtain ⟨r, hfail, hframe⟩ :=
      processIncomingFrame_junk hj (some ⟨true, true, fun _ => some wire⟩) tables
    refine ⟨{ received := some r }, rfl, ?_, hframe⟩
    rw [openedPdu, Option.bind_some, if_neg hfail]

theorem hear_junk (h : Running false argv0 keys p) (hport : p.config.hasPort = true) {wire : Bytes}
    (hj : Junk P keys (wire.take maxWireLen) p.config.slaveAddr .masterToSlave) :
    Unmoved keys p (hear P wire p) := by
  have hrunning := running_exchange (P := P) h ⟨true, true, fun _ => some wire⟩
  have hkeys : (loaded p).keyTable = keys := (loaded_keyTable h.reliable).trans h.keyTable
  rw [← hkeys] at hj
  obtain ⟨e, hwritten, hopened, hturn⟩ := runAsSlave_junk hport hj p.tables
  rw [doRunExchange_slave h.keysLoaded h.mode, hturn] at hrunning
  rw [hear, doRunExchange_slave h.keysLoaded h.mode, hturn]
  obtain ⟨hrun, hcounter⟩ := hrunning
  rw [← h.executable] at hrun
  exact ⟨hwritten, hopened, hrun, rfl, rfl, hcounter⟩

/-- A frame is junk to every slave but the one it is addressed to. -/
theorem junk_elsewhere {keys' : DirectionalKeys} {a b : Byte} (hb : b.toNat ≤ 247) (hab : a ≠ b)
    (ctr : BitVec 32) {pdu : Bytes} (hlen : pdu.length ≤ maxPdu) (keyTable : KeyTable) :
    Junk P keyTable ((secureFrameBuild (sealFrame P keys' a ctr pdu)).take maxWireLen) b
      .masterToSlave := by
  rw [List.take_of_length_le (wire_length keys' a ctr hlen).1]
  refine .inr ⟨sealFrame P keys' a ctr pdu, parse_build _ ?_, .inl ⟨?_, hab⟩⟩
  · simp only [maxPdu] at hlen
    simp only [sealFrame, length_crypt, length_plaintextAdu, maxAdu, addrLen, maxPdu, crcLen]
    omega
  · rintro rfl
    simp [anyAddr] at hb

theorem nextValue_afterExchange (n : Node) (hne : s2m ≠ m2s) (req reply : Bytes) (c : Channel) :
    nextValue (afterExchange n m2s s2m req reply) c = advanced m2s s2m req reply (nextValue n) c := by
  unfold afterExchange advanced
  by_cases hs : c = s2m
  · subst hs
    rw [if_pos rfl, nextValue_reserve]
  · rw [if_neg hs, nextValue_storeEntry_ne _ hs]
    by_cases hm : c = m2s
    · subst hm
      rw [if_pos rfl, nextValue_reserve]
    · rw [if_neg hm, nextValue_storeEntry_ne _ hm]

/-- The counters of a process whose node has been through an exchange. -/
theorem counterOf_served {q : Process} (hcounter : ∀ c, counterOf q c = nextValue q.node c)
    (hne : s2m ≠ m2s) {req reply : Bytes}
    (hnode : q.node = afterExchange (loaded p) m2s s2m req reply) (c : Channel) :
    counterOf q c = advanced m2s s2m req reply (counterOf p) c := by
  rw [hcounter c, hnode]
  exact nextValue_afterExchange (loaded p) hne req reply c

/-- The slave that is asked, at the counters of the master. -/
theorem hear_served {a : Byte} (h : Running false argv0 keys p) (hport : p.config.hasPort = true)
    (haddr : p.config.slaveAddr = a) (hm : channelIndex a .masterToSlave = some m2s)
    (hs : channelIndex a .slaveToMaster = some s2m) (hkm : (keys m2s).valid = true)
    (hks : (keys s2m).valid = true) {req : Bytes} (hne : req ≠ []) (hlen : req.length ≤ maxPdu) :
    let t := hear P (secureFrameBuild (sealFrame P (keys m2s).keys a (counterOf p m2s) req)) p
    ∃ reply, (modbusBuildResponse p.tables req).1 = some reply ∧ reply.length ≤ maxPdu ∧
      openedPdu t.1 = some req ∧
      t.1.written = secureFrameBuild (sealFrame P (keys s2m).keys a (counterOf p s2m) reply) ∧
      t.2.tables = (modbusBuildResponse p.tables req).2 ∧ t.2.config = p.config ∧
      Running false argv0 keys t.2 ∧
      ∀ c, counterOf t.2 c = advanced m2s s2m req reply (counterOf p) c := by
  intro t
  subst haddr
  have hkeys : (loaded p).keyTable = keys := (loaded_keyTable h.reliable).trans h.keyTable
  obtain ⟨hrunning, hcounter⟩ := running_exchange (P := P) h ⟨true, true, fun _ => some
    (secureFrameBuild (sealFrame P (keys m2s).keys p.config.slaveAddr (counterOf p m2s) req))⟩
  rw [← hkeys] at hkm hks
  obtain ⟨reply, hreply, hfit, hopened, hwritten, hnode, htables⟩ :=
    slaveTurn_eq (P := P) p.config ⟨loaded p, loaded p, p.tables⟩ hm hs hport hkm hks hne hlen
  rw [hkeys] at hopened hwritten hnode htables
  have hturn : t = ((slaveTurn P p.config ⟨loaded p, loaded p, p.tables⟩ _).1,
      { p with
        node := (slaveTurn P p.config ⟨loaded p, loaded p, p.tables⟩ _).2.1
        tables := (slaveTurn P p.config ⟨loaded p, loaded p, p.tables⟩ _).2.2 }) :=
    doRunExchange_slave h.keysLoaded h.mode _
  refine ⟨reply, hreply, hfit, ?_, ?_, ?_, ?_, hrunning, fun c => ?_⟩
  · rw [hturn]
    exact openedPdu_of_recovers hopened
  · rw [hturn]
    exact hwritten
  · rw [hturn]
    exact htables
  · rw [hturn]
  · refine counterOf_served (q := t.2) hcounter (channels_ne hm hs) ?_ c
    rw [hturn]
    exact hnode

/-- The master, on a bus that answers at its own counters. -/
theorem request_served {a : Byte} (h : Running true argv0 keys p) (hport : p.config.hasPort = true)
    (haddr : p.config.slaveAddr = a) (hm : channelIndex a .masterToSlave = some m2s)
    (hs : channelIndex a .slaveToMaster = some s2m) (hkm : (keys m2s).valid = true)
    (hks : (keys s2m).valid = true) {req reply : Bytes}
    (hbuild : modbusBuildRequest p.config.funcCode p.config.startAddr p.config.valueOrQty = some req)
    (hlen : req.length ≤ maxPdu) (hfit : reply.length ≤ maxPdu) {port : SerialPort}
    (hopens : port.opens = true) (hwrites : port.writes = true)
    (hreads :
      port.reads (secureFrameBuild (sealFrame P (keys m2s).keys a (counterOf p m2s) req)) =
        some (secureFrameBuild (sealFrame P (keys s2m).keys a (counterOf p s2m) reply))) :
    let t := doRunExchange P port p
    t.1.written = secureFrameBuild (sealFrame P (keys m2s).keys a (counterOf p m2s) req) ∧
      openedPdu t.1 = some reply ∧ t.2.config = p.config ∧ Running true argv0 keys t.2 ∧
      ∀ c, counterOf t.2 c = advanced m2s s2m req reply (counterOf p) c := by
  intro t
  subst haddr
  have hkeys : (loaded p).keyTable = keys := (loaded_keyTable h.reliable).trans h.keyTable
  obtain ⟨hrunning, hcounter⟩ := running_exchange (P := P) h port
  have hrun := runAsMaster_eq (P := P) p.config port (n := loaded p) hm hs hport
    (by rwa [hkeys]) (by rwa [hkeys]) hbuild hlen hfit hopens hwrites
  rw [hkeys] at hrun
  obtain ⟨hwritten, hopened, hnode⟩ := hrun hreads
  have hturn : t = ((runAsMaster P p.config port (loaded p)).1,
      { p with node := (runAsMaster P p.config port (loaded p)).2 }) :=
    doRunExchange_master h.keysLoaded h.mode _
  refine ⟨?_, ?_, ?_, hrunning, fun c => ?_⟩
  · rw [hturn]
    exact hwritten
  · rw [hturn]
    exact openedPdu_of_recovers hopened
  · rw [hturn]
  · refine counterOf_served (q := t.2) hcounter (channels_ne hm hs) ?_ c
    rw [hturn]
    exact hnode

/-- A request that cannot be built leaves the bus silent. -/
theorem request_refused (h : Running true argv0 keys p)
    (hbuild : modbusBuildRequest p.config.funcCode p.config.startAddr p.config.valueOrQty = none)
    (port : SerialPort) :
    let t := doRunExchange P port p
    t.1 = {} ∧ t.2.config = p.config ∧ Running true argv0 keys t.2 ∧
      ∀ c, counterOf t.2 c = counterOf p c := by
  intro t
  obtain ⟨hrunning, hcounter⟩ := running_exchange (P := P) h port
  have hrun : runAsMaster P p.config port (loaded p) = ({}, loaded p) := by
    simp [runAsMaster, hbuild]
  have hturn : t = ({}, { p with node := loaded p }) := by
    rw [show t = _ from doRunExchange_master h.keysLoaded h.mode port, hrun]
  refine ⟨?_, ?_, hrunning, fun c => ?_⟩
  · rw [hturn]
  · rw [hturn]
  · rw [show counterOf t.2 c = nextValue t.2.node c from hcounter c, hturn]
    rfl

end Turns

/-! ### The bus and the plain servers -/

/-- The channels between the master and a slave. -/
def BusChannel (a : Byte) (c : Channel) : Prop :=
  channelIndex a .masterToSlave = some c ∨ channelIndex a .slaveToMaster = some c

/-- The machines of the bus before their first start. -/
structure Setup where
  argv0 : Option Bytes
  disk : Disk
  slaveArgv0 : Byte → Option Bytes
  slaveDisk : Byte → Disk

def Setup.start (u : Setup) : Bus :=
  ⟨startMaster u.argv0 u.disk, fun a => startSlave a (u.slaveArgv0 a) (u.slaveDisk a)⟩

def Setup.masterKeys (u : Setup) : KeyTable := u.start.master.node.keyTable

def Setup.slaveKeys (u : Setup) (a : Byte) : KeyTable := (u.start.slaves a).node.keyTable

/-- Every slave of `S` shares its keys and its counters with the master. -/
structure Setup.Ready (u : Setup) (S : Set Byte) : Prop where
  addresses : ∀ a ∈ S, 1 ≤ a.toNat ∧ a.toNat ≤ 247
  reliable : u.disk.Reliable ∧ ∀ a ∈ S, (u.slaveDisk a).Reliable
  found : u.start.master.keysLoaded = true ∧ ∀ a ∈ S, (u.start.slaves a).keysLoaded = true
  sameKeys : ∀ a ∈ S, ∀ c, BusChannel a c →
    SameKey u.start.master.node (u.start.slaves a).node c
  sameCounters : ∀ a ∈ S, ∀ c, BusChannel a c →
    counterOf u.start.master c = counterOf (u.start.slaves a) c

def plainStart : Plain := ⟨startConfig, fun _ => staticDataModel⟩

/-- A slave of the bus with the server it stands for. -/
structure Serves (argv0 : Option Bytes) (keys : KeyTable) (master : Process) (a : Byte) (p : Process)
    (tables : DataModel) : Prop where
  running : Running false argv0 keys p
  hasPort : p.config.hasPort = true
  slaveAddr : p.config.slaveAddr = a
  tables : p.tables = tables
  counters : ∀ c, BusChannel a c → counterOf master c = counterOf p c

structure Agrees (u : Setup) (S : Set Byte) (b : Bus) (t : Plain) : Prop where
  master : Running true u.argv0 u.masterKeys b.master
  config : b.master.config = t.config
  slaves : ∀ a ∈ S, Serves (u.slaveArgv0 a) (u.slaveKeys a) b.master a (b.slaves a) (t.tables a)

section Steps
variable {P : Primitives} {u : Setup} {S : Set Byte} {b : Bus} {t : Plain}

/-- One speaker among the listeners. -/
theorem flatMap_single {β : Type} {l : List Byte} {a : Byte} (hnodup : l.Nodup) (ha : a ∈ l)
    {f : Byte → List β} (hother : ∀ b ∈ l, b ≠ a → f b = []) : l.flatMap f = f a := by
  obtain ⟨before, after, rfl⟩ := List.append_of_mem ha
  obtain ⟨-, hafter, hdisjoint⟩ := List.nodup_append.mp hnodup
  have hbefore : before.flatMap f = [] := List.flatMap_eq_nil_iff.mpr fun b hb =>
    hother b (List.mem_append_left _ hb) (hdisjoint b hb a (List.mem_cons_self ..))
  have hrest : after.flatMap f = [] := List.flatMap_eq_nil_iff.mpr fun b hb =>
    hother b (List.mem_append_right _ (List.mem_cons_of_mem _ hb))
      (fun heq => (List.nodup_cons.mp hafter).1 (heq ▸ hb))
  rw [List.flatMap_append, List.flatMap_cons, hbefore, hrest, List.nil_append, List.append_nil]

theorem channels_of_address {a : Byte} (ha : a.toNat ≤ 247) : ∃ m2s s2m,
    channelIndex a .masterToSlave = some m2s ∧ channelIndex a .slaveToMaster = some s2m := by
  have hfit : a.toNat < keyStoreMaxAddr + 1 := by
    rw [keyStoreMaxAddr]
    omega
  unfold channelIndex
  rw [dif_pos hfit, dif_pos hfit]
  exact ⟨_, _, rfl, rfl⟩

/-- Nothing that an exchange with one slave counts belongs to another. -/
theorem advanced_elsewhere {a d : Byte} (had : d ≠ a) {m2s s2m c : Channel}
    (hm : channelIndex a .masterToSlave = some m2s) (hs : channelIndex a .slaveToMaster = some s2m)
    (hc : BusChannel d c) (req reply : Bytes) (value : Channel → BitVec 32) :
    advanced m2s s2m req reply value c = value c := by
  have hne : ∀ {dir} {c' : Channel}, channelIndex a dir = some c' → c ≠ c' := by
    rintro dir c' hc' rfl
    rcases hc with h | h
    · exact had (channelIndex_injective h hc').1
    · exact had (channelIndex_injective h hc').1
  rw [advanced, if_neg (hne hs), if_neg (hne hm)]

theorem serves_unmoved {argv0 : Option Bytes} {keys : KeyTable} {master : Process} {a : Byte}
    {p : Process} {tables : DataModel} (h : Serves argv0 keys master a p tables)
    {turn : Exchange × Process} (hturn : Unmoved keys p turn) :
    Serves argv0 keys master a turn.2 tables where
  running := h.running.executable ▸ hturn.running
  hasPort := hturn.config ▸ h.hasPort
  slaveAddr := hturn.config ▸ h.slaveAddr
  tables := hturn.tables.trans h.tables
  counters c hc := (h.counters c hc).trans (hturn.counters c).symm

theorem serves_master {argv0 : Option Bytes} {keys : KeyTable} {master master' : Process} {a : Byte}
    {p : Process} {tables : DataModel} (h : Serves argv0 keys master a p tables)
    (hsame : ∀ c, BusChannel a c → counterOf master' c = counterOf master c) :
    Serves argv0 keys master' a p tables :=
  { h with counters := fun c hc => (hsame c hc).trans (h.counters c hc) }

theorem heardBy_slaves (wire : Bytes) (listeners : List Byte) (a : Byte) :
    (heardBy P b wire listeners).slaves a =
      if a ∈ listeners then (hear P wire (b.slaves a)).2 else b.slaves a := by
  simp only [heardBy, List.contains_iff_mem]

/-- Listeners that take what they hear for junk. -/
theorem heard_junk (h : Agrees u S b t) {wire : Bytes} {listeners : List Byte}
    (hjunk : ∀ a ∈ listeners, a ∈ S ∧
      Junk P (u.slaveKeys a) (wire.take maxWireLen) a .masterToSlave) :
    heardAnswer P b wire listeners none = {} ∧ Agrees u S (heardBy P b wire listeners) t := by
  have hunmoved : ∀ a ∈ listeners, Unmoved (u.slaveKeys a) (b.slaves a) (hear P wire (b.slaves a)) := by
    intro a ha
    obtain ⟨hmem, hj⟩ := hjunk a ha
    have hserves := h.slaves a hmem
    exact hear_junk hserves.running hserves.hasPort (hserves.slaveAddr.symm ▸ hj)
  have hopened : (listeners.flatMap fun a =>
      ((openedPdu (hear P wire (b.slaves a)).1).map (a, ·)).toList) = [] :=
    List.flatMap_eq_nil_iff.mpr fun a ha => by rw [(hunmoved a ha).opened]; rfl
  have hspeaking : (listeners.flatMap fun a =>
      if (hear P wire (b.slaves a)).1.written = [] then [] else [a]) = [] :=
    List.flatMap_eq_nil_iff.mpr fun a ha => if_pos (hunmoved a ha).written
  refine ⟨?_, h.master, h.config, fun a ha => ?_⟩
  · rw [heardAnswer, hopened, hspeaking]
  · rw [heardBy_slaves]
    split
    · rename_i hmem
      exact serves_unmoved (h.slaves a ha) (hunmoved a hmem)
    · exact h.slaves a ha

theorem doEnvConfig_master {argv0 : Option Bytes} {keys : KeyTable} {p : Process}
    (h : Running true argv0 keys p) (input : ConfigInput) :
    doEnvConfig input p = { p with config := asked input p.config } ∧
      ∀ c, Running true argv0 keys { p with config := c } := by
  refine ⟨?_, fun c => ⟨h.mode, h.executable, h.keysLoaded, h.reliable, h.keyTable, h.found,
    h.foundKeys, h.unlisted⟩⟩
  simp only [doEnvConfig, h.mode, if_true, asked]

theorem step_refused (h : Agrees u S b t) {input : ConfigInput} {listeners : List Byte}
    (hmem : ∀ a ∈ listeners, a ∈ S)
    (hbuild : modbusBuildRequest (asked input t.config).funcCode (asked input t.config).startAddr
      (asked input t.config).valueOrQty = none) :
    (requestStep P b input listeners).1 = {} ∧
      Agrees u S (requestStep P b input listeners).2 { t with config := asked input t.config } := by
  obtain ⟨hasked, hrunning⟩ := doEnvConfig_master h.master input
  rw [h.config] at hasked
  obtain ⟨he, hconfig, hrun, hcounters⟩ := request_refused (P := P)
    (hrunning (asked input t.config)) hbuild (busPort P b listeners)
  rw [requestStep, hasked]
  generalize doRunExchange P (busPort P b listeners) _ = turn at *
  obtain ⟨e, master⟩ := turn
  obtain rfl : e = {} := he
  have hagrees : Agrees u S { b with master := master } { t with config := asked input t.config } :=
    ⟨hrun, hconfig, fun a ha => serves_master (h.slaves a ha) fun c _ => hcounters c⟩
  have hnothing : secureFrameParse (([] : Bytes).take maxWireLen) = none := rfl
  show heardAnswer P { b with master := master } [] listeners none = {} ∧
    Agrees u S (heardBy P { b with master := master } [] listeners) _
  exact heard_junk hagrees fun a ha => ⟨hmem a ha, .inl hnothing⟩

/-- The frame of a request, at the master's keys and counters and at the slave's. -/
theorem frame_agrees (hready : u.Ready S) (h : Agrees u S b t) {a : Byte} (ha : a ∈ S) {c : Channel}
    (hc : BusChannel a c) (pdu : Bytes) :
    (u.masterKeys c).valid = true ∧ (u.slaveKeys a c).valid = true ∧
      sealFrame P (u.masterKeys c).keys a (counterOf b.master c) pdu =
        sealFrame P (u.slaveKeys a c).keys a (counterOf (b.slaves a) c) pdu := by
  obtain ⟨hvm, hvs, hkeys⟩ := hready.sameKeys a ha c hc
  refine ⟨hvm, hvs, ?_⟩
  rw [(h.slaves a ha).counters c hc, Setup.masterKeys, hkeys, Setup.slaveKeys]

/-- What a bus shows on which one slave alone answers. -/
theorem heardAnswer_single {wire : Bytes} {listeners : List Byte} {addr : Byte} {req : Bytes}
    (hnodup : listeners.Nodup) (hlistens : addr ∈ listeners)
    (hsilent : ∀ a ∈ listeners, a ≠ addr →
      Unmoved (u.slaveKeys a) (b.slaves a) (hear P wire (b.slaves a)))
    (hopened : openedPdu (hear P wire (b.slaves addr)).1 = some req)
    (hwritten : (hear P wire (b.slaves addr)).1.written ≠ []) (reply : Option Bytes) :
    heardAnswer P b wire listeners reply = ⟨[(addr, req)], [addr], reply⟩ := by
  have hopeners : (listeners.flatMap fun a =>
      ((openedPdu (hear P wire (b.slaves a)).1).map (a, ·)).toList) = [(addr, req)] := by
    rw [flatMap_single hnodup hlistens fun a ha hother => ?_, hopened]
    · rfl
    · rw [(hsilent a ha hother).opened]
      rfl
  have hspeakers : (listeners.flatMap fun a =>
      if (hear P wire (b.slaves a)).1.written = [] then [] else [a]) = [addr] := by
    rw [flatMap_single hnodup hlistens fun a ha hother => ?_, if_neg hwritten]
    exact if_pos (hsilent a ha hother).written
  rw [heardAnswer, hopeners, hspeakers]

/-- A bus behind an exchange that moved nothing but the master and one slave. -/
theorem agrees_served (h : Agrees u S b t) {wire : Bytes} {listeners : List Byte} {addr : Byte}
    (hlistens : addr ∈ listeners)
    (hsilent : ∀ a ∈ listeners, a ≠ addr →
      Unmoved (u.slaveKeys a) (b.slaves a) (hear P wire (b.slaves a)))
    {master : Process} {tables : DataModel} (hmaster : Running true u.argv0 u.masterKeys master)
    (hserved : Serves (u.slaveArgv0 addr) (u.slaveKeys addr) master addr
      (hear P wire (b.slaves addr)).2 tables)
    (hothers : ∀ a c, a ≠ addr → BusChannel a c → counterOf master c = counterOf b.master c) :
    Agrees u S (heardBy P { b with master := master } wire listeners)
      ⟨master.config, Function.update t.tables addr tables⟩ := by
  refine ⟨hmaster, rfl, fun a ha => ?_⟩
  rw [heardBy_slaves]
  show Serves _ _ master a (if a ∈ listeners then (hear P wire (b.slaves a)).2 else b.slaves a)
    (Function.update t.tables addr tables a)
  by_cases hself : a = addr
  · subst hself
    rw [if_pos hlistens, Function.update_self]
    exact hserved
  · rw [Function.update_of_ne hself]
    have hkept := serves_master (h.slaves a ha) fun c hc => hothers a c hself hc
    split
    · rename_i hmem
      exact serves_unmoved hkept (hsilent a hmem hself)
    · exact hkept

theorem plainRequest_built {c : Config} {req : Bytes}
    (hbuild : modbusBuildRequest c.funcCode c.startAddr c.valueOrQty = some req)
    (tables : Byte → DataModel) : plainRequest c tables =
      (⟨[(c.slaveAddr, req)], [c.slaveAddr], (modbusBuildResponse (tables c.slaveAddr) req).1⟩,
        Function.update tables c.slaveAddr (modbusBuildResponse (tables c.slaveAddr) req).2) := by
  simp only [plainRequest, hbuild]

/-- The slaves that a frame is not addressed to. -/
theorem elsewhere_unmoved (hready : u.Ready S) (h : Agrees u S b t) {a addr : Byte} (ha : a ∈ S)
    (hother : a ≠ addr) (keys' : DirectionalKeys) (ctr : BitVec 32) {pdu : Bytes}
    (hlen : pdu.length ≤ maxPdu) :
    Unmoved (u.slaveKeys a) (b.slaves a)
      (hear P (secureFrameBuild (sealFrame P keys' addr ctr pdu)) (b.slaves a)) := by
  have hserves := h.slaves a ha
  refine hear_junk hserves.running hserves.hasPort ?_
  rw [hserves.slaveAddr]
  exact junk_elsewhere (hready.addresses a ha).2 hother.symm ctr hlen _

/-- The slave that is asked, at the keys and the counters of the master. It serves on for the
master whose counters have moved alike. -/
theorem slave_served (hready : u.Ready S) (h : Agrees u S b t) {addr : Byte} (hin : addr ∈ S)
    {m2s s2m : Channel} (hm : channelIndex addr .masterToSlave = some m2s)
    (hs : channelIndex addr .slaveToMaster = some s2m) {req : Bytes} (hne : req ≠ [])
    (hlen : req.length ≤ maxPdu) :
    let turn := hear P (secureFrameBuild (sealFrame P (u.masterKeys m2s).keys addr
      (counterOf b.master m2s) req)) (b.slaves addr)
    ∃ reply, (modbusBuildResponse (t.tables addr) req).1 = some reply ∧ reply.length ≤ maxPdu ∧
      openedPdu turn.1 = some req ∧
      turn.1.written = secureFrameBuild (sealFrame P (u.masterKeys s2m).keys addr
        (counterOf b.master s2m) reply) ∧
      ∀ master, (∀ c, counterOf master c = advanced m2s s2m req reply (counterOf b.master) c) →
        Serves (u.slaveArgv0 addr) (u.slaveKeys addr) master addr turn.2
          (modbusBuildResponse (t.tables addr) req).2 := by
  intro turn
  have hserves := h.slaves addr hin
  -- both ends seal the request and the response alike
  obtain ⟨-, hkm, hframe⟩ := frame_agrees (P := P) hready h hin (.inl hm) req
  obtain ⟨-, hks, -⟩ := frame_agrees (P := P) hready h hin (.inr hs) req
  obtain ⟨reply, hreply, hfit, hopened, hwritten, htables, hconfig, hrun, hcounters⟩ :=
    hear_served (P := P) hserves.running hserves.hasPort hserves.slaveAddr hm hs hkm hks hne hlen
  obtain ⟨-, -, hframe'⟩ := frame_agrees (P := P) hready h hin (.inr hs) reply
  rw [← hframe'] at hwritten
  rw [← hframe] at hopened hwritten htables hconfig hrun hcounters
  rw [hserves.tables] at hreply htables
  refine ⟨reply, hreply, hfit, hopened, hwritten, fun master hmaster => ?_⟩
  refine ⟨hrun, hconfig.symm ▸ hserves.hasPort, hconfig.symm ▸ hserves.slaveAddr, htables,
    fun c hc => ?_⟩
  rw [hcounters c, hmaster c]
  simp only [advanced]
  rw [← hserves.counters c hc]

theorem step_served (hready : u.Ready S) (h : Agrees u S b t) {input : ConfigInput}
    {listeners : List Byte} (hok : Admitted P S u.slaveKeys t (.request input listeners)) {req : Bytes}
    (hbuild : modbusBuildRequest (asked input t.config).funcCode (asked input t.config).startAddr
      (asked input t.config).valueOrQty = some req) :
    (requestStep P b input listeners).1 = (plainStep t (.request input listeners)).1 ∧
      Agrees u S (requestStep P b input listeners).2 (plainStep t (.request input listeners)).2 := by
  obtain ⟨hnodup, hmem, hport, hlistens⟩ := hok
  obtain ⟨hasked, hrunning⟩ := doEnvConfig_master h.master input
  rw [h.config] at hasked
  obtain ⟨hlo, hhi⟩ := length_modbusBuildRequest hbuild
  have hlen : req.length ≤ maxPdu := by simp only [maxPdu]; omega
  have hne : req ≠ [] := by rintro rfl; simp at hlo
  rw [plainStep, plainRequest_built hbuild]
  generalize asked input t.config = conf at *
  generalize haddr : conf.slaveAddr = addr at *
  have hin := hmem addr hlistens
  obtain ⟨m2s, s2m, hm, hs⟩ := channels_of_address (hready.addresses addr hin).2
  obtain ⟨hkm, -, -⟩ := frame_agrees (P := P) hready h hin (.inl hm) req
  obtain ⟨hks, -, -⟩ := frame_agrees (P := P) hready h hin (.inr hs) req
  obtain ⟨reply, hreply, hfit, hopened, hwritten, hserves⟩ :=
    slave_served (P := P) hready h hin hm hs hne hlen
  have hsilent := fun a (ha : a ∈ listeners) (hother : a ≠ addr) =>
    elsewhere_unmoved (P := P) hready h (hmem a ha) hother (u.masterKeys m2s).keys
      (counterOf b.master m2s) hlen
  generalize hwire : secureFrameBuild
    (sealFrame P (u.masterKeys m2s).keys addr (counterOf b.master m2s) req) = wire at *
  have hreads : (busPort P b listeners).reads wire = some (secureFrameBuild
      (sealFrame P (u.masterKeys s2m).keys addr (counterOf b.master s2m) reply)) := by
    rw [← hwritten]
    exact congrArg some (flatMap_single hnodup hlistens fun a ha hother =>
      (hsilent a ha hother).written)
  obtain ⟨hsent, hrecovered, hconfig, hrun, hcounters⟩ := request_served (P := P) (hrunning conf)
    hport haddr hm hs hkm hks hbuild hlen hfit rfl rfl (hwire.symm ▸ hreads)
  have hanswer := heardAnswer_single hnodup hlistens hsilent hopened
    (hwritten ▸ (wire_length _ _ _ hfit).2) (some reply)
  rw [requestStep, hasked]
  generalize doRunExchange P (busPort P b listeners) _ = turn at *
  obtain ⟨e, master⟩ := turn
  obtain rfl : master.config = conf := hconfig
  obtain rfl : e.written = wire := hsent.trans hwire
  have hagrees := agrees_served h hlistens hsilent hrun (hserves master hcounters)
    fun a c hother hc => (hcounters c).trans (advanced_elsewhere hother hm hs hc req reply _)
  refine ⟨?_, hagrees⟩
  rw [hreply, ← hanswer, ← hrecovered]

theorem restartMaster_agrees (h : Agrees u S b t) :
    Agrees u S (step P b .restartMaster).2 (plainStep t .restartMaster).2 := by
  refine ⟨(counterOf_startMaster h.master (0, 0)).1, rfl, fun a ha => ?_⟩
  exact serves_master (h.slaves a ha) fun c _ => (counterOf_startMaster h.master c).2

theorem restartSlave_agrees (hready : u.Ready S) (h : Agrees u S b t) {a : Byte} (ha : a ∈ S) :
    Agrees u S (step P b (.restartSlave a)).2 (plainStep t (.restartSlave a)).2 := by
  refine ⟨h.master, h.config, fun d hd => ?_⟩
  by_cases hself : d = a
  · subst hself
    have hrange := hready.addresses d hd
    have hserves := h.slaves d hd
    simp only [step, plainStep, Function.update_self]
    refine ⟨(counterOf_startSlave hrange hserves.running (0, 0)).1, ?_, ?_, ?_, fun c hc => ?_⟩
    · rw [startSlave_eq hrange]
    · rw [startSlave_eq hrange]
    · rw [startSlave_eq hrange]
      rfl
    · rw [(counterOf_startSlave hrange hserves.running c).2, hserves.counters c hc]
  · simp only [step, plainStep, Function.update_of_ne hself]
    exact h.slaves d hd

theorem step_agrees (hready : u.Ready S) (h : Agrees u S b t) (e : Event)
    (hok : Admitted P S u.slaveKeys t e) :
    (step P b e).1 = (plainStep t e).1 ∧ Agrees u S (step P b e).2 (plainStep t e).2 := by
  cases e with
  | request input listeners =>
    cases hbuild : modbusBuildRequest (asked input t.config).funcCode (asked input t.config).startAddr
        (asked input t.config).valueOrQty with
    | none =>
      have hplain : plainRequest (asked input t.config) t.tables = ({}, t.tables) := by
        simp only [plainRequest, hbuild]
      rw [plainStep, hplain]
      exact step_refused h hok.2.1 hbuild
    | some req => exact step_served hready h hok hbuild
  | noise rx listeners => exact heard_junk h hok
  | restartMaster => exact ⟨rfl, restartMaster_agrees h⟩
  | restartSlave a => exact ⟨rfl, restartSlave_agrees hready h hok⟩

theorem agrees_start (hready : u.Ready S) : Agrees u S u.start plainStart := by
  refine ⟨running_startMaster hready.reliable.1 hready.found.1, rfl, fun a ha => ?_⟩
  have hrange := hready.addresses a ha
  have hstart : u.start.slaves a = startSlave a (u.slaveArgv0 a) (u.slaveDisk a) := rfl
  have hfound : (startMaster (u.slaveArgv0 a) (u.slaveDisk a)).keysLoaded = true := by
    have hslave := hready.found.2 a ha
    rwa [hstart, startSlave_eq hrange] at hslave
  have hkeys : (startMaster (u.slaveArgv0 a) (u.slaveDisk a)).node.keyTable = u.slaveKeys a := by
    rw [Setup.slaveKeys, hstart, startSlave_eq hrange]
  have hrunning := running_startSlave hrange (hready.reliable.2 a ha) hfound
  rw [hkeys] at hrunning
  refine ⟨hrunning, ?_, ?_, ?_, hready.sameCounters a ha⟩
  · rw [hstart, startSlave_eq hrange]
  · rw [hstart, startSlave_eq hrange]
  · rw [hstart, startSlave_eq hrange]
    rfl

end Steps

/-- A bus of processes that are stopped and started at will answers like plain servers that
know neither keys nor counters, and only the slave that is asked opens or says anything. -/
theorem bus_transparent (P : Primitives) (u : Setup) (S : Set Byte) (hready : u.Ready S)
    (es : List Event)
    (hok : Always (fun t e => (plainStep t e).2) (Admitted P S u.slaveKeys) plainStart es) :
    answersOf (step P) u.start es = answersOf plainStep plainStart es ∧
      ∀ a ∈ S, ((run (fun b e => (step P b e).2) u.start es).slaves a).tables =
        (run (fun t e => (plainStep t e).2) plainStart es).tables a := by
  obtain ⟨hanswers, hlast⟩ := run_simulated (f := step P) (g := plainStep) (R := Agrees u S)
    (fun b t e h hok => step_agrees hready h e hok) (agrees_start hready) hok
  exact ⟨hanswers, fun a ha => (hlast.slaves a ha).tables⟩

/-! ### Two machines with one key file -/

section Demo

/-- The key of `keyText`, and one for the frames of slave 1 to the master. -/
def bothKeys : Bytes :=
  keyText ++ ascii ['1', ' ', 's', '2', 'm', ' ', '1', '2', '3', '4', '5', '6', '7', '8', '9', '0', '1',
    '2', '3', '4', '5', '6', ' ', 'a', 'b', 'c', 'd', 'e', 'f', 'g', 'h', 'i', 'j', 'k', 'l', 'm', 'n',
    'o', 'p', ' ', '0', '0', '0', '0', '0', '0', '0', '0', '\n']

def bothFiles : Bytes → Option Bytes := Function.update (fun _ => none) keysFile (some bothKeys)

def demoSetup : Setup := ⟨none, ⟨bothFiles, []⟩, fun _ => none, fun _ => ⟨bothFiles, []⟩⟩

def portInput : ConfigInput := ⟨some true, none, none, none, none⟩

theorem bothFiles_keysFile : bothFiles keysFile = some bothKeys := Function.update_self ..

/-- A key for each direction, and both counters at 0. -/
theorem doKeyInit_bothKeys {p : Process} (hd : p.node.disk.Reliable)
    (hfile : p.node.disk.files keysFile = some bothKeys) : ∃ k₀ k₁, doKeyInit p =
      { p with
        keysLoaded := true
        node := { p.node with
          keyTable := Function.update (Function.update p.node.keyTable (1, 0) ⟨true, k₀, 0⟩) (1, 1)
            ⟨true, k₁, 0⟩ } } := by
  obtain ⟨k₀, k₁, hentries⟩ : ∃ k₀ k₁, keyFileEntries bothKeys =
      [((1, 0), ⟨true, k₀, 0⟩), ((1, 1), ⟨true, k₁, 0⟩)] := ⟨_, _, rfl⟩
  refine ⟨k₀, k₁, ?_⟩
  have hfirst : keyStoreLoadFile p.node.keyTable (p.node.disk.files keysFile) = (some 2,
      Function.update (Function.update p.node.keyTable (1, 0) ⟨true, k₀, 0⟩) (1, 1)
        ⟨true, k₁, 0⟩) := by
    rw [hfile, keyStoreLoadFile, hentries]
    rfl
  have hcount : 0 < (keyStoreLoadFile p.node.keyTable (p.node.disk.files keysFile)).1.getD 0 := by
    rw [hfirst]
    exact Nat.two_pos
  have hload : demoLoadKeys p.argv0 p.node = (some 2, { p.node with
      keyTable := Function.update (Function.update p.node.keyTable (1, 0) ⟨true, k₀, 0⟩) (1, 1)
        ⟨true, k₁, 0⟩ }) := by
    rw [demoLoadKeys, keyPaths, List.cons_append, loadFirst_hit hd hcount, hfirst]
  rw [doKeyInit, hload]
  rfl

theorem demo_ready : demoSetup.Ready {1} := by
  obtain ⟨k₀, k₁, hstart⟩ : ∃ k₀ k₁, startMaster none ⟨bothFiles, []⟩ = _ :=
    doKeyInit_bothKeys (show (newProcess none ⟨bothFiles, []⟩).node.disk.Reliable from rfl)
      bothFiles_keysFile
  have hslave : demoSetup.start.slaves 1 = { startMaster none ⟨bothFiles, []⟩ with
      isMaster := false
      config := { startConfig with hasPort := true, slaveAddr := 1 } } :=
    startSlave_eq (by decide) _
  have hmaster : demoSetup.start.master = startMaster none ⟨bothFiles, []⟩ := rfl
  have hvalid : ∀ c, BusChannel 1 c →
      ((startMaster none ⟨bothFiles, []⟩).node.keyTable c).valid = true := by
    rw [hstart]
    rintro c (hc | hc)
    · obtain rfl : (1, 0) = c := Option.some.inj hc
      rfl
    · obtain rfl : (1, 1) = c := Option.some.inj hc
      rfl
  refine ⟨?_, ⟨rfl, fun _ _ => rfl⟩, ⟨?_, ?_⟩, ?_, ?_⟩
  · rintro a rfl
    decide
  · rw [hmaster, hstart]
  · rintro a rfl
    rw [hslave, hstart]
  · rintro a rfl c hc
    rw [hslave, hmaster]
    exact ⟨hvalid c hc, hvalid c hc, rfl⟩
  · rintro a rfl c -
    rw [hslave, hmaster, hstart, counterOf_fresh, counterOf_fresh] <;> rfl

/-- A write, both parties stopped and started again, something that nobody sent, a write. -/
theorem bus_transparent_restarts :
    let es := [.request portInput [1], .restartSlave 1, .noise [] [1], .restartMaster,
      .request portInput [1]]
    answersOf (step demoPrimitives) demoSetup.start es = answersOf plainStep plainStart es ∧
      ∀ a ∈ ({1} : Set Byte),
        ((run (fun b e => (step demoPrimitives b e).2) demoSetup.start es).slaves a).tables =
          (run (fun t e => (plainStep t e).2) plainStart es).tables a := by
  intro es
  refine bus_transparent demoPrimitives demoSetup {1} demo_ready es
    ⟨⟨by decide, ?_, rfl, ?_⟩, rfl, ?_, trivial, ⟨by decide, ?_, rfl, ?_⟩, trivial⟩
  · exact fun a ha => List.mem_singleton.mp ha
  · exact List.mem_singleton.mpr rfl
  · exact fun a ha => ⟨List.mem_singleton.mp ha, .inl rfl⟩
  · exact fun a ha => List.mem_singleton.mp ha
  · exact List.mem_singleton.mpr rfl

end Demo

end ModbusSecurity.MultidropBus
