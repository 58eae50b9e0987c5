import ModbusSecurity.SecureDemo
import ModbusSecurity.TransitionRuns

/-! # Secure exchanges against plain Modbus

A master and a slave run `run_as_master` and `run_as_slave` on one serial line that
delivers every frame whole and once. -/
namespace ModbusSecurity.TransparentExchange
open ByteStrings KeyStore CounterFile CounterState SecureFraming ModbusPdu SecureDemo TransitionRuns

structure Request where
  funcCode : Byte
  startAddr : Word
  valueOrQty : Word

structure Link where
  master : Node
  slave : Node
  tables : DataModel

def configFor (slave_addr : Byte) (r : Request) : Config :=
  ⟨true, slave_addr, r.funcCode, r.startAddr, r.valueOrQty⟩

/-- The slave's end of the line while `wire` is on it. -/
def slaveTurn (P : Primitives) (config : Config) (l : Link) (wire : Bytes) :
    Exchange × Node × DataModel :=
  runAsSlave P config ⟨true, true, fun _ => some wire⟩ l.slave l.tables

/-- The master's and the slave's part of one exchange; a slave that is sent nothing waits on. -/
def exchange (P : Primitives) (slave_addr : Byte) (l : Link) (r : Request) :
    Exchange × Exchange × Link :=
  let config := configFor slave_addr r
  let line := ⟨true, true, fun wire => some (slaveTurn P config l wire).1.written⟩
  let (em, master) := runAsMaster P config line l.master
  if em.written = [] then (em, {}, { l with master := master })
  else
    let (es, slave, tables) := slaveTurn P config l em.written
    (em, es, ⟨master, slave, tables⟩)

/-- The same request without any security layer. -/
def plainExchange (tables : DataModel) (r : Request) : Option Bytes × DataModel :=
  match modbusBuildRequest r.funcCode r.startAddr r.valueOrQty with
  | none => (none, tables)
  | some req => modbusBuildResponse tables req

/-- A frame that arrives and is opened to `pdu`. -/
def Recovers (received : Option VerifyResult) (pdu : Bytes) : Prop :=
  ∃ r, received = some r ∧ r.status = .ok ∧ r.outPdu = some pdu ∧ r.outPduLen = some pdu.length

/-- The exchange carries the plain one, and the counters of both channels stay together. -/
structure Transparent (P : Primitives) (slave_addr : Byte) (m2s s2m : Channel) (l : Link)
    (r : Request) : Prop where
  refused : modbusBuildRequest r.funcCode r.startAddr r.valueOrQty = none →
    exchange P slave_addr l r = ({}, {}, l)
  served : ∀ req, modbusBuildRequest r.funcCode r.startAddr r.valueOrQty = some req →
    ∃ reply, (modbusBuildResponse l.tables req).1 = some reply ∧
      Recovers (exchange P slave_addr l r).2.1.received req ∧
      Recovers (exchange P slave_addr l r).1.received reply ∧
      (exchange P slave_addr l r).1.written.length ≤ maxWireLen ∧
      (exchange P slave_addr l r).2.1.written.length ≤ maxWireLen ∧
      ∀ c, c = m2s ∨ c = s2m → ((exchange P slave_addr l r).2.2.master.ctrTable c).nextOut =
        ((exchange P slave_addr l r).2.2.slave.ctrTable c).nextOut
  tables : (exchange P slave_addr l r).2.2.tables = (plainExchange l.tables r).2
  counters : InStep (exchange P slave_addr l r).2.2.master (exchange P slave_addr l r).2.2.slave m2s ∧
    InStep (exchange P slave_addr l r).2.2.master (exchange P slave_addr l r).2.2.slave s2m

/-- What both ends share between exchanges. -/
structure Synchronized (m2s s2m : Channel) (l : Link) : Prop where
  keys : ∀ c, c = m2s ∨ c = s2m → SameKey l.master l.slave c
  counters : ∀ c, c = m2s ∨ c = s2m → InStep l.master l.slave c

section Sides
variable {P : Primitives} {config : Config} {m2s s2m : Channel}

theorem wire_length (keys : DirectionalKeys) (addr : Byte) (ctr : BitVec 32) {pdu : Bytes}
    (h : pdu.length ≤ maxPdu) :
    (secureFrameBuild (sealFrame P keys addr ctr pdu)).length ≤ maxWireLen ∧
      secureFrameBuild (sealFrame P keys addr ctr pdu) ≠ [] := by
  refine ⟨?_, by simp [secureFrameBuild]⟩
  simp only [maxPdu] at h
  simp only [length_build_sealFrame, maxWireLen, maxAdu, addrLen, maxPdu, crcLen, hmacLen]
  omega

/-- The decoder at the counter of an honest frame. -/
theorem opens_frame {n : Node} {addr : Byte} {dir : KeyDirection} {c : Channel} {pdu : Bytes}
    (hlen : pdu.length ≤ maxPdu) (hc : channelIndex addr dir = some c)
    (hkey : (n.keyTable c).valid = true) :
    ∃ r, secureFrameVerifyAndDecrypt P n
        (secureFrameBuild (sealFrame P (n.keyTable c).keys addr (nextValue n c) pdu)) addr dir =
          (r, storeEntry n c (reserve (n.ctrTable c) (nextValue n c) (pdu.length + 3))) ∧
      r.status = .ok ∧ r.outAddr = some addr ∧ r.outPdu = some pdu ∧
      r.outPduLen = some pdu.length := by
  obtain ⟨hok, haddr, hpdu, hpdulen, hnode⟩ :=
    verify_sealFrame (P := P) hlen hc hkey (.inl (rfl : addr = addr))
  exact ⟨_, Prod.ext rfl hnode, hok, haddr, hpdu, hpdulen⟩

/-- A whole frame on an open port goes to `process_incoming_frame`. -/
theorem runAsSlave_frame (n : Node) (tables : DataModel) {wire : Bytes}
    (hport : config.hasPort = true) (hne : wire ≠ []) (hle : wire.length ≤ maxWireLen) :
    runAsSlave P config ⟨true, true, fun _ => some wire⟩ n tables =
      processIncomingFrame P config (some ⟨true, true, fun _ => some wire⟩) wire n tables := by
  obtain ⟨b, bs, rfl⟩ := List.exists_cons_of_ne_nil hne
  have hread : serialPortRead ⟨true, true, fun _ => some (b :: bs)⟩ [] = some (b :: bs) := by
    rw [serialPortRead, Option.map_some, List.take_of_length_le hle]
  simp [runAsSlave, hport, hread]

theorem processIncomingFrame_ok {port : SerialPort} {rx pdu reply : Bytes} {n n₁ n₂ : Node}
    {tables tables' : DataModel} {r : VerifyResult} {sent : BuildResult}
    (hv : secureFrameVerifyAndDecrypt P n rx config.slaveAddr .masterToSlave = (r, n₁))
    (hok : r.status = .ok) (haddr : r.outAddr = some config.slaveAddr) (hpdu : r.outPdu = some pdu)
    (hresp : modbusBuildResponse tables pdu = (some reply, tables'))
    (hsend : secureFrameEncryptAndBuild P n₁ config.slaveAddr reply .slaveToMaster =
      (some sent, n₂)) :
    processIncomingFrame P config (some port) rx n tables =
      ({ sent := some ⟨config.slaveAddr, .slaveToMaster, sent⟩
         written := if port.writes then sent.wire else []
         received := some r }, n₂, tables') := by
  simp only [processIncomingFrame, hv, hok, haddr, hpdu, hresp, hsend]

theorem channels_ne {slave_addr : Byte} (hm : channelIndex slave_addr .masterToSlave = some m2s)
    (hs : channelIndex slave_addr .slaveToMaster = some s2m) : s2m ≠ m2s := by
  rintro rfl
  cases (channelIndex_injective hm hs).2

/-- A slave that is at the frame's counter answers it under its own s2m counter. -/
theorem slaveTurn_eq (config : Config) (l : Link) {req : Bytes}
    (hm : channelIndex config.slaveAddr .masterToSlave = some m2s)
    (hs : channelIndex config.slaveAddr .slaveToMaster = some s2m) (hport : config.hasPort = true)
    (hkm : (l.slave.keyTable m2s).valid = true) (hks : (l.slave.keyTable s2m).valid = true)
    (hne : req ≠ []) (hlen : req.length ≤ maxPdu) :
    let wire := secureFrameBuild
      (sealFrame P (l.slave.keyTable m2s).keys config.slaveAddr (nextValue l.slave m2s) req)
    let t := slaveTurn P config l wire
    let opened := storeEntry l.slave m2s
      (reserve (l.slave.ctrTable m2s) (nextValue l.slave m2s) (req.length + 3))
    ∃ reply, (modbusBuildResponse l.tables req).1 = some reply ∧ reply.length ≤ maxPdu ∧
      Recovers t.1.received req ∧
      t.1.written = secureFrameBuild
        (sealFrame P (l.slave.keyTable s2m).keys config.slaveAddr (nextValue l.slave s2m) reply) ∧
      t.2.1 = storeEntry opened s2m
        (reserve (l.slave.ctrTable s2m) (nextValue l.slave s2m) (reply.length + 3)) ∧
      t.2.2 = (modbusBuildResponse l.tables req).2 := by
  intro wire t opened
  obtain ⟨func, rest, rfl⟩ := List.exists_cons_of_ne_nil hne
  obtain ⟨reply, hreply, hlo, hhi⟩ := modbusBuildResponse_cons l.tables func rest
  have hfit : reply.length ≤ maxPdu := by simp only [maxPdu]; omega
  have hsm := channels_ne hm hs
  obtain ⟨r, hopen, hok, haddr, hpdu, hpdulen⟩ := opens_frame (P := P) hlen hm hkm
  have hsend := secureFrameEncryptAndBuild_eq (P := P) (n := opened) hfit hs hks
  have hresp : modbusBuildResponse l.tables (func :: rest) =
      (some reply, (modbusBuildResponse l.tables (func :: rest)).2) := by
    rw [← hreply]
  obtain ⟨hwire, hnonempty⟩ := wire_length (P := P) (l.slave.keyTable m2s).keys config.slaveAddr
    (nextValue l.slave m2s) hlen
  have hturn := runAsSlave_frame (P := P) l.slave l.tables hport hnonempty hwire
  rw [processIncomingFrame_ok hopen hok haddr hpdu hresp hsend] at hturn
  have hnext : nextValue opened s2m = nextValue l.slave s2m := nextValue_storeEntry_ne _ hsm _
  have hentry : opened.ctrTable s2m = l.slave.ctrTable s2m := by
    simp [opened, Function.update_of_ne hsm]
  refine ⟨reply, hreply, hfit, ?_, ?_, ?_, ?_⟩
  · exact ⟨r, by rw [show t = _ from hturn], hok, hpdu, hpdulen⟩
  · rw [show t = _ from hturn, ← hnext]
    rfl
  · rw [show t = _ from hturn, ← hnext, ← hentry]
  · rw [show t = _ from hturn]

theorem runAsMaster_frame {port : SerialPort} {n n₁ n₂ : Node} {req rx : Bytes} {result : BuildResult}
    {v : VerifyResult} (hport : config.hasPort = true)
    (hbuild : modbusBuildRequest config.funcCode config.startAddr config.valueOrQty = some req)
    (hsend : secureFrameEncryptAndBuild P n config.slaveAddr req .masterToSlave = (some result, n₁))
    (hopens : port.opens = true) (hwrites : port.writes = true)
    (hread : serialPortRead port result.wire = some rx) (hne : rx ≠ [])
    (hv : secureFrameVerifyAndDecrypt P n₁ rx config.slaveAddr .slaveToMaster = (v, n₂)) :
    runAsMaster P config port n =
      ({ sent := some ⟨config.slaveAddr, .masterToSlave, result⟩, written := result.wire
         received := some v }, n₂) := by
  obtain ⟨b, bs, rfl⟩ := List.exists_cons_of_ne_nil hne
  simp [runAsMaster, hbuild, hsend, hport, hopens, hwrites, hread, hv]

/-- A master whose line answers with the frame at its s2m counter opens the reply. -/
theorem runAsMaster_eq (config : Config) (line : SerialPort) {n : Node} {req reply : Bytes}
    (hm : channelIndex config.slaveAddr .masterToSlave = some m2s)
    (hs : channelIndex config.slaveAddr .slaveToMaster = some s2m) (hport : config.hasPort = true)
    (hkm : (n.keyTable m2s).valid = true) (hks : (n.keyTable s2m).valid = true)
    (hbuild : modbusBuildRequest config.funcCode config.startAddr config.valueOrQty = some req)
    (hlen : req.length ≤ maxPdu) (hfit : reply.length ≤ maxPdu)
    (hopens : line.opens = true) (hwrites : line.writes = true) :
    let wire := secureFrameBuild
      (sealFrame P (n.keyTable m2s).keys config.slaveAddr (nextValue n m2s) req)
    let sent := storeEntry n m2s (reserve (n.ctrTable m2s) (nextValue n m2s) (req.length + 3))
    line.reads wire = some (secureFrameBuild
      (sealFrame P (n.keyTable s2m).keys config.slaveAddr (nextValue n s2m) reply)) →
    let r := runAsMaster P config line n
    r.1.written = wire ∧ Recovers r.1.received reply ∧
      r.2 = storeEntry sent s2m
        (reserve (n.ctrTable s2m) (nextValue n s2m) (reply.length + 3)) := by
  intro wire sent hline r
  have hsm := channels_ne hm hs
  have hsend := secureFrameEncryptAndBuild_eq (P := P) (n := n) hlen hm hkm
  have hnext : nextValue sent s2m = nextValue n s2m := nextValue_storeEntry_ne _ hsm _
  have hentry : sent.ctrTable s2m = n.ctrTable s2m := by simp [sent, Function.update_of_ne hsm]
  obtain ⟨v, hopen, hok, haddr, hpdu, hpdulen⟩ :=
    opens_frame (P := P) (n := sent) hfit hs (show (sent.keyTable s2m).valid = true from hks)
  obtain ⟨hle, hne⟩ := wire_length (P := P) (n.keyTable s2m).keys config.slaveAddr
    (nextValue n s2m) hfit
  have hread : serialPortRead line wire = some (secureFrameBuild
      (sealFrame P (n.keyTable s2m).keys config.slaveAddr (nextValue n s2m) reply)) := by
    rw [serialPortRead, hline, Option.map_some, List.take_of_length_le hle]
  rw [hnext, hentry, show sent.keyTable = n.keyTable from rfl] at hopen
  have hrun : r = _ := runAsMaster_frame hport hbuild hsend hopens hwrites hread hne hopen
  rw [hrun]
  exact ⟨rfl, ⟨v, rfl, hok, hpdu, hpdulen⟩, rfl⟩

end Sides

section Exchanges
variable {P : Primitives} {slave_addr : Byte} {m2s s2m : Channel}

/-- A node after one exchange: both channels have taken the blocks of their frame. -/
def afterExchange (n : Node) (m2s s2m : Channel) (req reply : Bytes) : Node :=
  storeEntry (storeEntry n m2s (reserve (n.ctrTable m2s) (nextValue n m2s) (req.length + 3))) s2m
    (reserve (n.ctrTable s2m) (nextValue n s2m) (reply.length + 3))

theorem afterExchange_entry (n : Node) (hne : s2m ≠ m2s) (req reply : Bytes) {c : Channel}
    (hc : c = m2s ∨ c = s2m) : ∃ len, len = (if c = m2s then req else reply).length + 3 ∧
      (afterExchange n m2s s2m req reply).ctrTable c = reserve (n.ctrTable c) (nextValue n c) len := by
  rcases hc with rfl | rfl
  · exact ⟨_, by rw [if_pos rfl], by simp [afterExchange, Function.update_of_ne hne.symm]⟩
  · exact ⟨_, by rw [if_neg hne], by simp [afterExchange]⟩

theorem exchange_written {l : Link} {r : Request} {wire : Bytes} (hne : wire ≠ []) :
    let config := configFor slave_addr r
    let t := runAsMaster P config
      ⟨true, true, fun wire => some (slaveTurn P config l wire).1.written⟩ l.master
    t.1.written = wire → exchange P slave_addr l r =
      (t.1, (slaveTurn P config l wire).1,
        ⟨t.2, (slaveTurn P config l wire).2.1, (slaveTurn P config l wire).2.2⟩) := by
  intro config t hwritten
  have hsent : t.1.written ≠ [] := hwritten ▸ hne
  rw [← hwritten]
  exact if_neg hsent

theorem exchange_served (hm : channelIndex slave_addr .masterToSlave = some m2s)
    (hs : channelIndex slave_addr .slaveToMaster = some s2m) {l : Link}
    (h : Synchronized m2s s2m l) {r : Request} {req : Bytes}
    (hbuild : modbusBuildRequest r.funcCode r.startAddr r.valueOrQty = some req) :
    ∃ reply, (modbusBuildResponse l.tables req).1 = some reply ∧
      Recovers (exchange P slave_addr l r).2.1.received req ∧
      Recovers (exchange P slave_addr l r).1.received reply ∧
      (exchange P slave_addr l r).1.written.length ≤ maxWireLen ∧
      (exchange P slave_addr l r).2.1.written.length ≤ maxWireLen ∧
      (exchange P slave_addr l r).2.2 = ⟨afterExchange l.master m2s s2m req reply,
        afterExchange l.slave m2s s2m req reply, (modbusBuildResponse l.tables req).2⟩ := by
  obtain ⟨hkm, hkm', hkeym⟩ := h.keys m2s (.inl rfl)
  obtain ⟨hks, hks', hkeys⟩ := h.keys s2m (.inr rfl)
  have hvm := nextValue_of_inStep (h.keys m2s (.inl rfl)) (h.counters m2s (.inl rfl))
  have hvs := nextValue_of_inStep (h.keys s2m (.inr rfl)) (h.counters s2m (.inr rfl))
  obtain ⟨hlo, hhi⟩ := length_modbusBuildRequest hbuild
  have hlen : req.length ≤ maxPdu := by simp only [maxPdu]; omega
  have hne : req ≠ [] := by rintro rfl; simp at hlo
  obtain ⟨reply, hreply, hfit, hslave, hwritten, hnode, htables⟩ :=
    slaveTurn_eq (P := P) (configFor slave_addr r) l hm hs rfl hkm' hks' hne hlen
  have hmaster := runAsMaster_eq (P := P) (configFor slave_addr r)
    ⟨true, true, fun wire => some (slaveTurn P (configFor slave_addr r) l wire).1.written⟩
    hm hs rfl hkm hks hbuild hlen hfit rfl rfl
  rw [← hkeym, ← hvm] at hslave hwritten hnode htables
  rw [← hkeys, ← hvs] at hwritten
  obtain ⟨hsent, hrecovered, hmnode⟩ := hmaster (congrArg some hwritten)
  obtain ⟨hwire, hnonempty⟩ := wire_length (P := P) (l.master.keyTable m2s).keys slave_addr
    (nextValue l.master m2s) hlen
  obtain ⟨hwire', -⟩ := wire_length (P := P) (l.master.keyTable s2m).keys slave_addr
    (nextValue l.master s2m) hfit
  refine ⟨reply, hreply, ?_⟩
  rw [exchange_written hnonempty hsent]
  refine ⟨hslave, hrecovered, hsent ▸ hwire, hwritten ▸ hwire', ?_⟩
  rw [Link.mk.injEq]
  refine ⟨hmnode, ?_, htables⟩
  rw [afterExchange, ← hvm]
  exact hnode

theorem exchange_refused {l : Link} {r : Request}
    (hbuild : modbusBuildRequest r.funcCode r.startAddr r.valueOrQty = none) :
    exchange P slave_addr l r = ({}, {}, l) := by
  have hrun : ∀ line, runAsMaster P (configFor slave_addr r) line l.master = ({}, l.master) := by
    intro line
    simp [runAsMaster, configFor, hbuild]
  simp [exchange, hrun]

theorem afterExchange_synchronized {m s : Node} (hne : s2m ≠ m2s)
    (hkeys : ∀ c, c = m2s ∨ c = s2m → SameKey m s c)
    (hctr : ∀ c, c = m2s ∨ c = s2m → InStep m s c) (req reply : Bytes) {c : Channel}
    (hc : c = m2s ∨ c = s2m) :
    let m' := afterExchange m m2s s2m req reply
    let s' := afterExchange s m2s s2m req reply
    InStep m' s' c ∧ (m'.ctrTable c).nextOut = (s'.ctrTable c).nextOut := by
  intro m' s'
  obtain ⟨len, hlen, hm⟩ := afterExchange_entry m hne req reply hc
  obtain ⟨len', hlen', hs⟩ := afterExchange_entry s hne req reply hc
  obtain rfl : len = len' := hlen.trans hlen'.symm
  have hnext : (m'.ctrTable c).nextOut = (s'.ctrTable c).nextOut := by
    rw [hm, hs]
    simp only [reserve, nextValue_of_inStep (hkeys c hc) (hctr c hc)]
  refine ⟨.inl ⟨?_, ?_, hnext⟩, hnext⟩
  · rw [hm]
    exact reserve_validOut_ne_zero _ _ _
  · rw [hs]
    exact reserve_validOut_ne_zero _ _ _

theorem exchange_synchronized (hm : channelIndex slave_addr .masterToSlave = some m2s)
    (hs : channelIndex slave_addr .slaveToMaster = some s2m) {l : Link}
    (h : Synchronized m2s s2m l) (r : Request) :
    Synchronized m2s s2m (exchange P slave_addr l r).2.2 := by
  cases hbuild : modbusBuildRequest r.funcCode r.startAddr r.valueOrQty with
  | none =>
    rw [exchange_refused hbuild]
    exact h
  | some req =>
    obtain ⟨reply, -, -, -, -, -, hl⟩ := exchange_served (P := P) hm hs h hbuild
    rw [hl]
    exact ⟨h.keys, fun c hc =>
      (afterExchange_synchronized (channels_ne hm hs) h.keys h.counters req reply hc).1⟩

theorem exchange_transparent (hm : channelIndex slave_addr .masterToSlave = some m2s)
    (hs : channelIndex slave_addr .slaveToMaster = some s2m) {l : Link}
    (h : Synchronized m2s s2m l) (r : Request) : Transparent P slave_addr m2s s2m l r := by
  have hsync := exchange_synchronized (P := P) hm hs h r
  refine ⟨exchange_refused, fun req hbuild => ?_, ?_,
    hsync.counters m2s (.inl rfl), hsync.counters s2m (.inr rfl)⟩
  · obtain ⟨reply, hreply, hslave, hmaster, hwire, hwire', hl⟩ :=
      exchange_served (P := P) hm hs h hbuild
    refine ⟨reply, hreply, hslave, hmaster, hwire, hwire', fun c hc => ?_⟩
    rw [hl]
    exact (afterExchange_synchronized (channels_ne hm hs) h.keys h.counters req reply hc).2
  · cases hbuild : modbusBuildRequest r.funcCode r.startAddr r.valueOrQty with
    | none => rw [exchange_refused hbuild, plainExchange, hbuild]
    | some req =>
      obtain ⟨reply, -, -, -, -, -, hl⟩ := exchange_served (P := P) hm hs h hbuild
      rw [hl, plainExchange, hbuild]

end Exchanges

/-- Every run of exchanges is the plain run, seen through the security layer. -/
theorem secure_exchange_transparent (P : Primitives) (slave_addr : Byte) (m2s s2m : Channel)
    (hm : channelIndex slave_addr .masterToSlave = some m2s)
    (hs : channelIndex slave_addr .slaveToMaster = some s2m) (l : Link)
    (hkeys : ∀ c, c = m2s ∨ c = s2m → SameKey l.master l.slave c)
    (hctr : ∀ c, c = m2s ∨ c = s2m → InStep l.master l.slave c) (requests : List Request) :
    (run (fun l r => (exchange P slave_addr l r).2.2) l requests).tables =
        run (fun tables r => (plainExchange tables r).2) l.tables requests ∧
      Always (fun l r => (exchange P slave_addr l r).2.2) (Transparent P slave_addr m2s s2m) l
        requests := by
  have hstart : Synchronized m2s s2m l := ⟨hkeys, hctr⟩
  clear hkeys hctr
  induction requests generalizing l with
  | nil => exact ⟨rfl, trivial⟩
  | cons r rs ih =>
    have hstep := exchange_transparent (P := P) hm hs hstart r
    obtain ⟨htables, hrest⟩ := ih _ (exchange_synchronized (P := P) hm hs hstart r)
    refine ⟨?_, hstep, hrest⟩
    rw [run_cons, htables, hstep.tables, run_cons]

/-- A write to two registers, then their read. -/
theorem secure_exchange_transparent_write_read :
    let P := leaPrimitives fun _ _ => ⟨List.replicate 32 0, rfl⟩
    let node : Node := { startProcess ⟨fun _ => none, []⟩ with
      keyTable := fun _ => ⟨true, ⟨zeroKey, zeroKey⟩, 0⟩ }
    Always (fun l r => (exchange P 1 l r).2.2) (Transparent P 1 (1, 0) (1, 1))
      ⟨node, node, staticDataModel⟩
      [⟨funcWriteMultipleRegisters, 1, 2⟩, ⟨funcReadHoldingRegisters, 1, 2⟩] := by
  intro P node
  exact (secure_exchange_transparent P 1 (1, 0) (1, 1) rfl rfl ⟨node, node, staticDataModel⟩
    (fun _ _ => ⟨rfl, rfl, rfl⟩) (fun _ _ => .inr ⟨rfl, rfl, rfl⟩) _).2
end ModbusSecurity.TransparentExchange
