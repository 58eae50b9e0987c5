import ModbusSecurity.ModeSeparation

/-! # Requests that never reach the line

A master makes one attempt after another. Its port may fail to open, and the line delivers
every frame that is written to it. -/
namespace ModbusSecurity.UnsentRequests
open ByteStrings CounterMode LeaOnline KeyStore CounterFile CounterState CounterRecords SecureFraming
  FrameRejection ModbusPdu SecureDemo TransparentExchange ExchangeEffects ModeSeparation
  TransitionRuns

/-- One call of `run_as_master`: what it requests, whether its port opens, and what the port
brings once the request is written. -/
structure Attempt where
  request : Request
  opens : Bool
  reads : Bytes → Option Bytes

/-- The master's and the slave's part of an attempt. -/
def attempt (P : Primitives) (slave_addr : Byte) (l : Link) (a : Attempt) :
    Exchange × Exchange × Link :=
  let config := configFor slave_addr a.request
  let (em, master) := runAsMaster P config ⟨a.opens, true, a.reads⟩ l.master
  if em.written = [] then (em, {}, { l with master := master })
  else
    let (es, slave, tables) := slaveTurn P config l em.written
    (em, es, ⟨master, slave, tables⟩)

def step (P : Primitives) (slave_addr : Byte) (l : Link) (a : Attempt) : Link :=
  (attempt P slave_addr l a).2.2

/-- A written request is accepted, and without one the m2s counter is as it was, in memory
and on file. -/
structure Unbroken (P : Primitives) (slave_addr : Byte) (m2s : Channel) (l : Link) (a : Attempt) :
    Prop where
  accepted : (attempt P slave_addr l a).1.written ≠ [] →
    ∃ r, (attempt P slave_addr l a).2.1.received = some r ∧ r.status = .ok
  kept : (attempt P slave_addr l a).1.written = [] →
    (step P slave_addr l a).master.ctrTable m2s = l.master.ctrTable m2s ∧
    recorded (step P slave_addr l a).master.disk (step P slave_addr l a).master.statePath m2s =
      recorded l.master.disk l.master.statePath m2s

/-- The law for every run from counters in step. -/
def LinkSurvives (P : Primitives) : Prop :=
  ∀ slave_addr m2s l, channelIndex slave_addr .masterToSlave = some m2s →
    SameKey l.master l.slave m2s → InStep l.master l.slave m2s →
    ∀ as, Always (step P slave_addr) (Unbroken P slave_addr m2s) l as

section OtherChannels
variable {P : Primitives} {n : Node} {dir : KeyDirection} {di : Fin 3} {d : Channel}

/-- Channels of two directions differ. -/
theorem channel_ne {addr : Byte} {c : Channel} (hdir : keyDirectionIndex dir = some di)
    (hd : d.2 ≠ di) (hc : channelIndex addr dir = some c) : d ≠ c := by
  rintro rfl
  exact hd (direction_of_channelIndex hc hdir)

theorem outgoing_ne_reply {addr : Byte} (hc : channelIndex addr .masterToSlave = some d) :
    d.2 ≠ 1 := by
  rw [direction_of_channelIndex hc (rfl : keyDirectionIndex .masterToSlave = some 0)]
  decide

theorem verify_other (hdir : keyDirectionIndex dir = some di) (hd : d.2 ≠ di) (wire : Bytes)
    (expected_addr : Byte) :
    (secureFrameVerifyAndDecrypt P n wire expected_addr dir).2.keyTable = n.keyTable ∧
      (secureFrameVerifyAndDecrypt P n wire expected_addr dir).2.ctrTable d = n.ctrTable d := by
  rcases verify_cases P n wire expected_addr dir with ⟨-, -, hn⟩ | ⟨frame, c, -, hc, -, -, -, hn⟩
  · rw [hn]
    exact ⟨rfl, rfl⟩
  · have hne : d ≠ c := channel_ne hdir hd hc
    rw [hn]
    exact ⟨rfl, Function.update_of_ne hne _ _⟩

theorem encrypt_other (hdir : keyDirectionIndex dir = some di) (hd : d.2 ≠ di) (addr : Byte)
    (pdu : Bytes) :
    (secureFrameEncryptAndBuild P n addr pdu dir).2.keyTable = n.keyTable ∧
      (secureFrameEncryptAndBuild P n addr pdu dir).2.ctrTable d = n.ctrTable d := by
  rcases secureFrameEncryptAndBuild_cases P n addr pdu dir with hn | ⟨hlen, c, hc, hkey⟩
  · rw [hn]
    exact ⟨rfl, rfl⟩
  · have hne : d ≠ c := channel_ne hdir hd hc
    rw [secureFrameEncryptAndBuild_eq hlen hc hkey]
    exact ⟨rfl, Function.update_of_ne hne _ _⟩

/-- What a slave sends back leaves the incoming channel where the frame left it. -/
theorem processIncomingFrame_other (config : Config) (port : Option SerialPort) (rx : Bytes)
    (tables : DataModel) (hd : d.2 ≠ 1) :
    let opened := (secureFrameVerifyAndDecrypt P n rx config.slaveAddr .masterToSlave).2
    (processIncomingFrame P config port rx n tables).2.1.keyTable = opened.keyTable ∧
      (processIncomingFrame P config port rx n tables).2.1.ctrTable d = opened.ctrTable d := by
  have hdir : keyDirectionIndex .slaveToMaster = some 1 := rfl
  unfold processIncomingFrame
  simp only
  split
  · rename_i addr pdu sp _ _ _
    split
    · exact ⟨rfl, rfl⟩
    · rename_i reply tables' _
      have hsent := encrypt_other (P := P) (n := (secureFrameVerifyAndDecrypt P n rx config.slaveAddr
        .masterToSlave).2) hdir hd addr reply
      split
      · rename_i hfail
        rw [hfail] at hsent
        exact hsent
      · rename_i hsend
        rw [hsend] at hsent
        exact hsent
  · exact ⟨rfl, rfl⟩

end OtherChannels

section Attempts
variable {P : Primitives} {slave_addr : Byte} {m2s : Channel} {l : Link} {a : Attempt}

theorem attempt_refused
    (hbuild : modbusBuildRequest a.request.funcCode a.request.startAddr a.request.valueOrQty = none) :
    attempt P slave_addr l a = ({}, {}, l) := by
  simp [attempt, runAsMaster, configFor, hbuild]

/-- The master's node once the request is encrypted. -/
def encrypted (n : Node) (m2s : Channel) (req : Bytes) : Node :=
  storeEntry n m2s (reserve (n.ctrTable m2s) (nextValue n m2s) (req.length + 3))

theorem attempt_unopened (hm : channelIndex slave_addr .masterToSlave = some m2s)
    (hkey : (l.master.keyTable m2s).valid = true) {req : Bytes} (hlen : req.length ≤ maxPdu)
    (hbuild : modbusBuildRequest a.request.funcCode a.request.startAddr a.request.valueOrQty =
      some req) (hopens : a.opens = false) :
    (attempt P slave_addr l a).1.written = [] ∧
      step P slave_addr l a = { l with master := encrypted l.master m2s req } := by
  have hsend := secureFrameEncryptAndBuild_eq (P := P) (n := l.master) hlen hm hkey
  simp [step, attempt, runAsMaster, configFor, hbuild, hsend, hopens, encrypted]

theorem runAsMaster_opened (request : Request) (port : SerialPort) {n : Node}
    (hm : channelIndex slave_addr .masterToSlave = some m2s)
    (hopens : port.opens = true) (hwrites : port.writes = true)
    (hkey : (n.keyTable m2s).valid = true) {req : Bytes} (hlen : req.length ≤ maxPdu)
    (hbuild : modbusBuildRequest request.funcCode request.startAddr request.valueOrQty = some req) :
    let r := runAsMaster P (configFor slave_addr request) port n
    r.1.written = secureFrameBuild
      (sealFrame P (n.keyTable m2s).keys slave_addr (nextValue n m2s) req) ∧
    r.2.keyTable = n.keyTable ∧ r.2.ctrTable m2s = (encrypted n m2s req).ctrTable m2s := by
  intro r
  have hsend := secureFrameEncryptAndBuild_eq (P := P) (n := n) hlen hm hkey
  have hdirection : m2s.2 ≠ 1 := outgoing_ne_reply hm
  simp only [r, runAsMaster, configFor, hbuild, hsend, hopens, hwrites, Bool.not_true,
    Bool.false_eq_true, if_false, Bool.or_self]
  split
  · exact ⟨rfl, rfl, rfl⟩
  · exact ⟨rfl, rfl, rfl⟩
  · exact ⟨rfl, verify_other (P := P) (show keyDirectionIndex .slaveToMaster = some 1 from rfl)
      hdirection _ slave_addr⟩

/-- A slave at the counter of the frame accepts it, whether or not its reply leaves. -/
theorem slaveTurn_accepts (request : Request) (l : Link) {req : Bytes}
    (hm : channelIndex slave_addr .masterToSlave = some m2s)
    (hkey : (l.slave.keyTable m2s).valid = true) (hlen : req.length ≤ maxPdu) :
    let t := slaveTurn P (configFor slave_addr request) l (secureFrameBuild
      (sealFrame P (l.slave.keyTable m2s).keys slave_addr (nextValue l.slave m2s) req))
    (∃ r, t.1.received = some r ∧ r.status = .ok) ∧
    t.2.1.keyTable = l.slave.keyTable ∧ t.2.1.ctrTable m2s = (encrypted l.slave m2s req).ctrTable m2s := by
  intro t
  have hdirection : m2s.2 ≠ 1 := outgoing_ne_reply hm
  obtain ⟨hwire, hne⟩ := wire_length (P := P) (l.slave.keyTable m2s).keys slave_addr
    (nextValue l.slave m2s) hlen
  obtain ⟨r, hopen, hok, -, -, -⟩ := opens_frame (P := P) hlen hm hkey
  have hturn : t = _ := runAsSlave_frame (P := P) l.slave l.tables rfl hne hwire
  have hother := processIncomingFrame_other (P := P) (n := l.slave)
    (configFor slave_addr request)
    (some ⟨true, true, fun _ => some (secureFrameBuild (sealFrame P (l.slave.keyTable m2s).keys
      slave_addr (nextValue l.slave m2s) req))⟩)
    (secureFrameBuild (sealFrame P (l.slave.keyTable m2s).keys slave_addr
      (nextValue l.slave m2s) req)) l.tables hdirection
  rw [show (configFor slave_addr request).slaveAddr = slave_addr from rfl, hopen] at hother
  rw [hturn, processIncomingFrame_received,
    show (configFor slave_addr request).slaveAddr = slave_addr from rfl, hopen]
  exact ⟨⟨r, rfl, hok⟩, hother⟩

theorem attempt_eq {wire : Bytes} (hne : wire ≠ []) :
    let config := configFor slave_addr a.request
    let t := runAsMaster P config ⟨a.opens, true, a.reads⟩ l.master
    t.1.written = wire → attempt P slave_addr l a =
      (t.1, (slaveTurn P config l wire).1,
        ⟨t.2, (slaveTurn P config l wire).2.1, (slaveTurn P config l wire).2.2⟩) := by
  intro config t hwritten
  have hsent : t.1.written ≠ [] := hwritten ▸ hne
  rw [← hwritten]
  exact if_neg hsent

/-- With the counters in step a written request is accepted, and both ends have taken its
blocks. -/
theorem attempt_written (hm : channelIndex slave_addr .masterToSlave = some m2s)
    (hkeys : SameKey l.master l.slave m2s) (hctr : InStep l.master l.slave m2s) {req : Bytes}
    (hlen : req.length ≤ maxPdu)
    (hbuild : modbusBuildRequest a.request.funcCode a.request.startAddr a.request.valueOrQty =
      some req) (hopens : a.opens = true) :
    (attempt P slave_addr l a).1.written ≠ [] ∧
    (∃ r, (attempt P slave_addr l a).2.1.received = some r ∧ r.status = .ok) ∧
    SameKey (step P slave_addr l a).master (step P slave_addr l a).slave m2s ∧
    InStep (step P slave_addr l a).master (step P slave_addr l a).slave m2s := by
  obtain ⟨hkm, hks, hsame⟩ := hkeys
  have hnext := nextValue_of_inStep ⟨hkm, hks, hsame⟩ hctr
  obtain ⟨hwritten, hmkeys, hmctr⟩ := runAsMaster_opened (P := P) a.request
    ⟨a.opens, true, a.reads⟩ (n := l.master) hm hopens rfl hkm hlen hbuild
  rw [hsame, hnext] at hwritten
  obtain ⟨-, hne⟩ := wire_length (P := P) (l.slave.keyTable m2s).keys slave_addr
    (nextValue l.slave m2s) hlen
  obtain ⟨hok, hskeys, hsctr⟩ := slaveTurn_accepts (P := P) a.request l hm hks hlen
  rw [step, attempt_eq hne hwritten]
  generalize slaveTurn P (configFor slave_addr a.request) l _ = t at hok hskeys hsctr ⊢
  refine ⟨?_, hok, ⟨?_, ?_, ?_⟩, .inl ⟨?_, ?_, ?_⟩⟩
  · rw [hwritten]
    exact hne
  · rw [hmkeys]
    exact hkm
  · rw [hskeys]
    exact hks
  · rw [hmkeys, hskeys]
    exact hsame
  · rw [hmctr, encrypted, storeEntry_ctrTable, Function.update_self]
    exact reserve_validOut_ne_zero _ _ _
  · rw [hsctr, encrypted, storeEntry_ctrTable, Function.update_self]
    exact reserve_validOut_ne_zero _ _ _
  · rw [hmctr, hsctr, encrypted, encrypted, storeEntry_ctrTable, storeEntry_ctrTable,
      Function.update_self, Function.update_self, hnext]
    rfl

/-- A reservation always shows in its entry. -/
theorem reserve_ne (n : Node) (c : Channel) (msg_len : ℕ) :
    reserve (n.ctrTable c) (nextValue n c) msg_len ≠ n.ctrTable c := by
  intro h
  have hset := reserve_validOut_ne_zero (n.ctrTable c) (nextValue n c) msg_len
  rw [h] at hset
  have hnext := congrArg CtrEntry.nextOut h
  rw [nextValue_of_set hset] at hnext
  have hblocks : numBlocks msg_len = 0 := by simpa [reserve] using hnext
  simp only [numBlocks] at hblocks
  split at hblocks
  · cases hblocks
  · contradiction

/-- Between two nodes in step an attempt is unbroken exactly if its port opens or there is
no request to send. -/
theorem unbroken_iff (hm : channelIndex slave_addr .masterToSlave = some m2s)
    (hkeys : SameKey l.master l.slave m2s) (hctr : InStep l.master l.slave m2s) :
    Unbroken P slave_addr m2s l a ↔ a.opens = true ∨
      modbusBuildRequest a.request.funcCode a.request.startAddr a.request.valueOrQty = none := by
  cases hbuild : modbusBuildRequest a.request.funcCode a.request.startAddr a.request.valueOrQty with
  | none =>
    have hrefused : attempt P slave_addr l a = _ := attempt_refused hbuild
    refine iff_of_true ⟨?_, ?_⟩ (.inr rfl)
    · rw [hrefused]
      exact fun h => absurd rfl h
    · rw [step, hrefused]
      exact fun _ => ⟨rfl, rfl⟩
  | some req =>
    obtain ⟨-, hhi⟩ := length_modbusBuildRequest hbuild
    have hlen : req.length ≤ maxPdu := by simp only [maxPdu]; omega
    cases hopens : a.opens with
    | true =>
      obtain ⟨hwritten, hok, -, -⟩ := attempt_written (P := P) hm hkeys hctr hlen hbuild hopens
      exact iff_of_true ⟨fun _ => hok, fun h => absurd h hwritten⟩ (.inl rfl)
    | false =>
      obtain ⟨hwritten, hstep⟩ := attempt_unopened (P := P) hm hkeys.1 hlen hbuild hopens
      refine iff_of_false (fun h => ?_) (by simp)
      have hkept := (h.kept hwritten).1
      rw [hstep] at hkept
      exact reserve_ne l.master m2s _ ((Function.update_self ..).symm.trans hkept)

theorem step_synchronized (hm : channelIndex slave_addr .masterToSlave = some m2s)
    (hkeys : SameKey l.master l.slave m2s) (hctr : InStep l.master l.slave m2s)
    (ha : a.opens = true ∨
      modbusBuildRequest a.request.funcCode a.request.startAddr a.request.valueOrQty = none) :
    SameKey (step P slave_addr l a).master (step P slave_addr l a).slave m2s ∧
      InStep (step P slave_addr l a).master (step P slave_addr l a).slave m2s := by
  cases hbuild : modbusBuildRequest a.request.funcCode a.request.startAddr a.request.valueOrQty with
  | none =>
    rw [step, attempt_refused hbuild]
    exact ⟨hkeys, hctr⟩
  | some req =>
    obtain ⟨-, hhi⟩ := length_modbusBuildRequest hbuild
    have hlen : req.length ≤ maxPdu := by simp only [maxPdu]; omega
    have hopens : a.opens = true := ha.resolve_right (by simp [hbuild])
    exact (attempt_written (P := P) hm hkeys hctr hlen hbuild hopens).2.2

end Attempts

/-- The link survives a run exactly if no attempt fails to open its port behind a request
that was built. -/
theorem link_survives_iff (P : Primitives) (slave_addr : Byte) (m2s : Channel)
    (hm : channelIndex slave_addr .masterToSlave = some m2s) (l : Link)
    (hkeys : SameKey l.master l.slave m2s) (hctr : InStep l.master l.slave m2s) (as : List Attempt) :
    Always (step P slave_addr) (Unbroken P slave_addr m2s) l as ↔
      ∀ a ∈ as, a.opens = true ∨
        modbusBuildRequest a.request.funcCode a.request.startAddr a.request.valueOrQty = none := by
  induction as generalizing l with
  | nil => simp [Always]
  | cons a as ih =>
    rw [Always, unbroken_iff hm hkeys hctr, List.forall_mem_cons]
    constructor
    · rintro ⟨ha, hrest⟩
      obtain ⟨hkeys', hctr'⟩ := step_synchronized (P := P) hm hkeys hctr ha
      exact ⟨ha, (ih _ hkeys' hctr').mp hrest⟩
    · rintro ⟨ha, hrest⟩
      obtain ⟨hkeys', hctr'⟩ := step_synchronized (P := P) hm hkeys hctr ha
      exact ⟨ha, (ih _ hkeys' hctr').mpr hrest⟩

/-- Two nodes with keys and no counters yet. -/
def sampleLink : Link :=
  let node : Node := { startProcess ⟨fun _ => none, []⟩ with keyTable := fun _ => ⟨true, sampleKeys, 0⟩ }
  ⟨node, node, staticDataModel⟩

def readTwo : Request := ⟨funcReadHoldingRegisters, 0, 2⟩

/-- A request that cannot be built on a port that does not open, then one that is sent. -/
theorem link_survives_iff_refused_then_sent :
    let P := leaPrimitives fun _ _ => ⟨List.replicate 32 0, rfl⟩
    Always (step P 1) (Unbroken P 1 (1, 0)) sampleLink
      [⟨⟨0, 0, 0⟩, false, fun _ => none⟩, ⟨readTwo, true, fun _ => none⟩] := by
  intro P
  apply (link_survives_iff P 1 (1, 0) rfl sampleLink ⟨rfl, rfl, rfl⟩ (.inr ⟨rfl, rfl, rfl⟩) _).mpr
  rw [List.forall_mem_cons, List.forall_mem_singleton]
  exact ⟨.inr rfl, .inl rfl⟩

/-- The frame of counter 1, decrypted under counter 0. -/
private theorem skipped_fails_crc : aduIntact (ctrMode 16
    (keyBlock (LeaCipher.leaEncrypt sampleKeys.encKey)) (0 : BitVec 32).toNat
    (ctrMode 16 (keyBlock (LeaCipher.leaEncrypt sampleKeys.encKey)) (1 : BitVec 32).toNat
      (plaintextAdu 1 FrameRejection.readRequest))) = false := by
  decide +kernel

/-- With LEA and any MAC: the request behind a failed open is written and fails the CRC. -/
theorem failed_open_breaks_link : ¬ ∃ mac, LinkSurvives (leaPrimitives mac) := by
  rintro ⟨mac, h⟩
  let P := leaPrimitives mac
  have hm : channelIndex 1 .masterToSlave = some (1, 0) := rfl
  have hlen : FrameRejection.readRequest.length ≤ maxPdu := by decide
  obtain ⟨-, hunbroken, -⟩ := h 1 (1, 0) sampleLink hm ⟨rfl, rfl, rfl⟩ (.inr ⟨rfl, rfl, rfl⟩)
    [⟨readTwo, false, fun _ => none⟩, ⟨readTwo, true, fun _ => none⟩]
  obtain ⟨-, hstep⟩ := attempt_unopened (P := P) (l := sampleLink) (a := ⟨readTwo, false, fun _ => none⟩)
    hm rfl hlen rfl rfl
  rw [hstep] at hunbroken
  obtain ⟨hwritten, -, -⟩ := runAsMaster_opened (P := P) readTwo ⟨true, true, fun _ => none⟩
    (n := encrypted sampleLink.master (1, 0) FrameRejection.readRequest) hm rfl rfl rfl hlen rfl
  obtain ⟨hwire, hne⟩ := wire_length (P := P) sampleKeys 1 1 hlen
  have hsealed : (runAsMaster P (configFor 1 readTwo) ⟨true, true, fun _ => none⟩
      (encrypted sampleLink.master (1, 0) FrameRejection.readRequest)).1.written =
      secureFrameBuild (sealFrame P sampleKeys 1 1 FrameRejection.readRequest) := hwritten
  obtain ⟨hstatus, -⟩ := verify_sealFrame_any (P := P) (n := sampleLink.slave) hlen hm rfl
    (.inl (rfl : (1 : Byte) = 1)) 1
  obtain ⟨r, hreceived, hok⟩ := hunbroken.accepted (by
    rw [attempt_eq hne hsealed, hsealed]
    exact hne)
  rw [attempt_eq hne hsealed, slaveTurn, runAsSlave_frame _ _ rfl hne hwire,
    processIncomingFrame_received] at hreceived
  obtain rfl := Option.some.inj hreceived
  have hcrc := hstatus.trans (if_neg (Bool.eq_false_iff.mp skipped_fails_crc))
  exact absurd (hok.symm.trans hcrc) (by decide)

end ModbusSecurity.UnsentRequests
