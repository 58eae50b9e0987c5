import ModbusSecurity.RequestAgreement
import ModbusSecurity.SendDemo

/-! # The two demos on one line

`secure_send_demo` at one end and `secure_recv_demo` at the other. The line carries what either
end writes to the other end byte by byte, at any pace that does not break a frame up. -/
namespace ModbusSecurity.DemoLink
open ByteStrings TextStreams TimedStreams SerialLine KeyStore CounterFile CounterState SecureFraming ModbusPdu
open ModbusRegisters RequestAgreement TransparentExchange SecureDemo RecvDemo SendDemo

theorem sweepRegisters_bounds {count i : ℕ} (hi : i < count) :
    1 ≤ sweepRegisters count i ∧ sweepRegisters count i ≤ maxRegisters := by
  rw [sweepRegisters]
  split
  · have hdiv : i * (maxRegisters - 1) / (count - 1) ≤ maxRegisters - 1 := by
      apply Nat.div_le_of_le_mul
      exact Nat.mul_le_mul_right _ (by omega)
    generalize i * (maxRegisters - 1) / (count - 1) = q at hdiv
    simp only [maxRegisters] at hdiv ⊢
    omega
  · decide

/-- The last frame writes all the registers. -/
theorem sweepRegisters_last (count : ℕ) : sweepRegisters count (count - 1) = maxRegisters := by
  rw [sweepRegisters]
  split
  · rw [Nat.mul_div_cancel_left _ (by omega)]
    rfl
  · rfl

theorem length_sweepPdu (regs i : ℕ) : (sweepPdu regs i).length = 6 + regs * 2 := by
  rw [sweepPdu, List.length_append, length_flatMap_putU16]
  rfl

/-- The tables after a write of so many registers from address 1 on. -/
structure Swept (m m' : DataModel) (regs i : ℕ) : Prop where
  registers : ∀ a (h : a < tableSize), m'.holdingRegisters[a] =
    if 1 ≤ a ∧ a < 1 + regs then BitVec.ofNat 16 (a - 1 + i) else m.holdingRegisters[a]
  inputRegisters : m'.inputRegisters = m.inputRegisters
  coils : m'.coils = m.coils
  discreteInputs : m'.discreteInputs = m.discreteInputs
  initialized : m'.tableInitialized = m.tableInitialized

/-- The server takes every frame of the sweep. -/
theorem response_sweepPdu (m : DataModel) {regs : ℕ} (i : ℕ) (hlo : 1 ≤ regs)
    (hhi : regs ≤ maxRegisters) : ∃ m', modbusBuildResponse m (sweepPdu regs i) =
      (some (funcWriteMultipleRegisters :: putU16 1 ++ putU16 (BitVec.ofNat 16 regs)), m') ∧
      Swept (ensureTableInitialized m) m' regs i := by
  simp only [maxRegisters] at hhi
  have hqty : (BitVec.ofNat 16 regs).toNat = regs := Nat.mod_eq_of_lt (by omega)
  obtain ⟨haddr, hregs, hcount, hlen⟩ := writeMultipleRequest_fields funcWriteMultipleRegisters 1
    (BitVec.ofNat 16 regs) (show regs * 2 < 256 by omega)
    (length_flatMap_putU16 regs fun reg => BitVec.ofNat 16 (reg + i))
  have hword : ∀ reg < regs, getU16 (sweepPdu regs i) (6 + reg * 2) = BitVec.ofNat 16 (reg + i) := by
    intro reg hreg
    refine (getU16_append (funcWriteMultipleRegisters :: putU16 1 ++ putU16 (BitVec.ofNat 16 regs) ++
      [BitVec.ofNat 8 (regs * 2)]) (reg * 2)).trans ?_
    rw [getU16_words _ hreg]
  rw [show writeMultipleRequest _ _ _ _ _ = sweepPdu regs i from rfl] at haddr hregs hcount hlen
  refine ⟨{ ensureTableInitialized m with
    holdingRegisters := writeCells (ensureTableInitialized m).holdingRegisters 1 regs
      fun reg => getU16 (sweepPdu regs i) (6 + reg * 2) }, ?_, fun a ha => ?_, rfl, rfl, rfl, rfl⟩
  · have hshort : ¬ (sweepPdu regs i).length < 6 := by omega
    have hvalid : ¬ (regs < 1 ∨ maxWriteRegisters < regs ∨ regs * 2 ≠ regs * 2 ∨
        (sweepPdu regs i).length < 6 + regs * 2) := by
      simp only [maxWriteRegisters]
      omega
    have hinside : ¬ tableSize < (1 : Word).toNat + regs := by
      rw [show (1 : Word).toNat = 1 from rfl, tableSize]
      omega
    have hwrite : writeMultipleRegisters (ensureTableInitialized m) funcWriteMultipleRegisters
        (sweepPdu regs i) =
        (funcWriteMultipleRegisters :: putU16 1 ++ putU16 (BitVec.ofNat 16 regs),
          { ensureTableInitialized m with
            holdingRegisters := writeCells (ensureTableInitialized m).holdingRegisters 1 regs
              fun reg => getU16 (sweepPdu regs i) (6 + reg * 2) }) := by
      simp only [writeMultipleRegisters, if_neg hshort, haddr, hregs, hcount, hqty, if_neg hvalid,
        if_neg hinside]
      rfl
    have hserved : modbusBuildResponse m (sweepPdu regs i) =
        (some (writeMultipleRegisters (ensureTableInitialized m) funcWriteMultipleRegisters
            (sweepPdu regs i)).1,
          (writeMultipleRegisters (ensureTableInitialized m) funcWriteMultipleRegisters
            (sweepPdu regs i)).2) := rfl
    rw [hserved, hwrite]
  · rw [getElem_writeCells _ _ _ _ a ha]
    by_cases hin : 1 ≤ a ∧ a < 1 + regs
    · rw [if_pos hin, if_pos hin, hword _ (by omega)]
    · rw [if_neg hin, if_neg hin]

/-- The receiving demo, the frames it still waits for, and what became of the others. -/
structure Bench where
  receiver : Receiver
  left : ℕ
  outcomes : List FrameOutcome

/-- How long the line takes for a frame and for its reply, byte by byte: the first delay counts
from the end of the write, the others from the byte before. -/
structure Transit where
  request : ℕ → ℕ
  reply : ℕ → ℕ

/-- What is written reaches the receiver, which has been waiting in `serial_port_read`, and its
reply comes back. -/
def answer (P : Primitives) (interval : ℕ) (transit : ℕ → Transit) : Far Bench := fun b t out =>
  match b.left, out with
  | 0, _ | _, [] => ([], b)
  | left + 1, out =>
    let pace := transit b.outcomes.length
    let line := b.receiver.port.line
    let arrivals := paced t pace.request out
    let (outcome, r) := receiveOneFrame P interval { b.receiver with
      port := { b.receiver.port with line := { line with unread := line.unread ++ arrivals } } }
    let left := if outcome = .timedOut ∨ outcome = .ioError then 0 else left
    let written := (r.sent.drop b.receiver.sent.length).flatten
    (paced r.port.line.now pace.reply written, ⟨r, left, b.outcomes ++ [outcome]⟩)

/-- At most five seconds until the first byte, and no pause that would end a frame. -/
def Unbroken (interval : ℕ) (gap : ℕ → ℕ) : Prop := gap 0 ≤ 5000000 ∧ ∀ k, gap (k + 1) ≤ interval

/-- Nothing is on the line, and both ends are on time. -/
structure Idle (lateness : ℕ) (port : Port) : Prop where
  prompt : port.line.Prompt lateness
  unread : port.line.unread = []
  writes : .fails ∉ port.writes
  busy : ∀ t ∈ port.busy, t ≤ lateness

/-- Both demos between two frames; the receiver waits, and has not waited long. -/
structure Waiting (lateness remaining slack : ℕ) (s : Sender Bench) : Prop where
  shared : Shared s.node s.far.receiver.node s.node slaveAddr
  near : Idle lateness s.port
  far : Idle lateness s.far.receiver.port
  left : remaining ≤ s.far.left
  ahead : s.far.receiver.port.line.now ≤ s.port.line.now
  soon : s.port.line.now ≤ s.far.receiver.port.line.now + slack

section Steps
variable {P : Primitives} {interval lateness : ℕ}

/-- A string on an idle line is one burst that is still to come. -/
theorem Idle.coming {port : Port} (h : Idle lateness port) {t : ℕ} {gap : ℕ → ℕ}
    (hgap : Unbroken interval gap) (hlo : port.line.now ≤ t)
    (hhi : t + 5000000 ≤ port.line.now + firstByteTimeoutUs) {first : Byte} {rest : Bytes}
    (hlen : (first :: rest).length ≤ maxWireLen) :
    Ready lateness (interval + 2 * lateness)
      { port with line := { port.line with unread := port.line.unread ++ paced t gap (first :: rest) } }
      [Burst.sendPaced t gap hgap.2 first rest] := by
  refine ⟨⟨h.prompt, by rw [h.unread]; simp [Burst.sendPaced, Burst.arrivals, paced], ?_, ?_, ?_, trivial⟩,
    h.writes, h.busy⟩
  · intro b hb
    obtain rfl := List.mem_singleton.mp hb
    rw [← length_items, Burst.items_sendPaced]
    exact hlen
  · exact hlo.trans (Nat.le_add_right _ _)
  · exact (Nat.add_le_add_left hgap.1 t).trans hhi

/-- When a paced frame has arrived. -/
theorem Unbroken.finish {gap : ℕ → ℕ} (hgap : Unbroken interval gap) (t : ℕ) {first : Byte}
    {rest : Bytes} (hlen : (first :: rest).length ≤ maxWireLen) :
    t ≤ (Burst.sendPaced t gap hgap.2 first rest).finish ∧
      (Burst.sendPaced t gap hgap.2 first rest).finish ≤ t + 5000000 + 288 * interval := by
  have hstart := Burst.start_le_finish (Burst.sendPaced t gap hgap.2 first rest)
  have hfinish := Burst.finish_sendPaced_le (t := t) hgap.2 first rest
  have hfirst := hgap.1
  have hrest : rest.length * interval ≤ 288 * interval := by
    apply Nat.mul_le_mul_right
    simp only [List.length_cons, maxWireLen, maxAdu, addrLen, maxPdu, crcLen, hmacLen] at hlen
    omega
  rw [Burst.start_sendPaced] at hstart
  omega

/-- A string on an idle line is read whole, and the line is idle again. -/
theorem Idle.read {port : Port} (h : Idle lateness port) {t : ℕ} {gap : ℕ → ℕ}
    (hgap : Unbroken interval gap) (hlo : port.line.now ≤ t)
    (hhi : t + 5000000 ≤ port.line.now + firstByteTimeoutUs) {rx : Bytes} (hne : rx ≠ [])
    (hlen : rx.length ≤ maxWireLen) :
    let r := serialPortRead interval maxWireLen
      { port.line with unread := port.line.unread ++ paced t gap rx }
    r.ret = some rx ∧ (r.line.Prompt lateness ∧ r.line.unread = []) ∧ t ≤ r.line.now ∧
      r.line.now ≤ t + 5000000 + 289 * interval + 2 * lateness := by
  obtain ⟨first, rest, rfl⟩ := List.exists_cons_of_ne_nil hne
  obtain ⟨hret, hread, ⟨hfin, hnow⟩, -⟩ := (h.coming hgap hlo hhi hlen).coming.read (Nat.le_refl _)
  obtain ⟨hafter, hbefore⟩ := hgap.finish t hlen
  rw [Burst.items_sendPaced] at hret
  exact ⟨hret, ⟨hread.prompt, hread.unread⟩, hafter.trans hfin, hnow.trans (by omega)⟩

/-- Both sides have gone through the same exchange. -/
theorem shared_exchanged {m n : Node} {addr : Byte} {m2s s2m : Channel} (h : Shared m n m addr)
    (hm : channelIndex addr .masterToSlave = some m2s)
    (hs : channelIndex addr .slaveToMaster = some s2m) (req pdu : Bytes) :
    Shared (afterExchange m m2s s2m req pdu) (afterExchange n m2s s2m req pdu)
      (afterExchange m m2s s2m req pdu) addr := by
  obtain ⟨c, d, hc, hd, ⟨hkc, hvc⟩, hkd, hvd⟩ := h
  have hne := channels_ne hm hs
  refine ⟨c, d, hc, hd, ⟨hkc, ?_⟩, hkd, ?_⟩
  · rw [nextValue_afterExchange _ hne, nextValue_afterExchange _ hne, hvc]
  · rw [nextValue_afterExchange _ hne, nextValue_afterExchange _ hne, hvd]

/-- The receiver answers the frame that it has been waiting for, and is idle again. -/
theorem answer_request {b : Bench} {left t : ℕ} {transit : ℕ → Transit} {m2s s2m : Channel}
    {addr : Byte} {req : Bytes} (hleft : b.left = left + 1) (hfar : Idle lateness b.receiver.port)
    (hgap : Unbroken interval (transit b.outcomes.length).request)
    (hlo : b.receiver.port.line.now ≤ t)
    (hhi : t + 5000000 ≤ b.receiver.port.line.now + firstByteTimeoutUs)
    (hm : channelIndex addr .masterToSlave = some m2s) (hs : channelIndex addr .slaveToMaster = some s2m)
    (hkm : (b.receiver.node.keyTable m2s).valid = true)
    (hks : (b.receiver.node.keyTable s2m).valid = true) (hlen : req.length ≤ maxPdu) (hne : req ≠ []) :
    ∃ pdu b', (modbusBuildResponse b.receiver.tables req).1 = some pdu ∧ pdu.length ≤ maxPdu ∧
      answer P interval transit b t (secureFrameBuild (sealFrame P
          (b.receiver.node.keyTable m2s).keys addr (nextValue b.receiver.node m2s) req)) =
        (paced b'.receiver.port.line.now (transit b.outcomes.length).reply (secureFrameBuild
          (sealFrame P (b.receiver.node.keyTable s2m).keys addr (nextValue b.receiver.node s2m) pdu)),
        b') ∧
      Idle lateness b'.receiver.port ∧ b'.left = left ∧ b'.outcomes = b.outcomes ++ [.success] ∧
      b'.receiver.node = afterExchange b.receiver.node m2s s2m req pdu ∧
      b'.receiver.tables = (modbusBuildResponse b.receiver.tables req).2 ∧
      t ≤ b'.receiver.port.line.now ∧
      b'.receiver.port.line.now ≤ t + 5000000 + 289 * interval + 2 * lateness := by
  obtain ⟨hwirelen, hwirene⟩ := wire_length (P := P) (b.receiver.node.keyTable m2s).keys addr
    (nextValue b.receiver.node m2s) hlen
  generalize hw : secureFrameBuild (sealFrame P (b.receiver.node.keyTable m2s).keys addr
    (nextValue b.receiver.node m2s) req) = wire at hwirelen hwirene
  obtain ⟨first, rest, rfl⟩ := List.exists_cons_of_ne_nil hwirene
  have hready := hfar.coming hgap hlo hhi hwirelen
  obtain ⟨pdu, r', hpdu, hfit, hstep, hready', ⟨hfin, hnow⟩, hnode, htables, hsent⟩ :=
    receive_request (P := P) (r := { b.receiver with port := _ }) hready (Nat.le_refl _) hm hs hkm hks
      hlen hne (by rw [Burst.items_sendPaced, hw])
  obtain ⟨hafter, hbefore⟩ := hgap.finish t hwirelen
  refine ⟨pdu, ⟨r', left, b.outcomes ++ [.success]⟩, hpdu, hfit, ?_, ⟨hready'.coming.prompt,
    hready'.coming.unread, hready'.writes, hready'.busy⟩, rfl, rfl, hnode, htables,
    hafter.trans hfin, ?_⟩
  · simp only [answer, hleft, hstep, hsent]
    simp
  · calc r'.port.line.now ≤ _ := hnow
      _ ≤ t + 5000000 + 289 * interval + 2 * lateness := by omega

/-- The line of a run of both demos. -/
structure Served (baud : ℤ) (lateness : ℕ) (transit : ℕ → Transit) : Prop where
  supported : baud ∈ supportedBauds
  late : lateness ≤ 1000000
  request : ∀ k, Unbroken (modbusT35Us baud.toNat) (transit k).request
  reply : ∀ k, Unbroken (modbusT35Us baud.toNat) (transit k).reply

theorem modbusT35Us_le {baud : ℤ} (h : baud ∈ supportedBauds) : modbusT35Us baud.toNat ≤ 32083 := by
  revert h
  revert baud
  decide

/-- One frame of the sweep, there and back. -/
theorem sendFrame_served {args : Args} {baud : ℤ} {opens : ℕ → Bool} {transit : ℕ → Transit}
    {remaining slack i : ℕ} {s : Sender Bench} (hport : args.hasPort = true)
    (hbaud : args.baud.getD 115200 = baud) (hline : Served baud lateness transit)
    (hopens : opens i = true) (hi : i < args.frames) (hslack : slack ≤ 20000000)
    (h : Waiting lateness (remaining + 1) slack s) :
    ∃ s', sendFrame P (answer P (modbusT35Us baud.toNat) transit) args opens i s = (true, s') ∧
      Waiting lateness remaining 17000000 s' ∧
      s'.far.outcomes = s.far.outcomes ++ [.success] ∧
      s'.far.receiver.tables = (modbusBuildResponse s.far.receiver.tables
        (sweepPdu (sweepRegisters args.frames i) i)).2 := by
  obtain ⟨m2s, s2m, hm, hs, ⟨⟨hkm, hkm', hkeym⟩, hvm⟩, ⟨hks, hks', hkeys⟩, hvs⟩ := h.shared
  obtain ⟨hlo, hhi⟩ := sweepRegisters_bounds hi
  have hinterval := modbusT35Us_le hline.supported
  have hsm := channels_ne hm hs
  simp only [maxRegisters] at hhi
  obtain ⟨req, hreq⟩ : ∃ req, req = sweepPdu (sweepRegisters args.frames i) i := ⟨_, rfl⟩
  have hlen : req.length ≤ maxPdu := by
    rw [hreq, length_sweepPdu, maxPdu]
    omega
  have hne : req ≠ [] := by
    rw [hreq]
    exact List.cons_ne_nil _ _
  have hsend := secureFrameEncryptAndBuild_eq (P := P) (n := s.node) hlen hm hkm
  rw [hkeym, hvm] at hsend
  obtain ⟨left, hleft⟩ : ∃ left, s.far.left = left + 1 := ⟨s.far.left - 1, by have := h.left; omega⟩
  have hfirst : 30000000 ≤ firstByteTimeoutUs := Nat.le_refl _
  have hsoon := h.soon
  have hlate := hline.late
  obtain ⟨pdu, b, hpdu, hfit, hanswer, hidle, hbleft, hbout, hbnode, hbtables, hafter, hbefore⟩ :=
    answer_request (P := P) hleft h.far (hline.request _) h.ahead (by omega) hm hs hkm' hks' hlen hne
  generalize hw : secureFrameBuild (sealFrame P (s.far.receiver.node.keyTable m2s).keys slaveAddr
    (nextValue s.far.receiver.node m2s) req) = wire at hsend hanswer
  let opened := storeEntry s.node m2s
    (reserve (s.node.ctrTable m2s) (nextValue s.far.receiver.node m2s) (req.length + 3))
  have hnext : nextValue opened s2m = nextValue s.node s2m := nextValue_storeEntry_ne _ hsm _
  have hentry : opened.ctrTable s2m = s.node.ctrTable s2m := Function.update_of_ne hsm _ _
  obtain ⟨v, hverify, hstatus, -⟩ := opens_frame (P := P) (n := opened) hfit hs hks
  obtain ⟨hreplylen, hreplyne⟩ := wire_length (P := P) (opened.keyTable s2m).keys slaveAddr
    (nextValue opened s2m) hfit
  rw [hnext, hvs, show opened.keyTable = s.node.keyTable from rfl, hkeys] at hreplylen hreplyne hverify
  generalize secureFrameBuild (sealFrame P (s.far.receiver.node.keyTable s2m).keys slaveAddr
    (nextValue s.far.receiver.node s2m) pdu) = back at hanswer hreplylen hreplyne hverify
  obtain ⟨hret, hquiet, hreplied, hback⟩ :=
    h.near.read (hline.reply s.far.outcomes.length) hafter (by omega) hreplyne hreplylen
  have hopen : serialPortOpen baud (opens i) s.port = some s.port := by
    rw [serialPortOpen, hopens, serialPortDrain_of_empty h.near.unread]
    simp [hline.supported]
  obtain ⟨s', hsent, hline', hwrites, hbusy, hnode, rfl⟩ := sendRequestAndVerifyReply_read
    (s := { s with node := opened }) hopen h.near.writes hanswer rfl hret hreplyne hverify
  have hexchanged : s'.node = afterExchange s.node m2s s2m req pdu := by
    rw [hnode, hentry, afterExchange, hvm, hvs]
  rw [← hline'] at hquiet hreplied hback
  refine ⟨s', ?_, ⟨?_, ⟨hquiet.1, hquiet.2, hwrites, fun t ht => h.near.busy t (hbusy ▸ ht)⟩,
    hidle, ?_, hreplied, ?_⟩, hbout, hreq ▸ hbtables⟩
  · simp only [sendFrame, ← hreq, hsend, hport, if_true, hbaud]
    rw [show storeEntry s.node m2s _ = opened from rfl, hsent, hstatus]
    rfl
  · rw [hexchanged, hbnode]
    exact shared_exchanged h.shared hm hs req pdu
  · have := h.left
    omega
  · calc s'.port.line.now ≤ _ := hback
      _ ≤ s'.far.receiver.port.line.now + 17000000 := by omega

end Steps

/-- What the server makes of frames `i, …, i + n - 1` of a sweep. -/
def sweepTables (count : ℕ) (m : DataModel) (i n : ℕ) : DataModel :=
  (List.range' i n).foldl
    (fun m j => (modbusBuildResponse m (sweepPdu (sweepRegisters count j) j)).2) m

section Runs
variable {P : Primitives} {lateness : ℕ} {args : Args} {baud : ℤ} {opens : ℕ → Bool}
variable {transit : ℕ → Transit}

theorem interFrameGapMs_le (hline : Served baud lateness transit) :
    interFrameGapMs baud.toNat * 1000 ≤ 66000 := by
  have := modbusT35Us_le hline.supported
  rw [interFrameGapMs]
  omega

theorem waiting_sleep {remaining slack ms : ℕ} {s : Sender Bench} (h : Waiting lateness remaining slack s) :
    Waiting lateness remaining (slack + ms * 1000) (s.sleep ms) where
  shared := h.shared
  near := ⟨h.near.prompt, h.near.unread, h.near.writes, h.near.busy⟩
  far := h.far
  left := h.left
  ahead := h.ahead.trans (Nat.le_add_right _ _)
  soon := (Nat.add_le_add_right h.soon _).trans_eq (Nat.add_assoc ..)

theorem waiting_mono {remaining slack slack' : ℕ} {s : Sender Bench} (h : Waiting lateness remaining slack s)
    (hle : slack ≤ slack') : Waiting lateness remaining slack' s :=
  { h with soon := h.soon.trans (Nat.add_le_add_left hle _) }

theorem sendFrames_served (hport : args.hasPort = true) (hbaud : args.baud.getD 115200 = baud)
    (hline : Served baud lateness transit) (hopens : ∀ i, opens i = true) {remaining i : ℕ}
    {s : Sender Bench} (hsum : i + remaining = args.frames) (h : Waiting lateness remaining 20000000 s) :
    ∃ s', sendFrames P (answer P (modbusT35Us baud.toNat) transit) args opens remaining i s =
        (List.replicate remaining true, s') ∧
      Waiting lateness 0 20000000 s' ∧
      s'.far.outcomes = s.far.outcomes ++ List.replicate remaining .success ∧
      s'.far.receiver.tables = sweepTables args.frames s.far.receiver.tables i remaining := by
  induction remaining generalizing i s with
  | zero => exact ⟨s, rfl, h, by simp, rfl⟩
  | succ remaining ih =>
    obtain ⟨s₁, hstep, hwait, hout, htables⟩ := sendFrame_served (P := P) hport hbaud hline (hopens i)
      (by omega) (Nat.le_refl _) h
    have hgap := interFrameGapMs_le hline
    obtain ⟨s₂, hs₂, hwait₂, hfar⟩ : ∃ s₂, s₂ = (if i + 1 < args.frames then
        s₁.sleep (interFrameGapMs baud.toNat) else s₁) ∧ Waiting lateness remaining 20000000 s₂ ∧
        s₂.far = s₁.far := by
      refine ⟨_, rfl, ?_⟩
      split
      · exact ⟨waiting_mono (waiting_sleep hwait) (by omega), rfl⟩
      · exact ⟨waiting_mono hwait (by omega), rfl⟩
    obtain ⟨s', hrun, hwait', hout', htables'⟩ := ih (i := i + 1) (by omega) hwait₂
    refine ⟨s', ?_, hwait', ?_, ?_⟩
    · simp only [sendFrames, hstep, hbaud, ← hs₂, hrun, List.replicate_succ]
    · rw [hout', hfar, hout, List.append_assoc]
      rfl
    · rw [htables', hfar, htables]
      rfl

end Runs

/-- Only registers 1 to 123 differ. -/
structure OnlySwept (m m' : DataModel) : Prop where
  registers : ∀ a (h : a < tableSize), ¬ (1 ≤ a ∧ a < 124) →
    m'.holdingRegisters[a] = m.holdingRegisters[a]
  inputRegisters : m'.inputRegisters = m.inputRegisters
  coils : m'.coils = m.coils
  discreteInputs : m'.discreteInputs = m.discreteInputs

theorem sweepTables_succ (count n : ℕ) (m : DataModel) : sweepTables count m 0 (n + 1) =
    (modbusBuildResponse (sweepTables count m 0 n) (sweepPdu (sweepRegisters count n) n)).2 := by
  rw [sweepTables, List.range'_1_concat, List.foldl_append, Nat.zero_add]
  rfl

/-- One more frame, in tables that have been set up. -/
theorem sweepTables_step {count n : ℕ} (hn : n < count) (m : DataModel) :
    Swept (ensureTableInitialized (sweepTables count m 0 n))
      (ensureTableInitialized (sweepTables count m 0 (n + 1))) (sweepRegisters count n) n := by
  obtain ⟨hlo, hhi⟩ := sweepRegisters_bounds hn
  obtain ⟨m', hresp, hswept⟩ := response_sweepPdu (sweepTables count m 0 n) n hlo hhi
  have hinit : ensureTableInitialized m' = m' := ensureTableInitialized_of_true
    (hswept.initialized.trans (ensureTableInitialized_initialized _))
  rw [sweepTables_succ, hresp, hinit]
  exact hswept

theorem onlySwept_sweepTables {count n : ℕ} (hn : n ≤ count) (m : DataModel) :
    OnlySwept (ensureTableInitialized m) (ensureTableInitialized (sweepTables count m 0 n)) := by
  induction n with
  | zero => exact ⟨fun _ _ _ => rfl, rfl, rfl, rfl⟩
  | succ n ih =>
    obtain ⟨hreg, hin, hcoils, hdiscrete⟩ := ih (by omega)
    obtain ⟨hreg', hin', hcoils', hdiscrete', -⟩ := sweepTables_step (show n < count by omega) m
    have hhi := (sweepRegisters_bounds (show n < count by omega)).2
    simp only [maxRegisters] at hhi
    refine ⟨fun a ha hout => ?_, hin'.trans hin, hcoils'.trans hcoils, hdiscrete'.trans hdiscrete⟩
    rw [hreg' a ha, if_neg (by omega), hreg a ha hout]

/-- Behind a run register `1 + j` holds `j` more than the number of the last frame. -/
structure SweptBy (count : ℕ) (m m' : DataModel) : Prop where
  only : OnlySwept (ensureTableInitialized m) m'
  registers : ∀ j (h : 1 + j < tableSize), j < 123 →
    m'.holdingRegisters[1 + j] = BitVec.ofNat 16 (j + (count - 1))

theorem sweptBy_sweepTables {count : ℕ} (hcount : 0 < count) (m : DataModel) :
    SweptBy count m (ensureTableInitialized (sweepTables count m 0 count)) := by
  obtain ⟨n, rfl⟩ : ∃ n, count = n + 1 := ⟨count - 1, by omega⟩
  refine ⟨onlySwept_sweepTables (Nat.le_refl _) m, fun j hcell hj => ?_⟩
  have hlast := sweepRegisters_last (n + 1)
  rw [Nat.add_sub_cancel, maxRegisters] at hlast
  rw [(sweepTables_step (Nat.lt_succ_self n) m).registers, hlast, if_pos (by omega)]
  congr 1
  omega

/-- A process of either demo behind its start: the keys it has found, and its counters. -/
def launched (argv0 stateFile : Bytes) (disk : Disk) : ℕ × Node :=
  let (loaded, node) := demoLoadKeys (some argv0) (startProcess disk)
  (loaded.getD 0, (ctrStateLoad (ctrStateSetPath node (exeRelativePath argv0 stateFile 512))).2)

/-- The sending demo against a receiving demo with the same keys and counters in step: for every
count and rate, and for every way in which the line and the two systems pass the time, each
frame is answered, both sides count a success for each, the registers hold the last frame, and
the counters are in step for the next run. -/
theorem sweep_served (P : Primitives) (args : Args) (baud : ℤ) (lateness : ℕ) (opens : ℕ → Bool)
    (transit : ℕ → Transit) (port : Port) (disk : Disk) (b : Bench) (hport : args.hasPort = true)
    (hbaud : args.baud.getD 115200 = baud) (hline : Served baud lateness transit)
    (hopens : ∀ i, opens i = true)
    (hkeys : 0 < (launched args.argv0 ctrStateDefaultPath disk).1)
    (hstart : Waiting lateness args.frames 20000000
      ⟨port, (launched args.argv0 ctrStateDefaultPath disk).2, b⟩) :
    ∃ s, secureSendDemo P (answer P (modbusT35Us baud.toNat) transit) args opens port disk b =
        (0, List.replicate args.frames true, s) ∧
      s.far.outcomes = b.outcomes ++ List.replicate args.frames .success ∧
      SweptBy args.frames b.receiver.tables (ensureTableInitialized s.far.receiver.tables) ∧
      Shared s.node s.far.receiver.node s.node slaveAddr := by
  have hframes : 0 < args.frames := by
    rw [Args.frames]
    split <;> omega
  obtain ⟨s, hrun, hwait, hout, htables⟩ :=
    sendFrames_served (P := P) hport hbaud hline hopens (Nat.zero_add _) hstart
  refine ⟨s, ?_, hout, ?_, hwait.shared⟩
  · have hloaded : ((demoLoadKeys (some args.argv0) (startProcess disk)).1.getD 0) ≠ 0 :=
      Nat.ne_of_gt hkeys
    simp only [launched] at hrun
    simp only [secureSendDemo, if_neg hloaded, hrun]
    simp
  · rw [htables]
    exact sweptBy_sweepTables hframes _

/-- Five frames at 9600 baud, every byte 2 ms behind the one before it. -/
theorem sweep_served_five :
    let P := leaPrimitives fun _ _ => ⟨List.replicate 32 0, rfl⟩
    let disk : Disk := ⟨Function.update (fun _ => none) keysFile (some slaveKeyText), []⟩
    let port : Port := ⟨⟨0, [], []⟩, [], []⟩
    let b : Bench := ⟨⟨port, (launched (ascii ['x']) recvStatePath disk).2, staticDataModel, []⟩, 5, []⟩
    (secureSendDemo P (answer P 20000 fun _ => ⟨fun _ => 2000, fun _ => 2000⟩)
      ⟨ascii ['x'], true, some 9600, some 5⟩ (fun _ => true) port disk b).1 = 0 := by
  intro P disk port b
  have hinterval : 2000 ≤ modbusT35Us (Int.toNat 9600) := by decide
  have hline : Served 9600 0 fun _ => ⟨fun _ => 2000, fun _ => 2000⟩ :=
    ⟨by decide, Nat.zero_le _, fun _ => ⟨by decide, fun _ => hinterval⟩,
      fun _ => ⟨by decide, fun _ => hinterval⟩⟩
  have hidle : Idle 0 port := ⟨by simp [port, Line.Prompt], rfl, by simp [port], by simp [port]⟩
  obtain ⟨s, hrun, -⟩ := sweep_served P ⟨ascii ['x'], true, some 9600, some 5⟩ 9600 0 (fun _ => true)
    (fun _ => ⟨fun _ => 2000, fun _ => 2000⟩) port disk b rfl rfl hline (fun _ => rfl) (by decide)
    ⟨⟨(1, 0), (1, 1), rfl, rfl, ⟨⟨rfl, rfl, rfl⟩, rfl⟩, ⟨rfl, rfl, rfl⟩, rfl⟩, hidle, hidle, by decide,
      by decide, by decide⟩
  exact congrArg Prod.fst hrun

end ModbusSecurity.DemoLink
