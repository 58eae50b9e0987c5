import ModbusSecurity.LockstepLink
import ModbusSecurity.SerialLine
import ModbusSecurity.TransparentExchange

/-! # The receiving demo

`secure_recv_demo.c`: one process that answers frames from a serial line until its count is
reached or the line stays silent. -/
namespace ModbusSecurity.RecvDemo
open ByteStrings TextStreams TimedStreams SerialLine KeyStore CounterFile CounterState SecureFraming
open ModbusPdu SecureDemo TransparentExchange
open LockstepLink (Junk authenticate_of_junk)

/-- An open port: the line, the calls of `write` to come, and the time that passes before each
drain. -/
structure Port where
  line : Line
  writes : List WriteCall
  busy : List ℕ

def Port.drain (port : Port) : Port :=
  { port with
    line := serialPortDrain { port.line with now := port.line.now + port.busy.headD 0 }
    busy := port.busy.tail }

/-- The process while it listens; `sent` is what went out for each reply. -/
structure Receiver where
  port : Port
  node : Node
  tables : DataModel
  sent : List Bytes

/-- The codes 0, -1, 1 and 2. -/
inductive FrameOutcome where
  | success
  | rejected
  | timedOut
  | ioError
  deriving DecidableEq

/-- The reply to a request that was opened. -/
def reply (P : Primitives) (r : Receiver) (addr : Byte) (pdu : Bytes) : Receiver :=
  match modbusBuildResponse r.tables pdu with
  | (none, tables) => { r with tables := tables }
  | (some reply, tables) =>
    match secureFrameEncryptAndBuild P r.node addr reply .slaveToMaster with
    | (none, node) => { r with node := node, tables := tables }
    | (some result, node) =>
      let (_, out, writes) := serialPortWrite r.port.writes result.wire
      ⟨{ r.port with writes := writes }, node, tables, r.sent ++ [out]⟩

def receiveOneFrame (P : Primitives) (interval : ℕ) (r : Receiver) : FrameOutcome × Receiver :=
  let read := serialPortRead interval maxWireLen r.port.line
  let port := { r.port with line := read.line }
  match read.ret with
  | none => (.ioError, { r with port := port })
  | some [] => (.timedOut, { r with port := port })
  | some rx =>
    let (v, node) := secureFrameVerifyAndDecrypt P r.node rx anyAddr .masterToSlave
    match v.status, v.outAddr, v.outPdu with
    | .ok, some addr, some pdu => (.success, reply P { r with port := port, node := node } addr pdu)
    | _, _, _ => (.rejected, { r with port := port.drain, node := node })

/-- The loop over the frames, with their outcomes. -/
def receiveFrames (P : Primitives) (interval : ℕ) : ℕ → Receiver → List FrameOutcome × Receiver
  | 0, r => ([], r)
  | count + 1, r =>
    match receiveOneFrame P interval r with
    | (.timedOut, r) => ([.timedOut], r)
    | (.ioError, r) => ([.ioError], r)
    | (outcome, r) =>
      let (outcomes, r) := receiveFrames P interval count r
      (outcome :: outcomes, r)

/-- The command line; numbers are what `strtol` reads. -/
structure Args where
  argv0 : Bytes
  hasPort : Bool
  baud : Option ℤ
  count : Option ℤ

/-- `count`, cut to an `int`, and at least 1. -/
def Args.frames (args : Args) : ℕ :=
  match args.count with
  | none => 1
  | some count => (max 1 (BitVec.ofInt 32 count).toInt).toNat

/-- `serial_port_open` on a device that can be opened or not; what has been received is flushed. -/
def serialPortOpen (baud : ℤ) (opens : Bool) (port : Port) : Option Port :=
  if opens && baud ∈ supportedBauds then some { port with line := serialPortDrain port.line }
  else none

structure RunResult where
  exitCode : ℕ
  outcomes : List FrameOutcome
  receiver : Receiver

/-- `main` up to its loop: the silence that ends a frame and the open receiver, or the process
that gives up with the result 1. -/
def startListening (args : Args) (opens : Bool) (port : Port) (disk : Disk) :
    Except Receiver (ℕ × Receiver) :=
  let start : Receiver := ⟨port, startProcess disk, staticDataModel, []⟩
  if !args.hasPort then .error start
  else
    let baud := args.baud.getD 9600
    let (loaded, node) := demoLoadKeys (some args.argv0) start.node
    if loaded.getD 0 = 0 then .error { start with node := node }
    else
      let node := (ctrStateLoad (ctrStateSetPath node
        (exeRelativePath args.argv0 recvStatePath 512))).2
      match serialPortOpen baud opens port with
      | none => .error { start with node := node }
      | some port => .ok (modbusT35Us baud.toNat, { start with port := port, node := node })

/-- `main`; the log file is left out. -/
def secureRecvDemo (P : Primitives) (args : Args) (opens : Bool) (port : Port) (disk : Disk) :
    RunResult :=
  match startListening args opens port disk with
  | .error r => ⟨1, [], r⟩
  | .ok (interval, r) =>
    let (outcomes, r) := receiveFrames P interval args.frames r
    ⟨if .success ∈ outcomes then 0 else 1, outcomes, r⟩

inductive Traffic where
  | request (slave_addr : Byte) (pdu : Bytes)
  | junk (wire : Bytes)

/-- The frames that the sender makes of the requests, with the junk in between. -/
def wires (P : Primitives) : Node → List Traffic → List Bytes
  | _, [] => []
  | n, .junk wire :: traffic => wire :: wires P n traffic
  | n, .request slave_addr pdu :: traffic =>
    let (built, n) := secureFrameEncryptAndBuild P n slave_addr pdu .masterToSlave
    (built.map (·.wire)).toList ++ wires P n traffic

def Traffic.outcome : Traffic → FrameOutcome
  | .request _ _ => .success
  | .junk _ => .rejected

/-- The replies to the requests without any security layer, and the tables behind them. -/
def plainReplies : DataModel → List Traffic → List (Byte × Bytes) × DataModel
  | tables, [] => ([], tables)
  | tables, .junk _ :: traffic => plainReplies tables traffic
  | tables, .request slave_addr pdu :: traffic =>
    let (reply, tables) := modbusBuildResponse tables pdu
    let (replies, tables) := plainReplies tables traffic
    ((reply.map fun reply => (slave_addr, reply)).toList ++ replies, tables)

/-- The master opens one frame after another, each from the slave it asked. -/
def openReplies (P : Primitives) : Node → List (Byte × Bytes) → List VerifyResult
  | _, [] => []
  | n, (slave_addr, wire) :: frames =>
    let (v, n) := secureFrameVerifyAndDecrypt P n wire slave_addr .slaveToMaster
    v :: openReplies P n frames

section Steps
variable {P : Primitives} {interval lateness gap : ℕ} {r : Receiver}
variable {b : Burst Byte interval} {bs : List (Burst Byte interval)}

/-- The port has not been used yet for the bursts to come, and its calls return in time. -/
structure Ready (lateness gap : ℕ) (port : Port) (bs : List (Burst Byte interval)) : Prop where
  coming : Coming lateness gap maxWireLen port.line bs
  writes : .fails ∉ port.writes
  busy : ∀ t ∈ port.busy, t ≤ lateness

theorem receive_burst (h : Ready lateness gap r.port (b :: bs)) (hgap : interval + 2 * lateness ≤ gap) :
    ∃ line, receiveOneFrame P interval r =
        (let (v, node) := secureFrameVerifyAndDecrypt P r.node (items b.arrivals) anyAddr .masterToSlave
        match v.status, v.outAddr, v.outPdu with
        | .ok, some addr, some pdu =>
          (.success, reply P { r with port := { r.port with line := line }, node := node } addr pdu)
        | _, _, _ =>
          (.rejected, { r with port := Port.drain { r.port with line := line }, node := node })) ∧
      Coming lateness gap maxWireLen line bs ∧
      (b.finish ≤ line.now ∧ line.now ≤ b.finish + interval + 2 * lateness) ∧
      ∀ a ∈ line.unread.head?, line.now + gap < a.time + interval + 2 * lateness := by
  obtain ⟨hret, hrest⟩ := h.coming.read hgap
  refine ⟨_, ?_, hrest⟩
  rw [receiveOneFrame, hret]
  rfl

/-- An honest request is answered by the sealed response of the server. -/
theorem receive_request {m2s s2m : Channel} {addr : Byte} {req : Bytes}
    (h : Ready lateness gap r.port (b :: bs)) (hgap : interval + 2 * lateness ≤ gap)
    (hm : channelIndex addr .masterToSlave = some m2s) (hs : channelIndex addr .slaveToMaster = some s2m)
    (hkm : (r.node.keyTable m2s).valid = true) (hks : (r.node.keyTable s2m).valid = true)
    (hlen : req.length ≤ maxPdu) (hne : req ≠ [])
    (hwire : items b.arrivals = secureFrameBuild
      (sealFrame P (r.node.keyTable m2s).keys addr (nextValue r.node m2s) req)) :
    ∃ pdu r', (modbusBuildResponse r.tables req).1 = some pdu ∧ pdu.length ≤ maxPdu ∧
      receiveOneFrame P interval r = (.success, r') ∧ Ready lateness gap r'.port bs ∧
      (b.finish ≤ r'.port.line.now ∧ r'.port.line.now ≤ b.finish + interval + 2 * lateness) ∧
      r'.node = afterExchange r.node m2s s2m req pdu ∧
      r'.tables = (modbusBuildResponse r.tables req).2 ∧
      r'.sent = r.sent ++ [secureFrameBuild
        (sealFrame P (r.node.keyTable s2m).keys addr (nextValue r.node s2m) pdu)] := by
  obtain ⟨line, hstep, hcoming, htime, -⟩ := receive_burst (P := P) h hgap
  obtain ⟨func, rest, rfl⟩ := List.exists_cons_of_ne_nil hne
  obtain ⟨pdu, hpdu, -, hhi⟩ := modbusBuildResponse_cons r.tables func rest
  have hfit : pdu.length ≤ maxPdu := by simp only [maxPdu]; omega
  have hsm := channels_ne hm hs
  obtain ⟨hok, haddr, hout, -, hnode⟩ :=
    @verify_sealFrame P r.node _ anyAddr _ _ _ hlen hm hkm (.inr rfl)
  rw [← hwire] at hok haddr hout hnode
  let opened := storeEntry r.node m2s
    (reserve (r.node.ctrTable m2s) (nextValue r.node m2s) ((func :: rest).length + 3))
  have hsend := secureFrameEncryptAndBuild_eq (P := P) (n := opened) hfit hs hks
  have hnext : nextValue opened s2m = nextValue r.node s2m := nextValue_storeEntry_ne _ hsm _
  have hentry : opened.ctrTable s2m = r.node.ctrTable s2m := Function.update_of_ne hsm _ _
  rw [hnext, hentry] at hsend
  obtain ⟨hwrite, hwrites⟩ := serialPortWrite_of_no_failure h.writes
    (secureFrameBuild (sealFrame P (opened.keyTable s2m).keys addr (nextValue r.node s2m) pdu))
  rcases hresp : modbusBuildResponse r.tables (func :: rest) with ⟨response, tables⟩
  obtain rfl : response = some pdu := by rwa [hresp] at hpdu
  refine ⟨pdu, reply P { r with port := { r.port with line := line }, node := opened } addr
    (func :: rest), rfl, hfit, ?_, ?_⟩
  · rw [hstep]
    simp only [hok, haddr, hout, hnode]
    rfl
  · simp only [reply, hresp, hsend]
    refine ⟨⟨hcoming, hwrites, h.busy⟩, htime, rfl, trivial, ?_⟩
    rw [(serialPortWrite_out _ _).2 hwrite]
    rfl

/-- Junk is dropped, with nothing of the frame behind it. -/
theorem receive_junk (h : Ready lateness gap r.port (b :: bs)) (hgap : interval + 3 * lateness ≤ gap)
    (hjunk : Junk P r.node.keyTable (items b.arrivals) anyAddr .masterToSlave) :
    ∃ r', receiveOneFrame P interval r = (.rejected, r') ∧ Ready lateness gap r'.port bs ∧
      r'.node = r.node ∧ r'.tables = r.tables ∧ r'.sent = r.sent := by
  obtain ⟨line, hstep, hcoming, -, hahead⟩ := receive_burst (P := P) h (by omega)
  obtain ⟨s, hs⟩ := authenticate_of_junk hjunk
  obtain ⟨hne, -, hstatus, -, hnode⟩ := verify_of_error hs
  have hbusy : r.port.busy.headD 0 ≤ lateness := by
    cases hb : r.port.busy with
    | nil => exact Nat.zero_le _
    | cons t ts => exact h.busy t (by simp [hb])
  refine ⟨{ r with port := Port.drain { r.port with line := line } }, ?_, ?_, rfl, rfl, rfl⟩
  · rw [hstep]
    simp only [hstatus, hnode]
    cases s with
    | ok => exact absurd rfl hne
    | _ => rfl
  · refine ⟨hcoming.drain _ fun a ha => ?_, h.writes, fun t ht => h.busy t (List.mem_of_mem_tail ht)⟩
    have := hahead a ha
    simp only
    omega

end Steps

/-- A reservation on `c` moves the next value of that channel only. -/
theorem nextValue_advance (n : Node) (c d : Channel) (len : ℕ) :
    nextValue (storeEntry n c (reserve (n.ctrTable c) (nextValue n c) len)) d =
      nextValue n d + if d = c then numBlocks len else 0 := by
  by_cases h : d = c
  · subst h
    rw [nextValue_reserve, if_pos rfl]
  · rw [nextValue_storeEntry_ne n h, if_neg h]
    simp

theorem nextValue_afterExchange (n : Node) {m2s s2m : Channel} (hne : s2m ≠ m2s) (req pdu : Bytes)
    (d : Channel) : nextValue (afterExchange n m2s s2m req pdu) d =
      nextValue n d + (if d = m2s then numBlocks (req.length + 3) else 0) +
        if d = s2m then numBlocks (pdu.length + 3) else 0 := by
  have hsent := nextValue_advance n m2s
  have hnext := nextValue_storeEntry_ne n hne
    (reserve (n.ctrTable m2s) (nextValue n m2s) (req.length + 3))
  have hentry : (storeEntry n m2s (reserve (n.ctrTable m2s) (nextValue n m2s)
      (req.length + 3))).ctrTable s2m = n.ctrTable s2m := Function.update_of_ne hne _ _
  rw [afterExchange, ← hsent, ← nextValue_advance, hnext, hentry]

/-- Both directions of an address: requests of `sender` are opened by `receiver`, and its replies
by `opener`. -/
def Shared (sender receiver opener : Node) (addr : Byte) : Prop :=
  ∃ m2s s2m, channelIndex addr .masterToSlave = some m2s ∧
    channelIndex addr .slaveToMaster = some s2m ∧
    (SameKey sender receiver m2s ∧ nextValue sender m2s = nextValue receiver m2s) ∧
    SameKey opener receiver s2m ∧ nextValue opener s2m = nextValue receiver s2m

theorem Shared.after {sender receiver opener : Node} {addr other : Byte} {m2s s2m : Channel}
    (h : Shared sender receiver opener other) (hm : channelIndex addr .masterToSlave = some m2s)
    (hs : channelIndex addr .slaveToMaster = some s2m) (req pdu : Bytes) :
    Shared (storeEntry sender m2s (reserve (sender.ctrTable m2s) (nextValue sender m2s) (req.length + 3)))
      (afterExchange receiver m2s s2m req pdu)
      (storeEntry opener s2m (reserve (opener.ctrTable s2m) (nextValue opener s2m) (pdu.length + 3)))
      other := by
  obtain ⟨m, s, hm', hs', ⟨hkm, hvm⟩, hks, hvs⟩ := h
  have hmne : m ≠ s2m := by
    rintro rfl
    cases (channelIndex_injective hm' hs).2
  have hsne : s ≠ m2s := by
    rintro rfl
    cases (channelIndex_injective hs' hm).2
  refine ⟨m, s, hm', hs', ⟨hkm, ?_⟩, hks, ?_⟩
  · rw [nextValue_advance, nextValue_afterExchange _ (channels_ne hm hs), hvm, if_neg hmne]
    simp
  · rw [nextValue_advance, nextValue_afterExchange _ (channels_ne hm hs), hvs, if_neg hsne]
    simp

theorem receiveFrames_served {P : Primitives} {interval lateness gap : ℕ} {sender opener : Node}
    {r : Receiver} {traffic : List Traffic} {bs : List (Burst Byte interval)}
    (hready : Ready lateness gap r.port bs) (hgap : interval + 3 * lateness ≤ gap)
    (hwires : bs.map (fun b => items b.arrivals) = wires P sender traffic)
    (hrequests : ∀ addr pdu, .request addr pdu ∈ traffic →
      Shared sender r.node opener addr ∧ pdu ≠ [] ∧ pdu.length ≤ maxPdu)
    (hjunk : ∀ wire, .junk wire ∈ traffic → Junk P r.node.keyTable wire anyAddr .masterToSlave) :
    let out := receiveFrames P interval traffic.length r
    out.1 = traffic.map Traffic.outcome ∧ out.2.tables = (plainReplies r.tables traffic).2 ∧
      ∃ frames : List (Byte × Bytes), out.2.sent = r.sent ++ frames.map Prod.snd ∧
        List.Forall₂ (fun v reply => v.status = .ok ∧ v.outAddr = some reply.1 ∧
          v.outPdu = some reply.2) (openReplies P opener frames) (plainReplies r.tables traffic).1 := by
  induction traffic generalizing sender opener r bs with
  | nil => exact ⟨rfl, rfl, [], by simp [receiveFrames], .nil⟩
  | cons t traffic ih =>
    cases t with
    | junk wire =>
      obtain ⟨b, bs, rfl, hwire, hwires⟩ := List.map_eq_cons_iff.mp hwires
      obtain ⟨r', hstep, hready', hnode, htables, hsent⟩ := receive_junk (P := P) hready hgap
        (hwire ▸ hjunk wire (by simp))
      obtain ⟨hout, hrun, frames, hframes, hopen⟩ := ih hready' hwires
        (fun addr pdu h => hnode ▸ hrequests addr pdu (by simp [h]))
        (fun w h => hnode ▸ hjunk w (by simp [h]))
      rw [htables] at hrun hopen
      rw [hsent] at hframes
      simp only [List.length_cons, receiveFrames, hstep, List.map_cons]
      exact ⟨by rw [hout]; rfl, hrun, frames, hframes, hopen⟩
    | request addr req =>
      obtain ⟨hshared, hne, hlen⟩ := hrequests addr req (by simp)
      obtain ⟨m2s, s2m, hm, hs, ⟨⟨hkm, hkm', hkeym⟩, hvm⟩, ⟨hks, hks', hkeys⟩, hvs⟩ := hshared
      have hsend := secureFrameEncryptAndBuild_eq (P := P) (n := sender) hlen hm hkm
      simp only [wires, hsend, Option.map_some, Option.toList_some, List.singleton_append] at hwires
      obtain ⟨b, bs, rfl, hwire, hwires⟩ := List.map_eq_cons_iff.mp hwires
      rw [hkeym, hvm] at hwire
      obtain ⟨pdu, r', hpdu, hfit, hstep, hready', -, hnode, htables, hsent⟩ :=
        receive_request (P := P) hready (by omega) hm hs hkm' hks' hlen hne hwire
      obtain ⟨v, hopen, hok, haddr, hout, -⟩ := opens_frame (P := P) (n := opener) hfit hs hks
      rw [← hkeys, ← hvs] at hsent
      generalize secureFrameBuild (sealFrame P (opener.keyTable s2m).keys addr
        (nextValue opener s2m) pdu) = wire at hopen hsent
      obtain ⟨houtcomes, hrun, frames, hframes, hopens⟩ := ih hready' hwires
        (fun other pdu' h => ⟨hnode ▸ (hrequests other pdu' (by simp [h])).1.after hm hs req pdu,
          (hrequests other pdu' (by simp [h])).2⟩)
        (fun w h => hnode ▸ hjunk w (by simp [h]))
      rw [htables] at hrun hopens
      rw [hsent, List.append_assoc] at hframes
      simp only [List.length_cons, receiveFrames, hstep, plainReplies, hpdu, List.map_cons]
      refine ⟨by rw [houtcomes]; rfl, hrun, (addr, wire) :: frames, hframes, ?_⟩
      simp only [openReplies, hopen]
      exact .cons ⟨hok, haddr, hout⟩ hopens

/-- A launch that gets to its loop ends with the result 0 if one of the frames was a success. -/
theorem secureRecvDemo_run {P : Primitives} {args : Args} {opens : Bool} {port : Port} {disk : Disk}
    {interval : ℕ} {r : Receiver} {traffic : List Traffic}
    (hstart : startListening args opens port disk = .ok (interval, r))
    (hframes : args.frames = traffic.length)
    (hout : (receiveFrames P interval traffic.length r).1 = traffic.map Traffic.outcome) :
    let run := secureRecvDemo P args opens port disk
    run.outcomes = traffic.map Traffic.outcome ∧
      run.receiver = (receiveFrames P interval traffic.length r).2 ∧
      (run.exitCode = 0 ↔ ∃ addr pdu, .request addr pdu ∈ traffic) := by
  intro run
  have hrun : run = ⟨if .success ∈ traffic.map Traffic.outcome then 0 else 1,
      traffic.map Traffic.outcome, (receiveFrames P interval traffic.length r).2⟩ := by
    simp only [run, secureRecvDemo, hstart, hframes, hout]
  have hsuccess : .success ∈ traffic.map Traffic.outcome ↔ ∃ addr pdu, .request addr pdu ∈ traffic := by
    rw [List.mem_map]
    constructor
    · rintro ⟨t, ht, hoc⟩
      cases t with
      | request addr pdu => exact ⟨addr, pdu, ht⟩
      | junk wire => cases hoc
    · rintro ⟨addr, pdu, ht⟩
      exact ⟨_, ht, rfl⟩
  rw [hrun, ← hsuccess]
  refine ⟨rfl, rfl, ?_⟩
  simp

/-- The receiver on a noisy line: with requests of at most 253 bytes under counters in step and
anything that fails one of the first four checks between them, all of it separated by pauses,
each request is answered and each piece of junk is rejected, the tables go through what plain
Modbus does with the requests, and the master opens each reply to the plain one. Every launch
of the program that starts so ends so, and with the result 0 if there was a request. -/
theorem noisy_line_served (P : Primitives) (interval lateness gap : ℕ) (sender opener : Node)
    (r : Receiver) (traffic : List Traffic) (bs : List (Burst Byte interval))
    (hready : Ready lateness gap r.port bs) (hgap : interval + 3 * lateness ≤ gap)
    (hwires : bs.map (fun b => items b.arrivals) = wires P sender traffic)
    (hrequests : ∀ addr pdu, .request addr pdu ∈ traffic →
      Shared sender r.node opener addr ∧ pdu ≠ [] ∧ pdu.length ≤ maxPdu)
    (hjunk : ∀ wire, .junk wire ∈ traffic → Junk P r.node.keyTable wire anyAddr .masterToSlave) :
    let out := receiveFrames P interval traffic.length r
    out.1 = traffic.map Traffic.outcome ∧ out.2.tables = (plainReplies r.tables traffic).2 ∧
      (∃ frames : List (Byte × Bytes), out.2.sent = r.sent ++ frames.map Prod.snd ∧
        List.Forall₂ (fun v reply => v.status = .ok ∧ v.outAddr = some reply.1 ∧
          v.outPdu = some reply.2) (openReplies P opener frames) (plainReplies r.tables traffic).1) ∧
      ∀ args opens port disk, startListening args opens port disk = .ok (interval, r) →
        args.frames = traffic.length →
        let run := secureRecvDemo P args opens port disk
        run.outcomes = out.1 ∧ run.receiver = out.2 ∧
          (run.exitCode = 0 ↔ ∃ addr pdu, .request addr pdu ∈ traffic) := by
  intro out
  obtain ⟨hout, htables, hreplies⟩ := receiveFrames_served hready hgap hwires hrequests hjunk
  refine ⟨hout, htables, hreplies, fun args opens port disk hstart hframes => ?_⟩
  rw [hout]
  exact secureRecvDemo_run hstart hframes hout

/-- Keys of slave 1 for both directions. -/
def slaveKeyText : Bytes :=
  ascii ['1', ' ', 'm', '2', 's', ' ', '1', '2', '3', '4', '5', '6', '7', '8', '9', '0', '1', '2', '3',
    '4', '5', '6', ' ', 'a', 'b', 'c', 'd', 'e', 'f', 'g', 'h', 'i', 'j', 'k', 'l', 'm', 'n', 'o', 'p',
    ' ', '0', '0', '0', '0', '0', '0', '0', '0', '\n', '1', ' ', 's', '2', 'm', ' ', 'p', 'o', 'n', 'm',
    'l', 'k', 'j', 'i', 'h', 'g', 'f', 'e', 'd', 'c', 'b', 'a', ' ', '6', '5', '4', '3', '2', '1', '0',
    '9', '8', '7', '6', '5', '4', '3', '2', '1', ' ', '0', '0', '0', '0', '0', '0', '0', '7', '\n']

/-- A launch that receives two stray bytes, and a tenth of a second later a request. -/
theorem noisy_line_served_two :
    let P := leaPrimitives fun _ _ => ⟨List.replicate 32 0, rfl⟩
    let disk : Disk := ⟨Function.update (fun _ => none) keysFile (some slaveKeyText), []⟩
    let master := (demoLoadKeys (some (ascii ['x'])) (startProcess disk)).2
    let frame := sealFrame P (master.keyTable (1, 0)).keys 1 0 [3, 0, 0, 0, 2]
    let line := stream [Burst.instant 20000 1000 1 [2],
      Burst.instant 20000 101000 frame.addr (frame.ciphertext ++ frame.hmac)]
    let run := secureRecvDemo P ⟨ascii ['x'], true, none, some 2⟩ true ⟨⟨0, line, []⟩, [], []⟩ disk
    run.outcomes = [.rejected, .success] ∧ run.exitCode = 0 := by
  intro P disk master frame line
  let node := (ctrStateLoad (ctrStateSetPath master recvStatePath)).2
  have hstart : startListening ⟨ascii ['x'], true, none, some 2⟩ true ⟨⟨0, line, []⟩, [], []⟩ disk =
      .ok (20000, ⟨⟨⟨0, line, []⟩, [], []⟩, node, staticDataModel, []⟩) := rfl
  have hwires : wires P master [.junk [1, 2], .request 1 [3, 0, 0, 0, 2]] =
      [[1, 2], frame.addr :: (frame.ciphertext ++ frame.hmac)] := by
    have hsend := @secureFrameEncryptAndBuild_eq P master 1 [3, 0, 0, 0, 2] .masterToSlave _
      (by decide) rfl rfl
    simp only [wires, hsend]
    rfl
  have hspaced : ∀ T, 101000 ≤ T → Spaced (20000 + 3 * 5000) T 0 (0 + T)
      [Burst.instant 20000 1000 1 [2],
        Burst.instant 20000 101000 frame.addr (frame.ciphertext ++ frame.hmac)] := by
    intro T hT
    simp only [Spaced, Burst.finish_instant, Burst.start_instant]
    exact ⟨by omega, by omega, by omega, by omega, trivial⟩
  have hserved := noisy_line_served P 20000 5000 _ master master
    ⟨⟨⟨0, line, []⟩, [], []⟩, node, staticDataModel, []⟩
    [.junk [1, 2], .request 1 [3, 0, 0, 0, 2]] _ ⟨⟨by simp [Line.Prompt], rfl, ?_, hspaced _ (by decide)⟩,
      by simp, by simp⟩ (Nat.le_refl _) ?_ ?_ ?_
  · obtain ⟨hout, -, -, hlaunch⟩ := hserved
    obtain ⟨houtcomes, -, hexit⟩ := hlaunch _ _ _ _ hstart rfl
    exact ⟨houtcomes.trans hout, hexit.mpr ⟨1, [3, 0, 0, 0, 2], by simp⟩⟩
  · have hframe : (frame.addr :: (frame.ciphertext ++ frame.hmac)).length = 41 :=
      length_build_sealFrame ..
    intro b hb
    rw [← length_items]
    rcases List.mem_pair.mp hb with rfl | rfl
    · rw [Burst.items_instant]
      decide
    · rw [Burst.items_instant, hframe]
      decide
  · rw [hwires]
    simp only [List.map_cons, Burst.items_instant, List.map_nil]
  · intro addr pdu h
    obtain ⟨rfl, rfl⟩ : addr = 1 ∧ pdu = [3, 0, 0, 0, 2] := by simpa using h
    exact ⟨⟨(1, 0), (1, 1), rfl, rfl, ⟨⟨rfl, rfl, rfl⟩, rfl⟩, ⟨rfl, rfl, rfl⟩, rfl⟩, by decide, by decide⟩
  · intro wire h
    obtain rfl : wire = [1, 2] := by simpa using h
    exact .inl rfl

end ModbusSecurity.RecvDemo
