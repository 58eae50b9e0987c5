import ModbusSecurity.RecvDemo

/-! # The sending demo

`secure_send_demo.c`: a master that writes a growing number of registers to one slave and
checks each reply. -/
namespace ModbusSecurity.SendDemo
open ByteStrings TextStreams TimedStreams SerialLine CounterState SecureFraming ModbusPdu SecureDemo
open RecvDemo

def maxRegisters : ℕ := 123

/-- The registers of frame `i`: from 1 to the maximum over a run, and the maximum in a run of
one frame. -/
def sweepRegisters (count i : ℕ) : ℕ :=
  if 1 < count then 1 + i * (maxRegisters - 1) / (count - 1) else maxRegisters

def sweepPdu (regs i : ℕ) : Bytes :=
  funcWriteMultipleRegisters :: putU16 1 ++ putU16 (BitVec.ofNat 16 regs) ++
    [BitVec.ofNat 8 (regs * 2)] ++
    (List.range regs).flatMap fun reg => putU16 (BitVec.ofNat 16 (reg + i))

/-- Twice the silence that ends a frame, rounded up. -/
def interFrameGapMs (baud : ℕ) : ℕ := (modbusT35Us baud * 2 + 999) / 1000

/-- The other end of the line: what will arrive here once bytes have been written at a time. -/
abbrev Far (σ : Type*) := σ → ℕ → Bytes → List (Arrival Byte) × σ

structure Sender (σ : Type*) where
  port : Port
  node : Node
  far : σ

section Program
variable {σ : Type*}

def slaveAddr : Byte := 0x01

/-- Opens the port for one request; `true` is the result 0. -/
def sendRequestAndVerifyReply (P : Primitives) (answer : Far σ) (baud : ℤ) (opens : Bool)
    (slave_addr : Byte) (frame : Bytes) (s : Sender σ) : Bool × Sender σ :=
  match serialPortOpen baud opens s.port with
  | none => (false, s)
  | some port =>
    let (ok, out, writes) := serialPortWrite port.writes frame
    let (arrivals, far) := answer s.far port.line.now out
    let line := { port.line with unread := port.line.unread ++ arrivals }
    if !ok then (false, ⟨{ port with line := line, writes := writes }, s.node, far⟩)
    else
      let read := serialPortRead (modbusT35Us baud.toNat) maxWireLen line
      let port := { port with line := read.line, writes := writes }
      match read.ret with
      | none | some [] => (false, ⟨port, s.node, far⟩)
      | some rx =>
        let (v, node) := secureFrameVerifyAndDecrypt P s.node rx slave_addr .slaveToMaster
        (v.status == .ok, ⟨port, node, far⟩)

/-- The file of a frame when there is no port. -/
def sentFrameFile (count i : ℕ) : Bytes :=
  if 1 < count then
    ascii ['s', 'e', 'n', 't', '_', 'f', 'r', 'a', 'm', 'e', '_'] ++ decimal i ++
      ascii ['.', 'b', 'i', 'n']
  else sentFramePath

def sendToFile (path frame : Bytes) (n : Node) : Bool × Node :=
  let (opened, disk) := n.disk.write path frame
  (opened, { n with disk := disk })

/-- `opens` says whether the port can be opened for frame `i`. -/
def sendFrame (P : Primitives) (answer : Far σ) (args : Args) (opens : ℕ → Bool) (i : ℕ)
    (s : Sender σ) : Bool × Sender σ :=
  match secureFrameEncryptAndBuild P s.node slaveAddr (sweepPdu (sweepRegisters args.frames i) i)
    .masterToSlave with
  | (none, node) => (false, { s with node := node })
  | (some result, node) =>
    if args.hasPort then
      sendRequestAndVerifyReply P answer (args.baud.getD 115200) (opens i) slaveAddr result.wire
        { s with node := node }
    else
      let (ok, node) := sendToFile (sentFrameFile args.frames i) result.wire node
      (ok, { s with node := node })

def Sender.sleep (s : Sender σ) (ms : ℕ) : Sender σ :=
  { s with port := { s.port with line := { s.port.line with now := s.port.line.now + ms * 1000 } } }

/-- The frames from `i` on, with whether they succeeded. -/
def sendFrames (P : Primitives) (answer : Far σ) (args : Args) (opens : ℕ → Bool) :
    ℕ → ℕ → Sender σ → List Bool × Sender σ
  | 0, _, s => ([], s)
  | remaining + 1, i, s =>
    let (ok, s) := sendFrame P answer args opens i s
    let s := if i + 1 < args.frames then
      s.sleep (interFrameGapMs (args.baud.getD 115200).toNat) else s
    let (oks, s) := sendFrames P answer args opens remaining (i + 1) s
    (ok :: oks, s)

/-- `main`; the log file is left out. -/
def secureSendDemo (P : Primitives) (answer : Far σ) (args : Args) (opens : ℕ → Bool) (port : Port)
    (disk : Disk) (far : σ) : ℕ × List Bool × Sender σ :=
  let (loaded, node) := demoLoadKeys (some args.argv0) (startProcess disk)
  if loaded.getD 0 = 0 then (1, [], ⟨port, node, far⟩)
  else
    let node := (ctrStateLoad (ctrStateSetPath node
      (exeRelativePath args.argv0 ctrStateDefaultPath 512))).2
    let (oks, s) := sendFrames P answer args opens args.frames 0 ⟨port, node, far⟩
    (if false ∈ oks then 1 else 0, oks, s)

/-- A reply that is read is what decides. -/
theorem sendRequestAndVerifyReply_read {P : Primitives} {answer : Far σ} {baud : ℤ} {opens : Bool}
    {slave_addr : Byte} {frame rx : Bytes} {s : Sender σ} {port : Port} {line : Line} {far : σ}
    {arrivals : List (Arrival Byte)} {node : Node} {v : VerifyResult}
    (hopen : serialPortOpen baud opens s.port = some port) (hwrites : .fails ∉ port.writes)
    (hanswer : answer s.far port.line.now frame = (arrivals, far))
    (hline : { port.line with unread := port.line.unread ++ arrivals } = line)
    (hread : (serialPortRead (modbusT35Us baud.toNat) maxWireLen line).ret = some rx) (hne : rx ≠ [])
    (hverify : secureFrameVerifyAndDecrypt P s.node rx slave_addr .slaveToMaster = (v, node)) :
    ∃ s', sendRequestAndVerifyReply P answer baud opens slave_addr frame s = (v.status == .ok, s') ∧
      s'.port.line = (serialPortRead (modbusT35Us baud.toNat) maxWireLen line).line ∧
      .fails ∉ s'.port.writes ∧ s'.port.busy = port.busy ∧ s'.node = node ∧ s'.far = far := by
  obtain ⟨hok, hrest⟩ := serialPortWrite_of_no_failure hwrites frame
  obtain ⟨-, hout⟩ := serialPortWrite_out port.writes frame
  rcases hwrite : serialPortWrite port.writes frame with ⟨ok, out, writes⟩
  rw [hwrite] at hok hrest hout
  obtain rfl : ok = true := hok
  obtain rfl : out = frame := hout rfl
  obtain ⟨first, rest, rfl⟩ := List.exists_cons_of_ne_nil hne
  refine ⟨⟨⟨(serialPortRead (modbusT35Us baud.toNat) maxWireLen line).line, writes, port.busy⟩, node, far⟩,
    ?_, rfl, hrest, rfl, rfl, rfl⟩
  simp [sendRequestAndVerifyReply, hopen, hwrite, hanswer, hline, hread, hverify]

end Program
end ModbusSecurity.SendDemo
