import ModbusSecurity.ModbusSelfTest
import ModbusSecurity.SecureFraming

/-! # The demo program

The menu of `main.c` over an explicit process: the mode, the configuration, the tables of
the key store, the counters and the Modbus server, and the directory it runs in. -/
namespace ModbusSecurity.SecureDemo
open ByteStrings TextStreams KeyStore CounterState SecureFraming LeaOnline ModbusPdu ModbusSelfTest

def sentFramePath : Bytes :=
  ascii ['s', 'e', 'n', 't', '_', 'f', 'r', 'a', 'm', 'e', '.', 'b', 'i', 'n']

def recvStatePath : Bytes :=
  ascii ['c', 't', 'r', '_', 's', 't', 'a', 't', 'e', '_', 'r', 'e', 'c', 'v', '.', 'd', 'a', 't']

def keysFile : Bytes := ascii ['k', 'e', 'y', 's', '.', 't', 'x', 't']

/-- The file next to the executable, if the path fits into `out_size` bytes. -/
def exeRelativePath (argv0 filename : Bytes) (out_size : ℕ) : Bytes :=
  let dir := (argv0.reverse.dropWhile (· ≠ ch '/')).reverse
  if dir ≠ [] ∧ dir.length + filename.length < out_size then dir ++ filename
  else filename.take (out_size - 1)

/-- `argv0` is `none` for a null pointer. -/
def keyPaths (argv0 : Option Bytes) : List Bytes :=
  let keymgmt := ascii ['k', 'e', 'y', 'm', 'g', 'm', 't', '/'] ++ keysFile
  keysFile :: (argv0.map fun a => exeRelativePath a keysFile 512).toList ++
    [keymgmt, ascii ['s', 'e', 'c', 'u', 'r', 'i', 't', 'y', '/'] ++ keymgmt,
      ascii ['.', '.', '/'] ++ keymgmt]

/-- The first file with an entry decides; the last one does in any case. -/
def loadFirst (n : Node) : List Bytes → Option ℕ × Node
  | [] => (none, n)
  | path :: rest =>
    let (text, disk) := n.disk.read path
    let (loaded, keyTable) := keyStoreLoadFile n.keyTable text
    let n := { n with keyTable := keyTable, disk := disk }
    if 0 < loaded.getD 0 ∨ rest = [] then (loaded, n) else loadFirst n rest

def demoLoadKeys (argv0 : Option Bytes) (n : Node) : Option ℕ × Node := loadFirst n (keyPaths argv0)

/-- A serial port during one exchange; `reads` is what a read brings once the given bytes
have been written since it was opened, and `none` an I/O error. -/
structure SerialPort where
  opens : Bool
  writes : Bool
  reads : Bytes → Option Bytes

/-- `serial_port_read` into a buffer of `maxWireLen` bytes. -/
def serialPortRead (port : SerialPort) (written : Bytes) : Option Bytes :=
  (port.reads written).map fun rx => rx.take maxWireLen

structure Config where
  hasPort : Bool
  slaveAddr : Byte
  funcCode : Byte
  startAddr : Word
  valueOrQty : Word

structure Process where
  argv0 : Option Bytes
  isMaster : Bool
  keysLoaded : Bool
  config : Config
  node : Node
  tables : DataModel

def newProcess (argv0 : Option Bytes) (disk : Disk) : Process :=
  ⟨argv0, true, false, ⟨false, 0x01, funcWriteMultipleRegisters, 1, 2⟩, startProcess disk,
    staticDataModel⟩

/-- A frame that was encrypted: its channel, its bytes and its counter blocks. -/
structure SentFrame where
  addr : Byte
  dir : KeyDirection
  result : BuildResult

/-- What one exchange encrypted, wrote to the port and decrypted. -/
structure Exchange where
  sent : Option SentFrame := none
  written : Bytes := []
  received : Option VerifyResult := none

/-- Verifies one frame, and answers it when there is a port. -/
def processIncomingFrame (P : Primitives) (config : Config) (port : Option SerialPort) (rx : Bytes)
    (n : Node) (tables : DataModel) : Exchange × Node × DataModel :=
  let (r, n) := secureFrameVerifyAndDecrypt P n rx config.slaveAddr .masterToSlave
  match r.status, r.outAddr, r.outPdu, port with
  | .ok, some addr, some pdu, some sp =>
    match modbusBuildResponse tables pdu with
    | (none, tables) => ({ received := some r }, n, tables)
    | (some reply, tables) =>
      match secureFrameEncryptAndBuild P n addr reply .slaveToMaster with
      | (none, n) => ({ received := some r }, n, tables)
      | (some sent, n) =>
        ({ sent := some ⟨addr, .slaveToMaster, sent⟩
           written := if sp.writes then sent.wire else []
           received := some r }, n, tables)
  | _, _, _, _ => ({ received := some r }, n, tables)

def runAsMaster (P : Primitives) (config : Config) (port : SerialPort) (n : Node) :
    Exchange × Node :=
  match modbusBuildRequest config.funcCode config.startAddr config.valueOrQty with
  | none => ({}, n)
  | some pdu =>
    match secureFrameEncryptAndBuild P n config.slaveAddr pdu .masterToSlave with
    | (none, n) => ({}, n)
    | (some result, n) =>
      let sent := some ⟨config.slaveAddr, .masterToSlave, result⟩
      if !config.hasPort then
        ({ sent := sent }, { n with disk := (n.disk.write sentFramePath result.wire).2 })
      else if !port.opens || !port.writes then ({ sent := sent }, n)
      else match serialPortRead port result.wire with
        | none | some [] => ({ sent := sent, written := result.wire }, n)
        | some rx =>
          let (r, n) := secureFrameVerifyAndDecrypt P n rx config.slaveAddr .slaveToMaster
          ({ sent := sent, written := result.wire, received := some r }, n)

def runAsSlave (P : Primitives) (config : Config) (port : SerialPort) (n : Node)
    (tables : DataModel) : Exchange × Node × DataModel :=
  if !config.hasPort then
    match n.disk.read sentFramePath with
    | (none, disk) => ({}, { n with disk := disk }, tables)
    | (some rx, disk) =>
      processIncomingFrame P config none (rx.take maxWireLen) { n with disk := disk } tables
  else if !port.opens then ({}, n, tables)
  else match serialPortRead port [] with
    | none | some [] => ({}, n, tables)
    | some rx => processIncomingFrame P config (some port) rx n tables

/-- The state file of a mode. -/
def statePathOf (isMaster : Bool) : Bytes := if isMaster then ctrStateDefaultPath else recvStatePath

def doRunExchange (P : Primitives) (port : SerialPort) (p : Process) : Exchange × Process :=
  if !p.keysLoaded then ({}, p)
  else
    let n := (ctrStateLoad (ctrStateSetPath p.node (statePathOf p.isMaster))).2
    if p.isMaster then
      let (e, n) := runAsMaster P p.config port n
      (e, { p with node := n })
    else
      let (e, n, tables) := runAsSlave P p.config port n p.tables
      (e, { p with node := n, tables := tables })

def doKeyInit (p : Process) : Process :=
  let (loaded, n) := demoLoadKeys p.argv0 p.node
  { p with node := n, keysLoaded := 0 < loaded.getD 0 }

def selfTestAddr : Byte := 0xF0

/-- Sixteen consecutive bytes. -/
def rampKey (first : ℕ) : KeyBytes :=
  ⟨(List.range keySize).map fun i => BitVec.ofNat 8 (first + i), by simp⟩

/-- Encrypts with the public function and decrypts by hand under counter 0. -/
def encryptPathCheck (P : Primitives) (n : Node) : Bool × Option BuildResult × Node :=
  let dk : DirectionalKeys := ⟨rampKey 0x10, rampKey 0x20⟩
  let pdu : Bytes := [0x03, 0x00, 0x00, 0x00, 0x02]
  let n := ctrStateReset n selfTestAddr .masterToSlave
  match keyStoreProvision n.keyTable selfTestAddr .masterToSlave dk with
  | none => (false, none, n)
  | some keyTable =>
    match secureFrameEncryptAndBuild P { n with keyTable := keyTable } selfTestAddr pdu
      .masterToSlave with
    | (none, n) => (false, none, n)
    | (some sent, n) =>
      match secureFrameParse sent.wire with
      | none => (false, some sent, n)
      | some parsed =>
        let adu := (leaCtrCrypt (fun b => P.leaEncrypt dk.encKey b) ctrHigh 0 false
          parsed.ciphertext).out
        let ok := P.hmacLsh256 dk.macKey (parsed.addr :: parsed.ciphertext) == parsed.hmac &&
          crcCalc adu == crcRecv adu && adu.getD 0 0 == selfTestAddr &&
          (adu.drop addrLen).take pdu.length == pdu
        (ok, some sent, n)

/-- Seals a frame by hand under counter 0 and opens it with the public function. -/
def decryptPathCheck (P : Primitives) (n : Node) : Bool × Node :=
  let dk : DirectionalKeys := ⟨rampKey 0x30, rampKey 0x40⟩
  let pdu : Bytes := [0x10, 0x00, 0x01, 0x00, 0x02]
  let ciphertext := (leaCtrCrypt (fun b => P.leaEncrypt dk.encKey b) ctrHigh 0 true
    (plaintextAdu selfTestAddr pdu)).out
  let wire := secureFrameBuild
    ⟨selfTestAddr, ciphertext, P.hmacLsh256 dk.macKey (selfTestAddr :: ciphertext)⟩
  let n := ctrStateReset n selfTestAddr .slaveToMaster
  match keyStoreProvision n.keyTable selfTestAddr .slaveToMaster dk with
  | none => (false, n)
  | some keyTable =>
    let (r, n) := secureFrameVerifyAndDecrypt P { n with keyTable := keyTable } wire selfTestAddr
      .slaveToMaster
    (r.status == .ok && r.outPduLen == some pdu.length && r.outPdu == some pdu, n)

/-- Whether all checks pass, and the frame the first of them encrypted. -/
def doSelfTest (P : Primitives) (p : Process) : Bool × Option BuildResult × Process :=
  let (encrypts, sent, n) := encryptPathCheck P p.node
  let (decrypts, n) := decryptPathCheck P n
  let (answers, tables) := modbusPduSelfTest p.tables
  (answers && decrypts && encrypts, sent, { p with node := n, tables := tables })

/-- The answers to the prompts; `none` is a blank line, a number is what `strtol` reads. -/
structure ConfigInput where
  hasPort : Option Bool
  slaveAddr : Option ℤ
  funcCode : Option ℤ
  startAddr : Option ℤ
  valueOrQty : Option ℤ

def modbusFuncIsSupported (func : Byte) : Bool :=
  func ∈ [funcReadCoils, funcReadDiscreteInputs, funcReadHoldingRegisters, funcReadInputRegisters,
    funcWriteSingleCoil, funcWriteSingleRegister, funcWriteMultipleCoils,
    funcWriteMultipleRegisters]

/-- A prompt for a number: blank or out of range keeps the old value. -/
def prompt {w : ℕ} (lo hi : ℤ) (accept : BitVec w → Bool) (old : BitVec w) : Option ℤ → BitVec w
  | none => old
  | some v => if lo ≤ v ∧ v ≤ hi ∧ accept (BitVec.ofInt w v) then BitVec.ofInt w v else old

/-- The last three prompts appear in master mode only. -/
def doEnvConfig (input : ConfigInput) (p : Process) : Process :=
  let c := { p.config with
    hasPort := input.hasPort.getD p.config.hasPort
    slaveAddr := prompt 1 247 (fun _ => true) p.config.slaveAddr input.slaveAddr }
  let c := if p.isMaster then
      { c with
        funcCode := prompt 0 255 modbusFuncIsSupported c.funcCode input.funcCode
        startAddr := prompt 0 65535 (fun _ => true) c.startAddr input.startAddr
        valueOrQty := prompt 0 65535 (fun _ => true) c.valueOrQty input.valueOrQty }
    else c
  { p with config := c }

inductive MenuOption where
  | switchMode
  | keyInit
  | selfTest
  | envConfig (input : ConfigInput)
  | runExchange (port : SerialPort)

/-- One menu choice, and the frame it encrypted. -/
def choose (P : Primitives) (p : Process) : MenuOption → Option SentFrame × Process
  | .switchMode => (none, { p with isMaster := !p.isMaster })
  | .keyInit => (none, doKeyInit p)
  | .selfTest =>
    let (_, sent, p) := doSelfTest P p
    (sent.map fun r => ⟨selfTestAddr, .masterToSlave, r⟩, p)
  | .envConfig input => (none, doEnvConfig input p)
  | .runExchange port =>
    let (e, p) := doRunExchange P port p
    (e.sent, p)

end ModbusSecurity.SecureDemo
