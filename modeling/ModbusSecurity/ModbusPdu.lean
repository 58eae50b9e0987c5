import ModbusSecurity.BitPacking

/-! # The Modbus server

Function codes, the data model and the request and response PDUs of `modbus_pdu.c`. -/
namespace ModbusSecurity.ModbusPdu
open ByteStrings BitPacking

def funcReadCoils : Byte := 0x01
def funcReadDiscreteInputs : Byte := 0x02
def funcReadHoldingRegisters : Byte := 0x03
def funcReadInputRegisters : Byte := 0x04
def funcWriteSingleCoil : Byte := 0x05
def funcWriteSingleRegister : Byte := 0x06
def funcWriteMultipleCoils : Byte := 0x0F
def funcWriteMultipleRegisters : Byte := 0x10

def exceptionBit : Byte := 0x80

def illegalFunction : Byte := 0x01
def illegalDataAddress : Byte := 0x02
def illegalDataValue : Byte := 0x03

def tableSize : ℕ := 128

def maxReadBits : ℕ := 2000
def maxWriteBits : ℕ := 1968
def maxReadRegisters : ℕ := 125
def maxWriteRegisters : ℕ := 123

abbrev Word := BitVec 16

/-- The four tables; coils and discrete inputs take a byte each. -/
structure DataModel where
  holdingRegisters : Vector Word tableSize
  inputRegisters : Vector Word tableSize
  coils : Vector Byte tableSize
  discreteInputs : Vector Byte tableSize
  tableInitialized : Bool

/-- The static tables before the first request. -/
def staticDataModel : DataModel :=
  ⟨Vector.replicate _ 0, Vector.replicate _ 0, Vector.replicate _ 0, Vector.replicate _ 0, false⟩

def ensureTableInitialized (m : DataModel) : DataModel :=
  if m.tableInitialized then m
  else
    { holdingRegisters := Vector.ofFn fun i => BitVec.ofNat 16 (0x1000 + i)
      inputRegisters := Vector.ofFn fun i => BitVec.ofNat 16 (0x2000 + i)
      coils := Vector.ofFn fun i => BitVec.ofNat 8 (i % 2)
      discreteInputs := Vector.ofFn fun i => BitVec.ofNat 8 ((i + 1) % 2)
      tableInitialized := true }

def putU16 (v : Word) : Bytes := [(v >>> 8).setWidth 8, v.setWidth 8]

theorem length_flatMap_putU16 (n : ℕ) (word : ℕ → Word) :
    ((List.range n).flatMap fun i => putU16 (word i)).length = n * 2 := by
  induction n with
  | zero => rfl
  | succ n ih =>
    rw [List.range_succ, List.flatMap_append, List.length_append, ih]
    simp only [List.flatMap_cons, List.flatMap_nil, List.append_nil, putU16, List.length_cons,
      List.length_nil]
    omega

/-- Two bytes from position `pos` on; the callers have checked the length. -/
def getU16 (inp : Bytes) (pos : ℕ) : Word :=
  (inp.getD pos 0).setWidth 16 <<< 8 ||| (inp.getD (pos + 1) 0).setWidth 16

def buildException (func exc_code : Byte) : Bytes := [func ||| exceptionBit, exc_code]

def readRequest (max : ℕ) (func : Byte) (addr value_or_qty : Word) : Option Bytes :=
  if value_or_qty.toNat < 1 ∨ max < value_or_qty.toNat then none
  else some (func :: putU16 addr ++ putU16 value_or_qty)

def writeMultipleCoilsRequest (func : Byte) (addr qty : Word) : Option Bytes :=
  if qty.toNat < 1 ∨ maxWriteBits < qty.toNat then none
  else some (func :: putU16 addr ++ putU16 qty ++
    [BitVec.ofNat 8 (bitsToBytes qty.toNat)] ++ packBits (fun i => i % 2 == 1) qty.toNat)

def writeMultipleRegistersRequest (func : Byte) (addr qty : Word) : Option Bytes :=
  if qty.toNat < 1 ∨ maxWriteRegisters < qty.toNat then none
  else some (func :: putU16 addr ++ putU16 qty ++ [BitVec.ofNat 8 (qty.toNat * 2)] ++
    (List.range qty.toNat).flatMap fun i => putU16 (addr + BitVec.ofNat 16 i))

/-- `modbus_build_request`; `none` is the result `0`, with nothing written. -/
def modbusBuildRequest (func : Byte) (addr value_or_qty : Word) : Option Bytes :=
  if func = funcReadCoils ∨ func = funcReadDiscreteInputs then
    readRequest maxReadBits func addr value_or_qty
  else if func = funcReadHoldingRegisters ∨ func = funcReadInputRegisters then
    readRequest maxReadRegisters func addr value_or_qty
  else if func = funcWriteSingleCoil then
    some (func :: putU16 addr ++ putU16 (if value_or_qty ≠ 0 then 0xFF00 else 0x0000))
  else if func = funcWriteSingleRegister then
    some (func :: putU16 addr ++ putU16 value_or_qty)
  else if func = funcWriteMultipleCoils then writeMultipleCoilsRequest func addr value_or_qty
  else if func = funcWriteMultipleRegisters then
    writeMultipleRegistersRequest func addr value_or_qty
  else none

/-- The loop that stores `value i` in cell `addr + i` for `i < qty`. -/
def writeCells {α : Type} (table : Vector α tableSize) (addr qty : ℕ) (value : ℕ → α) :
    Vector α tableSize :=
  (List.range qty).foldl (fun t i => t.setIfInBounds (addr + i) (value i)) table

def readBits (table : Vector Byte tableSize) (func : Byte) (req : Bytes) : Bytes :=
  if req.length < 5 then buildException func illegalDataValue
  else
    let addr := (getU16 req 1).toNat
    let qty := (getU16 req 3).toNat
    if qty < 1 ∨ maxReadBits < qty then buildException func illegalDataValue
    else if tableSize < addr + qty then buildException func illegalDataAddress
    else func :: BitVec.ofNat 8 (bitsToBytes qty) ::
      packBits (fun i => table.toList.getD (addr + i) 0 != 0) qty

def readRegisters (table : Vector Word tableSize) (func : Byte) (req : Bytes) : Bytes :=
  if req.length < 5 then buildException func illegalDataValue
  else
    let addr := (getU16 req 1).toNat
    let qty := (getU16 req 3).toNat
    if qty < 1 ∨ maxReadRegisters < qty then buildException func illegalDataValue
    else if tableSize < addr + qty then buildException func illegalDataAddress
    else func :: BitVec.ofNat 8 (qty * 2) ::
      (List.range qty).flatMap fun i => putU16 (table.toList.getD (addr + i) 0)

def writeSingleCoil (m : DataModel) (func : Byte) (req : Bytes) : Bytes × DataModel :=
  if req.length < 5 then (buildException func illegalDataValue, m)
  else
    let addr := (getU16 req 1).toNat
    let value := getU16 req 3
    if value ≠ 0x0000 ∧ value ≠ 0xFF00 then (buildException func illegalDataValue, m)
    else if tableSize ≤ addr then (buildException func illegalDataAddress, m)
    else (req.take 5,
      { m with coils := m.coils.setIfInBounds addr (if value = 0xFF00 then 1 else 0) })

def writeSingleRegister (m : DataModel) (func : Byte) (req : Bytes) : Bytes × DataModel :=
  if req.length < 5 then (buildException func illegalDataValue, m)
  else
    let addr := (getU16 req 1).toNat
    if tableSize ≤ addr then (buildException func illegalDataAddress, m)
    else (req.take 5,
      { m with holdingRegisters := m.holdingRegisters.setIfInBounds addr (getU16 req 3) })

/-- Coil `i` of a request with packed bits. -/
def requestBit (req : Bytes) (i : ℕ) : Byte := req.getD (6 + i / 8) 0 >>> (i % 8) &&& 1

def writeMultipleCoils (m : DataModel) (func : Byte) (req : Bytes) : Bytes × DataModel :=
  if req.length < 6 then (buildException func illegalDataValue, m)
  else
    let addr := getU16 req 1
    let qty := getU16 req 3
    let byteCount := (req.getD 5 0).toNat
    if qty.toNat < 1 ∨ maxWriteBits < qty.toNat ∨ byteCount ≠ bitsToBytes qty.toNat ∨
        req.length < 6 + byteCount then (buildException func illegalDataValue, m)
    else if tableSize < addr.toNat + qty.toNat then (buildException func illegalDataAddress, m)
    else (func :: putU16 addr ++ putU16 qty,
      { m with coils := writeCells m.coils addr.toNat qty.toNat (requestBit req) })

def writeMultipleRegisters (m : DataModel) (func : Byte) (req : Bytes) : Bytes × DataModel :=
  if req.length < 6 then (buildException func illegalDataValue, m)
  else
    let addr := getU16 req 1
    let qty := getU16 req 3
    let byteCount := (req.getD 5 0).toNat
    if qty.toNat < 1 ∨ maxWriteRegisters < qty.toNat ∨ byteCount ≠ qty.toNat * 2 ∨
        req.length < 6 + byteCount then (buildException func illegalDataValue, m)
    else if tableSize < addr.toNat + qty.toNat then (buildException func illegalDataAddress, m)
    else (func :: putU16 addr ++ putU16 qty,
      { m with
        holdingRegisters :=
          writeCells m.holdingRegisters addr.toNat qty.toNat fun i => getU16 req (6 + i * 2) })

/-- The `switch` of `modbus_build_response`. -/
def respond (m : DataModel) (func : Byte) (req : Bytes) : Bytes × DataModel :=
  if func = funcReadCoils then (readBits m.coils func req, m)
  else if func = funcReadDiscreteInputs then (readBits m.discreteInputs func req, m)
  else if func = funcReadHoldingRegisters then (readRegisters m.holdingRegisters func req, m)
  else if func = funcReadInputRegisters then (readRegisters m.inputRegisters func req, m)
  else if func = funcWriteSingleCoil then writeSingleCoil m func req
  else if func = funcWriteSingleRegister then writeSingleRegister m func req
  else if func = funcWriteMultipleCoils then writeMultipleCoils m func req
  else if func = funcWriteMultipleRegisters then writeMultipleRegisters m func req
  else (buildException func illegalFunction, m)

/-- `none` is the result `0`, for a request without a function code. -/
def modbusBuildResponse (m : DataModel) (req : Bytes) : Option Bytes × DataModel :=
  match req with
  | [] => (none, m)
  | func :: _ =>
    let r := respond (ensureTableInitialized m) func req
    (some r.1, r.2)

/-- The two bytes of a word, put together again. -/
theorem word_halves (v : Word) :
    ((v >>> 8).setWidth 8).setWidth 16 <<< 8 ||| (v.setWidth 8).setWidth 16 = v := by
  refine BitVec.eq_of_getLsbD_eq fun i hi => ?_
  simp only [BitVec.getLsbD_or, BitVec.getLsbD_shiftLeft, BitVec.getLsbD_setWidth,
    BitVec.getLsbD_ushiftRight]
  by_cases hlow : i < 8
  · simp [hlow, hi]
  · have hhigh : 8 + (i - 8) = i := by omega
    simp [hlow, hi, hhigh, show i - 8 < 8 by omega, show i - 8 < 16 by omega]

theorem putU16_injective {v w : Word} (h : putU16 v = putU16 w) : v = w := by
  obtain ⟨hhigh, hlow⟩ := List.cons.inj h
  rw [← word_halves v, ← word_halves w, hhigh, (List.cons.inj hlow).1]

@[simp] theorem length_putU16 (v : Word) : (putU16 v).length = 2 := rfl

@[simp] theorem length_packBits (bit : ℕ → Bool) (qty : ℕ) :
    (packBits bit qty).length = bitsToBytes qty := (holdsBits_packBits bit qty).length

theorem length_modbusBuildRequest {func : Byte} {addr value_or_qty : Word} {req : Bytes}
    (h : modbusBuildRequest func addr value_or_qty = some req) :
    5 ≤ req.length ∧ req.length ≤ 252 := by
  have hread : ∀ {max : ℕ}, readRequest max func addr value_or_qty = some req → req.length = 5 := by
    intro max h
    obtain rfl := Option.some.inj (Option.ite_none_left_eq_some.mp h).2
    rfl
  unfold modbusBuildRequest at h
  split at h
  · have := hread h
    omega
  split at h
  · have := hread h
    omega
  split at h
  · obtain rfl := Option.some.inj h
    simp
  split at h
  · obtain rfl := Option.some.inj h
    simp
  split at h
  · obtain ⟨hqty, hreq⟩ := Option.ite_none_left_eq_some.mp h
    obtain rfl := Option.some.inj hreq
    simp only [maxWriteBits] at hqty
    simp only [List.length_append, List.length_cons, length_putU16, List.length_nil, length_packBits,
      bitsToBytes]
    omega
  split at h
  · obtain ⟨hqty, hreq⟩ := Option.ite_none_left_eq_some.mp h
    obtain rfl := Option.some.inj hreq
    simp only [maxWriteRegisters] at hqty
    simp only [List.length_append, List.length_cons, length_putU16, List.length_nil,
      length_flatMap_putU16]
    omega
  · cases h

private theorem length_exception (func exc_code : Byte) :
    2 ≤ (buildException func exc_code).length ∧ (buildException func exc_code).length ≤ 252 := by
  simp [buildException]

private theorem length_readBits (table : Vector Byte tableSize) (func : Byte) (req : Bytes) :
    2 ≤ (readBits table func req).length ∧ (readBits table func req).length ≤ 252 := by
  unfold readBits
  split
  · exact length_exception _ _
  simp only
  split
  · exact length_exception _ _
  split
  · exact length_exception _ _
  · rename_i _ hrange
    simp only [tableSize] at hrange
    simp only [List.length_cons, length_packBits, bitsToBytes]
    omega

private theorem length_readRegisters (table : Vector Word tableSize) (func : Byte) (req : Bytes) :
    2 ≤ (readRegisters table func req).length ∧ (readRegisters table func req).length ≤ 252 := by
  unfold readRegisters
  split
  · exact length_exception _ _
  simp only
  split
  · exact length_exception _ _
  split
  · exact length_exception _ _
  · rename_i hqty _
    simp only [maxReadRegisters] at hqty
    simp only [List.length_cons, length_flatMap_putU16]
    omega

private theorem length_writes (m : DataModel) (func : Byte) (req : Bytes) :
    (∀ r, r = writeSingleCoil m func req ∨ r = writeSingleRegister m func req ∨
      r = writeMultipleCoils m func req ∨ r = writeMultipleRegisters m func req →
      2 ≤ r.1.length ∧ r.1.length ≤ 252) := by
  rintro r (rfl | rfl | rfl | rfl)
  · unfold writeSingleCoil
    split
    · exact length_exception _ _
    · simp only
      split
      · exact length_exception _ _
      · split
        · exact length_exception _ _
        · simp only [List.length_take]
          omega
  · unfold writeSingleRegister
    split
    · exact length_exception _ _
    · simp only
      split
      · exact length_exception _ _
      · simp only [List.length_take]
        omega
  · unfold writeMultipleCoils
    split
    · exact length_exception _ _
    · simp only
      split
      · exact length_exception _ _
      · split <;> simp [buildException]
  · unfold writeMultipleRegisters
    split
    · exact length_exception _ _
    · simp only
      split
      · exact length_exception _ _
      · split <;> simp [buildException]

/-- Every response has a function code and at most 252 bytes. -/
theorem length_respond (m : DataModel) (func : Byte) (req : Bytes) :
    2 ≤ (respond m func req).1.length ∧ (respond m func req).1.length ≤ 252 := by
  have hwrite := length_writes m func req
  unfold respond
  split
  · exact length_readBits _ _ _
  split
  · exact length_readBits _ _ _
  split
  · exact length_readRegisters _ _ _
  split
  · exact length_readRegisters _ _ _
  split
  · exact hwrite _ (.inl rfl)
  split
  · exact hwrite _ (.inr (.inl rfl))
  split
  · exact hwrite _ (.inr (.inr (.inl rfl)))
  split
  · exact hwrite _ (.inr (.inr (.inr rfl)))
  · exact length_exception _ _

theorem modbusBuildResponse_cons (m : DataModel) (func : Byte) (rest : Bytes) :
    ∃ reply, (modbusBuildResponse m (func :: rest)).1 = some reply ∧
      2 ≤ reply.length ∧ reply.length ≤ 252 :=
  ⟨_, rfl, length_respond _ _ _⟩

end ModbusSecurity.ModbusPdu
