import ModbusSecurity.AccessTraces
import ModbusSecurity.RequestDecisions
import ModbusSecurity.SecureFraming

/-! # The accesses of the Modbus server

`modbus_build_response` statement by statement, on a response buffer and the four tables,
as a program that reports every byte and every cell it touches. -/
namespace ModbusSecurity.ServerAccesses
open ByteStrings BitPacking ModbusPdu ModbusRegisters RequestDecisions SecureFraming
  KeyStore CounterState AccessTraces Program

/-- A byte of the request, a cell of a table, a byte of the buffer that is filled. -/
inductive Access where
  | request (i : ℕ)
  | cell (i : ℕ)
  | out (i : ℕ)

/-- Bytes of the request, cells of the tables and bytes of the answer that exist. -/
def Access.InBounds (req_len resp_len : ℕ) : Access → Prop
  | .request i => i < req_len
  | .cell i => i < tableSize
  | .out i => i < resp_len

/-- The memory from the buffer of the caller on, its length field, and the tables. -/
structure Memory where
  out : ℕ → Byte
  outLen : ℕ
  model : DataModel

abbrev Server := Program Access Memory

/-! ### Statements -/

def get (req : Bytes) (i : ℕ) : Server Byte := do
  report (.request i)
  return req.getD i 0

def getWord (req : Bytes) (pos : ℕ) : Server Word := do
  let high ← get req pos
  let low ← get req (pos + 1)
  return high.setWidth 16 <<< 8 ||| low.setWidth 16

def put (i : ℕ) (b : Byte) : Server Unit := do
  report (.out i)
  update fun mem => { mem with out := Function.update mem.out i b }

def putWord (i : ℕ) (v : Word) : Server Unit := do
  put i ((v >>> 8).setWidth 8)
  put (i + 1) (v.setWidth 8)

/-- `out[base + i / 8] |= 1 << (i % 8)`. -/
def orBit (base i : ℕ) : Server Unit := do
  report (.out (base + i / 8))
  update fun mem =>
    { mem with
      out := Function.update mem.out (base + i / 8)
        (mem.out (base + i / 8) ||| BitVec.twoPow 8 (i % 8)) }

def memset (base count : ℕ) : Server Unit := forLoop (fun i => put (base + i) 0) count

def getCell {α : Type} (table : DataModel → Vector α tableSize) (zero : α) (i : ℕ) : Server α := do
  report (.cell i)
  let mem ← state
  return (table mem.model).toList.getD i zero

def putCoil (i : ℕ) (b : Byte) : Server Unit := do
  report (.cell i)
  update fun mem =>
    { mem with model := { mem.model with coils := mem.model.coils.setIfInBounds i b } }

def putRegister (i : ℕ) (v : Word) : Server Unit := do
  report (.cell i)
  update fun mem =>
    { mem with
      model := { mem.model with
        holdingRegisters := mem.model.holdingRegisters.setIfInBounds i v } }

def setLen (len : ℕ) : Server Unit := update fun mem => { mem with outLen := len }

def exceptionSteps (func exc_code : Byte) : Server Unit := do
  put 0 (func ||| exceptionBit)
  put 1 exc_code
  setLen 2

/-- `memcpy(resp_pdu, req_pdu, 5)`. -/
def echoSteps (req : Bytes) : Server Unit := do
  forLoop (fun i => do
    let b ← get req i
    put i b) 5
  setLen 5

/-! ### The branches -/

def readBitsSteps (table : DataModel → Vector Byte tableSize) (func : Byte) (req : Bytes) :
    Server Unit := do
  if req.length < 5 then exceptionSteps func illegalDataValue
  else
    let addr ← getWord req 1
    let qty ← getWord req 3
    if qty.toNat < 1 ∨ maxReadBits < qty.toNat then exceptionSteps func illegalDataValue
    else if tableSize < addr.toNat + qty.toNat then exceptionSteps func illegalDataAddress
    else
      put 0 func
      put 1 (BitVec.ofNat 8 (bitsToBytes qty.toNat))
      memset 2 (bitsToBytes qty.toNat)
      forLoop (fun i => do
        let bit ← getCell table 0 (addr.toNat + i)
        if bit != 0 then orBit 2 i else pure ()) qty.toNat
      setLen (2 + bitsToBytes qty.toNat)

def readRegistersSteps (table : DataModel → Vector Word tableSize) (func : Byte) (req : Bytes) :
    Server Unit := do
  if req.length < 5 then exceptionSteps func illegalDataValue
  else
    let addr ← getWord req 1
    let qty ← getWord req 3
    if qty.toNat < 1 ∨ maxReadRegisters < qty.toNat then exceptionSteps func illegalDataValue
    else if tableSize < addr.toNat + qty.toNat then exceptionSteps func illegalDataAddress
    else
      put 0 func
      put 1 (BitVec.ofNat 8 (qty.toNat * 2))
      forLoop (fun i => do
        let v ← getCell table 0 (addr.toNat + i)
        putWord (2 + i * 2) v) qty.toNat
      setLen (2 + qty.toNat * 2)

def writeSingleCoilSteps (func : Byte) (req : Bytes) : Server Unit := do
  if req.length < 5 then exceptionSteps func illegalDataValue
  else
    let addr ← getWord req 1
    let value ← getWord req 3
    if value ≠ 0x0000 ∧ value ≠ 0xFF00 then exceptionSteps func illegalDataValue
    else if tableSize ≤ addr.toNat then exceptionSteps func illegalDataAddress
    else
      putCoil addr.toNat (if value = 0xFF00 then 1 else 0)
      echoSteps req

def writeSingleRegisterSteps (func : Byte) (req : Bytes) : Server Unit := do
  if req.length < 5 then exceptionSteps func illegalDataValue
  else
    let addr ← getWord req 1
    if tableSize ≤ addr.toNat then exceptionSteps func illegalDataAddress
    else
      let value ← getWord req 3
      putRegister addr.toNat value
      echoSteps req

/-- The five bytes of the answer to a multiple write. -/
def writtenSteps (func : Byte) (addr qty : Word) : Server Unit := do
  put 0 func
  putWord 1 addr
  putWord 3 qty
  setLen 5

def writeMultipleCoilsSteps (func : Byte) (req : Bytes) : Server Unit := do
  if req.length < 6 then exceptionSteps func illegalDataValue
  else
    let addr ← getWord req 1
    let qty ← getWord req 3
    let byteCount ← get req 5
    if qty.toNat < 1 ∨ maxWriteBits < qty.toNat ∨ byteCount.toNat ≠ bitsToBytes qty.toNat ∨
        req.length < 6 + byteCount.toNat then exceptionSteps func illegalDataValue
    else if tableSize < addr.toNat + qty.toNat then exceptionSteps func illegalDataAddress
    else
      forLoop (fun i => do
        let b ← get req (6 + i / 8)
        putCoil (addr.toNat + i) (b >>> (i % 8) &&& 1)) qty.toNat
      writtenSteps func addr qty

def writeMultipleRegistersSteps (func : Byte) (req : Bytes) : Server Unit := do
  if req.length < 6 then exceptionSteps func illegalDataValue
  else
    let addr ← getWord req 1
    let qty ← getWord req 3
    let byteCount ← get req 5
    if qty.toNat < 1 ∨ maxWriteRegisters < qty.toNat ∨ byteCount.toNat ≠ qty.toNat * 2 ∨
        req.length < 6 + byteCount.toNat then exceptionSteps func illegalDataValue
    else if tableSize < addr.toNat + qty.toNat then exceptionSteps func illegalDataAddress
    else
      forLoop (fun i => do
        let v ← getWord req (6 + i * 2)
        putRegister (addr.toNat + i) v) qty.toNat
      writtenSteps func addr qty

/-- One round of `ensure_table_initialized`: cell `i` of the four tables. -/
def initCells (m : DataModel) (i : ℕ) : DataModel :=
  { m with
    holdingRegisters := m.holdingRegisters.setIfInBounds i (BitVec.ofNat 16 (0x1000 + i))
    inputRegisters := m.inputRegisters.setIfInBounds i (BitVec.ofNat 16 (0x2000 + i))
    coils := m.coils.setIfInBounds i (BitVec.ofNat 8 (i % 2))
    discreteInputs := m.discreteInputs.setIfInBounds i (BitVec.ofNat 8 ((i + 1) % 2)) }

def ensureTableInitializedSteps : Server Unit := do
  let mem ← state
  if mem.model.tableInitialized then pure ()
  else
    forLoop (fun i => do
      report (.cell i)
      update fun mem => { mem with model := initCells mem.model i }) tableSize
    update fun mem => { mem with model := { mem.model with tableInitialized := true } }

def respondSteps (func : Byte) (req : Bytes) : Server Unit :=
  if func = funcReadCoils then readBitsSteps DataModel.coils func req
  else if func = funcReadDiscreteInputs then readBitsSteps DataModel.discreteInputs func req
  else if func = funcReadHoldingRegisters then readRegistersSteps DataModel.holdingRegisters func req
  else if func = funcReadInputRegisters then readRegistersSteps DataModel.inputRegisters func req
  else if func = funcWriteSingleCoil then writeSingleCoilSteps func req
  else if func = funcWriteSingleRegister then writeSingleRegisterSteps func req
  else if func = funcWriteMultipleCoils then writeMultipleCoilsSteps func req
  else if func = funcWriteMultipleRegisters then writeMultipleRegistersSteps func req
  else exceptionSteps func illegalFunction

/-- The result is `false` for `0`. -/
def responseSteps (req : Bytes) : Server Bool := do
  if req.length < 1 then return false
  else
    let func ← get req 0
    ensureTableInitializedSteps
    respondSteps func req
    return true

/-! ### What each statement leaves behind -/

/-- The buffer starts with `w`, and the tables are `m`. -/
structure Writing (w : Bytes) (m : DataModel) (mem : Memory) : Prop where
  out : ∀ i (h : i < w.length), mem.out i = w[i]
  model : mem.model = m

section Statements
variable {req w : Bytes} {m : DataModel} {mem : Memory} {resp_len i : ℕ}

theorem writing_nil (mem : Memory) : Writing [] mem.model mem :=
  ⟨fun _ h => absurd h (Nat.not_lt_zero _), rfl⟩

theorem runs_get (hi : i < req.length) :
    Runs (Access.InBounds req.length resp_len) (get req i) mem
      fun b mem' => b = req.getD i 0 ∧ mem' = mem := by
  refine runs_skip (runs_report hi) ?_
  exact runs_pure ⟨rfl, rfl⟩

theorem runs_getWord (hi : i + 1 < req.length) :
    Runs (Access.InBounds req.length resp_len) (getWord req i) mem
      fun v mem' => v = getU16 req i ∧ mem' = mem := by
  refine runs_read (runs_get (by omega)) ?_
  refine runs_read (runs_get hi) ?_
  exact runs_pure ⟨rfl, rfl⟩

theorem runs_put {b : Byte} (h : Writing w m mem) (hi : w.length = i) (hlen : i < resp_len) :
    Runs (Access.InBounds req.length resp_len) (put i b) mem fun _ => Writing (w ++ [b]) m := by
  refine runs_skip (runs_report hlen) ?_
  apply runs_updated
  refine ⟨fun j hj => ?_, h.model⟩
  subst hi
  rw [List.length_append, List.length_singleton] at hj
  by_cases heq : j = w.length
  · simp [heq]
  · have hlt : j < w.length := by omega
    simp [heq, List.getElem_append_left hlt, h.out j hlt]

theorem runs_putWord {v : Word} (h : Writing w m mem) (hi : w.length = i) (hlen : i + 1 < resp_len) :
    Runs (Access.InBounds req.length resp_len) (putWord i v) mem
      fun _ => Writing (w ++ putU16 v) m := by
  refine runs_bind (runs_put h hi (by omega)) fun _ mem' h' => ?_
  refine runs_mono (runs_put h' (by simp [hi]) hlen) fun _ _ h'' => ?_
  rwa [List.append_assoc] at h''

theorem runs_memset {count : ℕ} (h : Writing w m mem) (hi : w.length = i)
    (hlen : i + count ≤ resp_len) :
    Runs (Access.InBounds req.length resp_len) (memset i count) mem
      fun _ => Writing (w ++ List.replicate count 0) m := by
  refine runs_forLoop (fun k => Writing (w ++ List.replicate k 0) m) (by simpa using h) ?_
  intro k hk mem' h'
  refine runs_mono (runs_put h' (by simp [hi]) (by omega)) fun _ _ h'' => ?_
  rwa [List.append_assoc, ← List.replicate_succ'] at h''

theorem runs_orBit {data : Bytes} (h : Writing (w ++ data) m mem)
    (hlen : w.length + i / 8 < resp_len) :
    Runs (Access.InBounds req.length resp_len) (orBit w.length i) mem
      fun _ => Writing (w ++ setBit data i) m := by
  refine runs_skip (runs_report hlen) ?_
  apply runs_updated
  refine ⟨fun j hj => ?_, h.model⟩
  rw [List.length_append, length_setBit] at hj
  have hout := h.out j (by rwa [List.length_append])
  by_cases hw : j < w.length
  · have hne : j ≠ w.length + i / 8 := by omega
    rw [List.getElem_append_left hw] at hout ⊢
    simpa [hne] using hout
  · have hle : w.length ≤ j := by omega
    rw [List.getElem_append_right hle] at hout ⊢
    simp only [setBit, List.getElem_modify]
    by_cases heq : w.length + i / 8 = j
    · subst heq
      simp [hout]
    · have hne : i / 8 ≠ j - w.length := by omega
      simpa [hne, Ne.symm heq] using hout

theorem runs_getCell {α : Type} {table : DataModel → Vector α tableSize} {zero : α}
    (hi : i < tableSize) :
    Runs (Access.InBounds req.length resp_len) (getCell table zero i) mem
      fun a mem' => a = (table mem.model).toList.getD i zero ∧ mem' = mem := by
  refine runs_skip (runs_report hi) ?_
  apply runs_read runs_state
  exact runs_pure ⟨rfl, rfl⟩

theorem runs_putCoil {b : Byte} (h : Writing w m mem) (hi : i < tableSize) :
    Runs (Access.InBounds req.length resp_len) (putCoil i b) mem
      fun _ => Writing w { m with coils := m.coils.setIfInBounds i b } := by
  refine runs_skip (runs_report hi) ?_
  apply runs_updated
  exact ⟨h.out, by rw [h.model]⟩

theorem runs_putRegister {v : Word} (h : Writing w m mem) (hi : i < tableSize) :
    Runs (Access.InBounds req.length resp_len) (putRegister i v) mem
      fun _ => Writing w { m with holdingRegisters := m.holdingRegisters.setIfInBounds i v } := by
  refine runs_skip (runs_report hi) ?_
  apply runs_updated
  exact ⟨h.out, by rw [h.model]⟩

theorem runs_setLen (h : Writing w m mem) :
    Runs (Access.InBounds req.length resp_len) (setLen i) mem
      fun _ mem' => Writing w m mem' ∧ mem'.outLen = i := by
  apply runs_updated
  exact ⟨⟨h.out, h.model⟩, rfl⟩

theorem runs_initCells (hi : i < tableSize) (h : mem.model = m) :
    Runs (Access.InBounds req.length resp_len) (do
      report (.cell i)
      update fun mem => { mem with model := initCells mem.model i }) mem
      fun _ mem' => mem'.model = initCells m i := by
  refine runs_skip (runs_report hi) ?_
  apply runs_updated
  rw [h]

end Statements

/-! ### The first request of a process -/

private theorem setIfInBounds_rounds {α : Type} (value : ℕ → α) (table : Vector α tableSize) :
    (List.range tableSize).foldl (fun t i => t.setIfInBounds i (value i)) table =
      Vector.ofFn fun i : Fin tableSize => value i := by
  have h := getElem_writeCells table 0 tableSize value
  simp only [writeCells, Nat.zero_add] at h
  refine Vector.ext fun a ha => ?_
  rw [h a ha, if_pos ⟨Nat.zero_le a, ha⟩, Vector.getElem_ofFn, Nat.sub_zero]

private theorem initCells_rounds (m : DataModel) (l : List ℕ) :
    l.foldl initCells m =
      { holdingRegisters :=
          l.foldl (fun t i => t.setIfInBounds i (BitVec.ofNat 16 (0x1000 + i))) m.holdingRegisters
        inputRegisters :=
          l.foldl (fun t i => t.setIfInBounds i (BitVec.ofNat 16 (0x2000 + i))) m.inputRegisters
        coils := l.foldl (fun t i => t.setIfInBounds i (BitVec.ofNat 8 (i % 2))) m.coils
        discreteInputs :=
          l.foldl (fun t i => t.setIfInBounds i (BitVec.ofNat 8 ((i + 1) % 2))) m.discreteInputs
        tableInitialized := m.tableInitialized } := by
  induction l generalizing m with
  | nil => rfl
  | cons i l ih =>
    simp only [List.foldl_cons]
    rw [ih]
    rfl

theorem runs_ensureTableInitialized (req : Bytes) (resp_len : ℕ) (mem : Memory) :
    Runs (Access.InBounds req.length resp_len) ensureTableInitializedSteps mem
      fun _ mem' => mem'.model = ensureTableInitialized mem.model := by
  apply runs_read runs_state
  cases hinit : mem.model.tableInitialized with
  | true => exact runs_pure (by simp [ensureTableInitialized, hinit])
  | false =>
    refine runs_bind (runs_forLoop
      (fun k mem' => mem'.model = (List.range k).foldl initCells mem.model) rfl ?_) ?_
    · intro i hi mem' h'
      rw [List.range_succ, List.foldl_append]
      exact runs_initCells hi h'
    · intro _ mem' h'
      apply runs_updated
      simp only [h', initCells_rounds, setIfInBounds_rounds, ensureTableInitialized, hinit]
      rfl

/-! ### What each branch answers -/

/-- The program leaves the answer in the buffer and its length in the length field, and
touches nothing beyond it. -/
def Answered (p : Server Unit) (req : Bytes) (r : Bytes × DataModel) (mem : Memory) : Prop :=
  Runs (Access.InBounds req.length r.1.length) p mem
    fun _ mem' => Writing r.1 r.2 mem' ∧ mem'.outLen = r.1.length

section Branches
variable {req : Bytes} {mem : Memory}

theorem answered_of_length {p : Server Unit} {r : Bytes × DataModel} (n : ℕ) (hn : r.1.length = n)
    (h : Runs (Access.InBounds req.length n) p mem
      fun _ mem' => Writing r.1 r.2 mem' ∧ mem'.outLen = n) : Answered p req r mem := by
  subst hn
  exact h

theorem answered_ite {c : Prop} [Decidable c] {p q : Server Unit} {r r' : Bytes × DataModel}
    (hp : c → Answered p req r mem) (hq : ¬ c → Answered q req r' mem) :
    Answered (if c then p else q) req (if c then r else r') mem := by
  by_cases hc : c
  · rw [if_pos hc, if_pos hc]
    exact hp hc
  · rw [if_neg hc, if_neg hc]
    exact hq hc

theorem answered_exception (func exc_code : Byte) :
    Answered (exceptionSteps func exc_code) req (buildException func exc_code, mem.model) mem := by
  refine runs_bind (runs_put (writing_nil mem) rfl Nat.two_pos) fun _ _ h => ?_
  refine runs_bind (runs_put h rfl Nat.one_lt_two) fun _ _ h => ?_
  exact runs_setLen h

/-- The bits of the cells are set one by one in a cleared answer. -/
theorem answered_readBits (table : DataModel → Vector Byte tableSize) (func : Byte) :
    Answered (readBitsSteps table func req) req (readBits (table mem.model) func req, mem.model)
      mem := by
  unfold readBitsSteps
  simp only [readBits, pair_ite]
  refine answered_ite (fun _ => answered_exception _ _) fun hlen => ?_
  refine runs_read (runs_getWord (by omega)) ?_
  refine runs_read (runs_getWord (by omega)) ?_
  refine answered_ite (fun _ => answered_exception _ _) fun _ => ?_
  refine answered_ite (fun _ => answered_exception _ _) fun hrange => ?_
  generalize (getU16 req 1).toNat = addr at hrange ⊢
  generalize (getU16 req 3).toNat = qty at hrange ⊢
  have hcount : ∀ i < qty, 2 + i / 8 < 2 + bitsToBytes qty := by
    intro i hi
    simp only [bitsToBytes]
    omega
  refine answered_of_length (2 + bitsToBytes qty) (by simp; omega) ?_
  refine runs_bind (runs_put (writing_nil mem) rfl (by omega)) fun _ _ h => ?_
  refine runs_bind (runs_put h rfl (by omega)) fun _ _ h => ?_
  refine runs_bind (runs_memset h rfl le_rfl) fun _ _ h => ?_
  refine runs_bind (runs_forLoop (fun k => Writing ([func, BitVec.ofNat 8 (bitsToBytes qty)] ++
    (List.range k).foldl (fun buf i =>
      if (table mem.model).toList.getD (addr + i) 0 != 0 then setBit buf i else buf)
      (List.replicate (bitsToBytes qty) 0)) mem.model) h ?_) fun _ _ h => runs_setLen h
  intro i hi mem' h'
  refine runs_read (runs_getCell (by omega)) ?_
  rw [List.range_succ, List.foldl_append, List.foldl_cons, List.foldl_nil, h'.model]
  split
  · exact runs_orBit h' (hcount i hi)
  · exact runs_pure h'

theorem answered_readRegisters (table : DataModel → Vector Word tableSize) (func : Byte) :
    Answered (readRegistersSteps table func req) req
      (readRegisters (table mem.model) func req, mem.model) mem := by
  unfold readRegistersSteps
  simp only [readRegisters, pair_ite]
  refine answered_ite (fun _ => answered_exception _ _) fun hlen => ?_
  refine runs_read (runs_getWord (by omega)) ?_
  refine runs_read (runs_getWord (by omega)) ?_
  refine answered_ite (fun _ => answered_exception _ _) fun _ => ?_
  refine answered_ite (fun _ => answered_exception _ _) fun hrange => ?_
  generalize (getU16 req 1).toNat = addr at hrange ⊢
  generalize (getU16 req 3).toNat = qty at hrange ⊢
  refine answered_of_length (2 + qty * 2) (by simp; omega) ?_
  refine runs_bind (runs_put (writing_nil mem) rfl (by omega)) fun _ _ h => ?_
  refine runs_bind (runs_put h rfl (by omega)) fun _ _ h => ?_
  refine runs_bind (runs_forLoop (fun k => Writing ([func, BitVec.ofNat 8 (qty * 2)] ++
    (List.range k).flatMap fun i => putU16 ((table mem.model).toList.getD (addr + i) 0)) mem.model)
    h ?_) fun _ _ h => runs_setLen h
  intro i hi mem' h'
  refine runs_read (runs_getCell (by omega)) ?_
  have hpos : ([func, BitVec.ofNat 8 (qty * 2)] ++ (List.range i).flatMap fun i =>
      putU16 ((table mem.model).toList.getD (addr + i) 0)).length = 2 + i * 2 := by
    rw [List.length_append, length_flatMap_putU16]
    rfl
  rw [List.range_succ, List.flatMap_append, List.flatMap_singleton, ← List.append_assoc, h'.model]
  exact runs_putWord h' hpos (by omega)

/-- The first five bytes of the request, one by one. -/
theorem runs_echo {m : DataModel} {n : ℕ} (h : mem.model = m) (hlen : 5 ≤ req.length) (hn : 5 ≤ n) :
    Runs (Access.InBounds req.length n) (echoSteps req) mem
      fun _ mem' => Writing (req.take 5) m mem' ∧ mem'.outLen = 5 := by
  refine runs_bind (runs_forLoop (fun k => Writing (req.take k) m) ⟨by simp, h⟩ ?_)
    fun _ _ h => runs_setLen h
  intro i hi mem' h'
  refine runs_read (runs_get (by omega)) ?_
  have htake : req.take (i + 1) = req.take i ++ [req.getD i 0] := by
    have hi' : i < req.length := by omega
    rw [List.take_succ_eq_append_getElem hi', List.getD_eq_getElem?_getD,
      List.getElem?_eq_getElem hi', Option.getD_some]
  rw [htake]
  exact runs_put h' (by rw [List.length_take]; omega) (by omega)

theorem answered_writeSingleCoil (func : Byte) :
    Answered (writeSingleCoilSteps func req) req (writeSingleCoil mem.model func req) mem := by
  unfold writeSingleCoilSteps
  refine answered_ite (fun _ => answered_exception _ _) fun hlen => ?_
  refine runs_read (runs_getWord (by omega)) ?_
  refine runs_read (runs_getWord (by omega)) ?_
  refine answered_ite (fun _ => answered_exception _ _) fun _ => ?_
  refine answered_ite (fun _ => answered_exception _ _) fun haddr => ?_
  refine answered_of_length 5 (by rw [List.length_take]; omega) ?_
  refine runs_bind (runs_putCoil (writing_nil mem) (by omega)) fun _ mem' h => ?_
  exact runs_echo h.model (by omega) le_rfl

theorem answered_writeSingleRegister (func : Byte) :
    Answered (writeSingleRegisterSteps func req) req (writeSingleRegister mem.model func req)
      mem := by
  unfold writeSingleRegisterSteps
  refine answered_ite (fun _ => answered_exception _ _) fun hlen => ?_
  refine runs_read (runs_getWord (by omega)) ?_
  refine answered_ite (fun _ => answered_exception _ _) fun haddr => ?_
  refine answered_of_length 5 (by rw [List.length_take]; omega) ?_
  refine runs_read (runs_getWord (by omega)) ?_
  refine runs_bind (runs_putRegister (writing_nil mem) (by omega)) fun _ mem' h => ?_
  exact runs_echo h.model (by omega) le_rfl

theorem runs_written {m : DataModel} {n : ℕ} (h : Writing [] m mem) (func : Byte) (addr qty : Word)
    (hn : 5 ≤ n) :
    Runs (Access.InBounds req.length n) (writtenSteps func addr qty) mem
      fun _ mem' => Writing (func :: putU16 addr ++ putU16 qty) m mem' ∧ mem'.outLen = 5 := by
  refine runs_bind (runs_put h rfl (by omega)) fun _ _ h => ?_
  refine runs_bind (runs_putWord h rfl (by omega)) fun _ _ h => ?_
  refine runs_bind (runs_putWord h rfl (by omega)) fun _ _ h => ?_
  exact runs_setLen h

theorem answered_writeMultipleCoils (func : Byte) :
    Answered (writeMultipleCoilsSteps func req) req (writeMultipleCoils mem.model func req) mem := by
  unfold writeMultipleCoilsSteps
  refine answered_ite (fun _ => answered_exception _ _) fun hlen => ?_
  refine runs_read (runs_getWord (by omega)) ?_
  refine runs_read (runs_getWord (by omega)) ?_
  refine runs_read (runs_get (by omega)) ?_
  refine answered_ite (fun _ => answered_exception _ _) fun hfields => ?_
  refine answered_ite (fun _ => answered_exception _ _) fun hrange => ?_
  refine answered_of_length 5 rfl ?_
  refine runs_bind (runs_forLoop (fun k => Writing [] { mem.model with
    coils := writeCells mem.model.coils (getU16 req 1).toNat k (requestBit req) })
    (writing_nil mem) ?_) fun _ _ h => runs_written h func _ _ le_rfl
  intro i hi mem' h'
  have hbyte : 6 + i / 8 < req.length := by
    simp only [bitsToBytes] at hfields
    omega
  refine runs_read (runs_get hbyte) ?_
  rw [writeCells, List.range_succ, List.foldl_append]
  exact runs_putCoil h' (by omega)

theorem answered_writeMultipleRegisters (func : Byte) :
    Answered (writeMultipleRegistersSteps func req) req (writeMultipleRegisters mem.model func req)
      mem := by
  unfold writeMultipleRegistersSteps
  refine answered_ite (fun _ => answered_exception _ _) fun hlen => ?_
  refine runs_read (runs_getWord (by omega)) ?_
  refine runs_read (runs_getWord (by omega)) ?_
  refine runs_read (runs_get (by omega)) ?_
  refine answered_ite (fun _ => answered_exception _ _) fun hfields => ?_
  refine answered_ite (fun _ => answered_exception _ _) fun hrange => ?_
  refine answered_of_length 5 rfl ?_
  refine runs_bind (runs_forLoop (fun k => Writing [] { mem.model with
    holdingRegisters := writeCells mem.model.holdingRegisters (getU16 req 1).toNat k
      fun i => getU16 req (6 + i * 2) })
    (writing_nil mem) ?_) fun _ _ h => runs_written h func _ _ le_rfl
  intro i hi mem' h'
  refine runs_read (runs_getWord (by omega)) ?_
  rw [writeCells, List.range_succ, List.foldl_append]
  exact runs_putRegister h' (by omega)

theorem answered_respond (func : Byte) :
    Answered (respondSteps func req) req (respond mem.model func req) mem := by
  unfold respondSteps
  refine answered_ite (fun _ => answered_readBits _ _) fun _ => ?_
  refine answered_ite (fun _ => answered_readBits _ _) fun _ => ?_
  refine answered_ite (fun _ => answered_readRegisters _ _) fun _ => ?_
  refine answered_ite (fun _ => answered_readRegisters _ _) fun _ => ?_
  refine answered_ite (fun _ => answered_writeSingleCoil _) fun _ => ?_
  refine answered_ite (fun _ => answered_writeSingleRegister _) fun _ => ?_
  refine answered_ite (fun _ => answered_writeMultipleCoils _) fun _ => ?_
  exact answered_ite (fun _ => answered_writeMultipleRegisters _) fun _ => answered_exception _ _

theorem answered_response (mem : Memory) (func : Byte) (rest : Bytes) :
    Runs (Access.InBounds (func :: rest).length
      (respond (ensureTableInitialized mem.model) func (func :: rest)).1.length)
      (responseSteps (func :: rest)) mem fun returned mem' => returned = true ∧
        Writing (respond (ensureTableInitialized mem.model) func (func :: rest)).1
          (respond (ensureTableInitialized mem.model) func (func :: rest)).2 mem' ∧
        mem'.outLen = (respond (ensureTableInitialized mem.model) func (func :: rest)).1.length := by
  unfold responseSteps
  have hlen : ¬ (func :: rest).length < 1 := Nat.not_lt.mpr (Nat.succ_pos rest.length)
  rw [if_neg hlen]
  refine runs_read (runs_get (Nat.succ_pos rest.length)) ?_
  refine runs_bind (runs_ensureTableInitialized _ _ _) fun _ mem' hinit => ?_
  have hanswer : Answered (respondSteps func (func :: rest)) _ _ mem' := answered_respond func
  rw [hinit] at hanswer
  exact runs_bind hanswer fun _ _ h => runs_pure ⟨rfl, h⟩

end Branches

/-! ### The whole call -/

/-- What a call touches, what it returns and where its answer can go. -/
structure Bounded (req : Bytes) (mem : Memory) (returned : Bool) (trace : List Access)
    (mem' : Memory) : Prop where
  accesses : ∀ a ∈ trace, a.InBounds req.length mem'.outLen
  refused : returned = false → req = [] ∧ trace = [] ∧ mem' = mem
  length : returned = true → 2 ≤ mem'.outLen ∧ mem'.outLen ≤ 252
  response : modbusBuildResponse mem.model req =
    (if returned then some ((List.range mem'.outLen).map mem'.out) else none, mem'.model)
  sealed : returned = true → ∀ (P : Primitives) (n : Node) (addr : Byte) (dir : KeyDirection)
    (c : Channel), channelIndex addr dir = some c → (n.keyTable c).valid = true →
    (secureFrameEncryptAndBuild P n addr ((List.range mem'.outLen).map mem'.out) dir).1.isSome

theorem map_out {w : Bytes} {m : DataModel} {mem : Memory} (h : Writing w m mem) :
    (List.range w.length).map mem.out = w := by
  refine List.ext_getElem (by simp) fun i hi hw => ?_
  rw [List.getElem_map, List.getElem_range, h.out i hw]

/-- Every access of `modbus_build_response` is in bounds, for every request and every state of
the tables, and its answer fits the encoder. -/
theorem response_bounded (req : Bytes) (mem : Memory) :
    Bounded req mem (responseSteps req mem).1 (responseSteps req mem).2.1
      (responseSteps req mem).2.2 := by
  cases req with
  | nil =>
    constructor
    · exact fun _ h => absurd h List.not_mem_nil
    · exact fun _ => ⟨rfl, rfl, rfl⟩
    · exact fun h => absurd h Bool.false_ne_true
    · rfl
    · exact fun h => absurd h Bool.false_ne_true
  | cons func rest =>
    obtain ⟨haccesses, hreturned, hwriting, hlen⟩ := answered_response mem func rest
    have hsize := length_respond (ensureTableInitialized mem.model) func (func :: rest)
    constructor
    · rwa [hlen]
    · intro h
      rw [hreturned] at h
      cases h
    · intro _
      rwa [hlen]
    · rw [hreturned, hlen, map_out hwriting, hwriting.model]
      rfl
    · intro _ P n addr dir c hc hkey
      rw [hlen, map_out hwriting, secureFrameEncryptAndBuild_eq (by simp only [maxPdu]; omega) hc hkey]
      rfl

end ModbusSecurity.ServerAccesses
