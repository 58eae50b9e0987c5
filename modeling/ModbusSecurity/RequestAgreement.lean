import ModbusSecurity.ServerAccesses

/-! # What a master asks for and what the server understands

`modbus_build_request` statement by statement, and the answer of `modbus_build_response` to
everything it builds. -/
namespace ModbusSecurity.RequestAgreement
open ByteStrings BitPacking ModbusPdu ModbusRegisters RequestDecisions AccessTraces Program
  ServerAccesses

/-! ### The requests, with their writes -/

def fixedRequestSteps (func : Byte) (addr value : Word) : Server Bool := do
  put 0 func
  putWord 1 addr
  putWord 3 value
  setLen 5
  return true

def readRequestSteps (max : ℕ) (func : Byte) (addr value_or_qty : Word) : Server Bool :=
  if value_or_qty.toNat < 1 ∨ max < value_or_qty.toNat then pure false
  else fixedRequestSteps func addr value_or_qty

def writeMultipleCoilsRequestSteps (func : Byte) (addr qty : Word) : Server Bool := do
  if qty.toNat < 1 ∨ maxWriteBits < qty.toNat then return false
  else
    put 0 func
    putWord 1 addr
    putWord 3 qty
    put 5 (BitVec.ofNat 8 (bitsToBytes qty.toNat))
    memset 6 (bitsToBytes qty.toNat)
    forLoop (fun i => if i % 2 == 1 then orBit 6 i else pure ()) qty.toNat
    setLen (6 + bitsToBytes qty.toNat)
    return true

def writeMultipleRegistersRequestSteps (func : Byte) (addr qty : Word) : Server Bool := do
  if qty.toNat < 1 ∨ maxWriteRegisters < qty.toNat then return false
  else
    put 0 func
    putWord 1 addr
    putWord 3 qty
    put 5 (BitVec.ofNat 8 (qty.toNat * 2))
    forLoop (fun i => putWord (6 + i * 2) (addr + BitVec.ofNat 16 i)) qty.toNat
    setLen (6 + qty.toNat * 2)
    return true

def requestSteps (func : Byte) (addr value_or_qty : Word) : Server Bool :=
  if func = funcReadCoils ∨ func = funcReadDiscreteInputs then
    readRequestSteps maxReadBits func addr value_or_qty
  else if func = funcReadHoldingRegisters ∨ func = funcReadInputRegisters then
    readRequestSteps maxReadRegisters func addr value_or_qty
  else if func = funcWriteSingleCoil then
    fixedRequestSteps func addr (if value_or_qty ≠ 0 then 0xFF00 else 0x0000)
  else if func = funcWriteSingleRegister then fixedRequestSteps func addr value_or_qty
  else if func = funcWriteMultipleCoils then writeMultipleCoilsRequestSteps func addr value_or_qty
  else if func = funcWriteMultipleRegisters then
    writeMultipleRegistersRequestSteps func addr value_or_qty
  else pure false

/-- Nothing at all for the result `0`, else the request in the buffer and its length. -/
def Written (p : Server Bool) (built : Option Bytes) (mem : Memory) : Prop :=
  match built with
  | none => p mem = (false, [], mem)
  | some req => Runs (Access.InBounds 0 req.length) p mem fun returned mem' =>
      returned = true ∧ Writing req mem.model mem' ∧ mem'.outLen = req.length

section Requests
variable {mem : Memory}

theorem written_ite {c : Prop} [Decidable c] {p q : Server Bool} {x y : Option Bytes}
    (hp : c → Written p x mem) (hq : ¬ c → Written q y mem) :
    Written (if c then p else q) (if c then x else y) mem := by
  by_cases hc : c
  · rw [if_pos hc, if_pos hc]
    exact hp hc
  · rw [if_neg hc, if_neg hc]
    exact hq hc

theorem written_none : Written (pure false) none mem := rfl

theorem written_of_length {p : Server Bool} {req : Bytes} (n : ℕ) (hn : req.length = n)
    (h : Runs (Access.InBounds ([] : Bytes).length n) p mem fun returned mem' =>
      returned = true ∧ Writing req mem.model mem' ∧ mem'.outLen = n) : Written p (some req) mem := by
  subst hn
  exact h

theorem written_fixed (func : Byte) (addr value : Word) :
    Written (fixedRequestSteps func addr value) (some (func :: putU16 addr ++ putU16 value)) mem := by
  refine written_of_length 5 rfl ?_
  refine runs_bind (runs_put (writing_nil mem) rfl (by omega)) fun _ _ h => ?_
  refine runs_bind (runs_putWord h rfl (by omega)) fun _ _ h => ?_
  refine runs_bind (runs_putWord h rfl (by omega)) fun _ _ h => ?_
  refine runs_bind (runs_setLen h) fun _ _ h => ?_
  exact runs_pure ⟨rfl, h⟩

theorem written_writeMultipleCoils (func : Byte) (addr qty : Word) :
    Written (writeMultipleCoilsRequestSteps func addr qty) (writeMultipleCoilsRequest func addr qty)
      mem := by
  refine written_ite (fun _ => written_none) fun _ => ?_
  have hcount : ∀ i < qty.toNat, 6 + i / 8 < 6 + bitsToBytes qty.toNat := by
    intro i hi
    simp only [bitsToBytes]
    omega
  refine written_of_length (6 + bitsToBytes qty.toNat) (by simp; omega) ?_
  refine runs_bind (runs_put (writing_nil mem) rfl (by omega)) fun _ _ h => ?_
  refine runs_bind (runs_putWord h rfl (by omega)) fun _ _ h => ?_
  refine runs_bind (runs_putWord h rfl (by omega)) fun _ _ h => ?_
  refine runs_bind (runs_put h rfl (by omega)) fun _ _ h => ?_
  refine runs_bind (runs_memset h rfl le_rfl) fun _ _ h => ?_
  refine runs_bind (runs_forLoop (fun k => Writing (func :: putU16 addr ++ putU16 qty ++
    [BitVec.ofNat 8 (bitsToBytes qty.toNat)] ++ (List.range k).foldl
      (fun buf i => if i % 2 == 1 then setBit buf i else buf)
      (List.replicate (bitsToBytes qty.toNat) 0)) mem.model) h ?_) fun _ _ h => ?_
  · intro i hi mem' h'
    rw [List.range_succ, List.foldl_append, List.foldl_cons, List.foldl_nil]
    split
    · exact runs_orBit h' (hcount i hi)
    · exact runs_pure h'
  · exact runs_bind (runs_setLen h) fun _ _ h => runs_pure ⟨rfl, h⟩

theorem written_writeMultipleRegisters (func : Byte) (addr qty : Word) :
    Written (writeMultipleRegistersRequestSteps func addr qty)
      (writeMultipleRegistersRequest func addr qty) mem := by
  refine written_ite (fun _ => written_none) fun _ => ?_
  refine written_of_length (6 + qty.toNat * 2) (by simp; omega) ?_
  refine runs_bind (runs_put (writing_nil mem) rfl (by omega)) fun _ _ h => ?_
  refine runs_bind (runs_putWord h rfl (by omega)) fun _ _ h => ?_
  refine runs_bind (runs_putWord h rfl (by omega)) fun _ _ h => ?_
  refine runs_bind (runs_put h rfl (by omega)) fun _ _ h => ?_
  refine runs_bind (runs_forLoop (fun k => Writing (func :: putU16 addr ++ putU16 qty ++
    [BitVec.ofNat 8 (qty.toNat * 2)] ++ (List.range k).flatMap
      fun i => putU16 (addr + BitVec.ofNat 16 i)) mem.model) h ?_) fun _ _ h => ?_
  · intro i hi mem' h'
    have hpos : (func :: putU16 addr ++ putU16 qty ++ [BitVec.ofNat 8 (qty.toNat * 2)] ++
        (List.range i).flatMap fun i => putU16 (addr + BitVec.ofNat 16 i)).length = 6 + i * 2 := by
      rw [List.length_append, length_flatMap_putU16]
      rfl
    rw [List.range_succ, List.flatMap_append, List.flatMap_singleton, ← List.append_assoc]
    exact runs_putWord h' hpos (by omega)
  · exact runs_bind (runs_setLen h) fun _ _ h => runs_pure ⟨rfl, h⟩

/-- The steps carry out `modbusBuildRequest`. -/
theorem written_request (mem : Memory) (func : Byte) (addr value_or_qty : Word) :
    Written (requestSteps func addr value_or_qty) (modbusBuildRequest func addr value_or_qty) mem := by
  have hread : ∀ max, Written (readRequestSteps max func addr value_or_qty)
      (readRequest max func addr value_or_qty) mem := fun max =>
    written_ite (fun _ => written_none) fun _ => written_fixed _ _ _
  refine written_ite (fun _ => hread _) fun _ => ?_
  refine written_ite (fun _ => hread _) fun _ => ?_
  refine written_ite (fun _ => written_fixed _ _ _) fun _ => ?_
  refine written_ite (fun _ => written_fixed _ _ _) fun _ => ?_
  refine written_ite (fun _ => written_writeMultipleCoils _ _ _) fun _ => ?_
  exact written_ite (fun _ => written_writeMultipleRegisters _ _ _) fun _ => written_none

end Requests

/-! ### What the server makes of them -/

/-- One of the eight functions, with a quantity between 1 and the maximum of the function. -/
def Requestable (func : Byte) (value_or_qty : Word) : Prop :=
  func ∈ functionCodes ∧
    ∀ max, maxQuantity func = some max → 1 ≤ value_or_qty.toNat ∧ value_or_qty.toNat ≤ max

def cells (func : Byte) (value_or_qty : Word) : ℕ :=
  if (maxQuantity func).isSome then value_or_qty.toNat else 1

/-- The addressed range passes the last cell of the tables. -/
def PassesTables (func : Byte) (addr value_or_qty : Word) : Prop :=
  ∃ i < cells func value_or_qty, tableSize - 1 < addr.toNat + i

/-- The value that a request has for coil `a`. -/
def coilSent (func : Byte) (addr value_or_qty : Word) (a : ℕ) : Option Byte :=
  if func = funcWriteSingleCoil ∧ a = addr.toNat then some (if value_or_qty ≠ 0 then 1 else 0)
  else if func = funcWriteMultipleCoils ∧ addr.toNat ≤ a ∧ a < addr.toNat + value_or_qty.toNat then
    some (BitVec.ofNat 8 ((a - addr.toNat) % 2))
  else none

/-- The value that a request has for holding register `a`. -/
def registerSent (func : Byte) (addr value_or_qty : Word) (a : ℕ) : Option Word :=
  if func = funcWriteSingleRegister ∧ a = addr.toNat then some value_or_qty
  else if func = funcWriteMultipleRegisters ∧ addr.toNat ≤ a ∧
      a < addr.toNat + value_or_qty.toNat then
    some (BitVec.ofNat 16 (addr.toNat + (a - addr.toNat)))
  else none

def bitTable (func : Byte) (m : DataModel) : Option (Vector Byte tableSize) :=
  if func = funcReadCoils then some m.coils
  else if func = funcReadDiscreteInputs then some m.discreteInputs
  else none

def registerTable (func : Byte) (m : DataModel) : Option (Vector Word tableSize) :=
  if func = funcReadHoldingRegisters then some m.holdingRegisters
  else if func = funcReadInputRegisters then some m.inputRegisters
  else none

/-- The requested cells are written and no others, or the reply has exactly the requested ones. -/
structure Performed (m : DataModel) (func : Byte) (addr value_or_qty : Word) (resp : Bytes)
    (m' : DataModel) : Prop where
  coils : ∀ a (h : a < tableSize),
    m'.coils[a] = (coilSent func addr value_or_qty a).getD m.coils[a]
  holdingRegisters : ∀ a (h : a < tableSize),
    m'.holdingRegisters[a] = (registerSent func addr value_or_qty a).getD m.holdingRegisters[a]
  discreteInputs : m'.discreteInputs = m.discreteInputs
  inputRegisters : m'.inputRegisters = m.inputRegisters
  bits : ∀ table, bitTable func m = some table → ∃ count data, resp = func :: count :: data ∧
    count.toNat = data.length ∧ HoldsBits data value_or_qty.toNat
      fun i => table.toList.getD (addr.toNat + i) 0 != 0
  registers : ∀ table, registerTable func m = some table → ∃ count data,
    resp = func :: count :: data ∧ count.toNat = data.length ∧
    data = (List.range value_or_qty.toNat).flatMap
      fun i => putU16 (table.toList.getD (addr.toNat + i) 0)

/-- The answer to a request that a master can build, from tables `m`. -/
structure Understood (m : DataModel) (func : Byte) (addr value_or_qty : Word) (resp : Bytes)
    (m' : DataModel) : Prop where
  function : resp ≠ buildException func illegalFunction
  value : resp ≠ buildException func illegalDataValue
  address : resp = buildException func illegalDataAddress ↔ PassesTables func addr value_or_qty
  rejected : PassesTables func addr value_or_qty → m' = m
  performed : ¬ PassesTables func addr value_or_qty → Performed m func addr value_or_qty resp m'

section Quantities
variable {func : Byte} {addr v : Word} {max : ℕ}

theorem requestable_some (hfunc : func ∈ functionCodes) (hmax : maxQuantity func = some max) :
    Requestable func v ↔ 1 ≤ v.toNat ∧ v.toNat ≤ max := by
  simp only [Requestable, hfunc, hmax, true_and, Option.some.injEq, forall_eq']

theorem requestable_none (hfunc : func ∈ functionCodes) (hmax : maxQuantity func = none) :
    Requestable func v :=
  ⟨hfunc, fun max h => absurd (hmax.symm.trans h) (Option.some_ne_none max).symm⟩

private theorem isSome_guard (req : Bytes) :
    (if v.toNat < 1 ∨ max < v.toNat then none else some req).isSome ↔
      1 ≤ v.toNat ∧ v.toNat ≤ max := by
  split
  · rename_i h
    exact iff_of_false Bool.false_ne_true (by omega)
  · rename_i h
    exact iff_of_true rfl (by omega)

theorem isSome_modbusBuildRequest (func : Byte) (addr v : Word) :
    (modbusBuildRequest func addr v).isSome ↔ Requestable func v := by
  by_cases hfunc : func ∈ functionCodes
  · simp only [functionCodes, List.mem_cons, List.not_mem_nil, or_false] at hfunc
    rcases hfunc with rfl | rfl | rfl | rfl | rfl | rfl | rfl | rfl
    · exact (isSome_guard _).trans (requestable_some (by decide) rfl).symm
    · exact (isSome_guard _).trans (requestable_some (by decide) rfl).symm
    · exact (isSome_guard _).trans (requestable_some (by decide) rfl).symm
    · exact (isSome_guard _).trans (requestable_some (by decide) rfl).symm
    · exact iff_of_true rfl (requestable_none (by decide) rfl)
    · exact iff_of_true rfl (requestable_none (by decide) rfl)
    · exact (isSome_guard _).trans (requestable_some (by decide) rfl).symm
    · exact (isSome_guard _).trans (requestable_some (by decide) rfl).symm
  · refine iff_of_false ?_ fun h => hfunc h.1
    simp only [functionCodes, List.mem_cons, List.not_mem_nil, or_false, not_or] at hfunc
    obtain ⟨h1, h2, h3, h4, h5, h6, h7, h8⟩ := hfunc
    simp [modbusBuildRequest, h1, h2, h3, h4, h5, h6, h7, h8]

theorem cells_pos (h : Requestable func v) : 0 < cells func v := by
  rw [cells]
  cases hmax : maxQuantity func with
  | none => exact Nat.one_pos
  | some max => exact (h.2 max hmax).1

theorem passesTables_iff (h : Requestable func v) :
    PassesTables func addr v ↔ tableSize < addr.toNat + cells func v := by
  have hpos := cells_pos h
  rw [PassesTables, tableSize]
  constructor
  · rintro ⟨i, hi, hpast⟩
    omega
  · intro hpast
    exact ⟨cells func v - 1, by omega, by omega⟩

end Quantities

/-! ### The fields of a request -/

section Fields
variable {data : Bytes}

/-- The two words behind a function code. -/
theorem getU16_header (func : Byte) (addr value : Word) :
    getU16 (func :: putU16 addr ++ putU16 value) 1 = addr ∧
      getU16 (func :: putU16 addr ++ putU16 value) 3 = value :=
  ⟨word_halves addr, word_halves value⟩

theorem getU16_append (front : Bytes) (i : ℕ) :
    getU16 (front ++ data) (front.length + i) = getU16 data i := by
  simp only [getU16, List.getD_eq_getElem?_getD, Nat.add_assoc,
    List.getElem?_append_right (Nat.le_add_right _ _), Nat.add_sub_cancel_left]

theorem getU16_words {n : ℕ} (word : ℕ → Word) {i : ℕ} (hi : i < n) :
    getU16 ((List.range n).flatMap fun i => putU16 (word i)) (i * 2) = word i := by
  induction n with
  | zero => exact absurd hi (Nat.not_lt_zero i)
  | succ n ih =>
    have hlen := length_flatMap_putU16 n word
    rw [List.range_succ, List.flatMap_append, List.flatMap_singleton]
    rcases Nat.lt_succ_iff_lt_or_eq.mp hi with hlt | rfl
    · rw [← ih hlt]
      simp only [getU16, List.getD_eq_getElem?_getD]
      rw [List.getElem?_append_left (by omega), List.getElem?_append_left (by omega)]
    · rw [← hlen]
      exact (getU16_append _ 0).trans (word_halves (word i))

/-- The alternating pattern of a coil request, read back bit by bit. -/
theorem requestBit_packBits (front : Bytes) (hfront : front.length = 6) {qty i : ℕ} (hi : i < qty) :
    requestBit (front ++ packBits (fun i => i % 2 == 1) qty) i = BitVec.ofNat 8 (i % 2) := by
  rw [requestBit_eq, ← hfront, List.drop_left, (holdsBits_packBits _ qty).bits i hi]
  rcases Nat.mod_two_eq_zero_or_one i with h | h <;> rw [h] <;> rfl

end Fields

/-! ### One function -/

section Functions
variable {m m' : DataModel} {func : Byte} {addr v : Word} {body : Bytes}

theorem understood_of_split {r : Bytes × DataModel} (h : Requestable func v)
    (hr : r = if tableSize < addr.toNat + cells func v then
      (buildException func illegalDataAddress, m) else (func :: body, m'))
    (hperformed : addr.toNat + cells func v ≤ tableSize →
      Performed m func addr v (func :: body) m') : Understood m func addr v r.1 r.2 := by
  by_cases hpast : tableSize < addr.toNat + cells func v
  · have hpasses := (passesTables_iff h).mpr hpast
    rw [hr, if_pos hpast]
    constructor
    · exact exception_ne (by decide)
    · exact exception_ne (by decide)
    · exact iff_of_true rfl hpasses
    · exact fun _ => rfl
    · exact fun hinside => absurd hpasses hinside
  · have hinside := mt (passesTables_iff h).mp hpast
    rw [hr, if_neg hpast]
    constructor
    · exact normal_ne_exception h.1 body _
    · exact normal_ne_exception h.1 body _
    · exact iff_of_false (normal_ne_exception h.1 body _) hinside
    · exact fun hpasses => absurd hpasses hinside
    · exact fun _ => hperformed (Nat.le_of_not_lt hpast)

theorem cells_of_max {max : ℕ} (hmax : maxQuantity func = some max) : cells func v = v.toNat := by
  rw [cells, hmax]
  rfl

theorem understood_readBits {table : Vector Byte tableSize} (h : Requestable func v)
    (hmax : maxQuantity func = some maxReadBits) (hbits : bitTable func m = some table)
    (hregisters : registerTable func m = none) (hcoil : ∀ a, coilSent func addr v a = none)
    (hregister : ∀ a, registerSent func addr v a = none) :
    Understood m func addr v (readBits table func (func :: putU16 addr ++ putU16 v)) m := by
  obtain ⟨hlo, hhi⟩ := h.2 _ hmax
  obtain ⟨haddr, hqty⟩ := getU16_header func addr v
  have hread : (readBits table func (func :: putU16 addr ++ putU16 v), m) =
      if tableSize < addr.toNat + cells func v then (buildException func illegalDataAddress, m)
      else (func :: BitVec.ofNat 8 (bitsToBytes v.toNat) ::
        packBits (fun i => table.toList.getD (addr.toNat + i) 0 != 0) v.toNat, m) := by
    have hlen : ¬ (func :: putU16 addr ++ putU16 v).length < 5 := by simp
    have hvalid : ¬ (v.toNat < 1 ∨ maxReadBits < v.toNat) := by omega
    simp only [readBits, if_neg hlen, haddr, hqty, if_neg hvalid, cells_of_max hmax, pair_ite]
  refine understood_of_split h hread fun hinside => ⟨fun a _ => ?_, fun a _ => ?_, rfl, rfl, ?_, ?_⟩
  · rw [hcoil, Option.getD_none]
  · rw [hregister, Option.getD_none]
  · intro table' htable
    obtain rfl := Option.some.inj (hbits.symm.trans htable)
    refine ⟨_, _, rfl, ?_, holdsBits_packBits _ _⟩
    rw [cells_of_max hmax, tableSize] at hinside
    rw [length_packBits, BitVec.toNat_ofNat, bitsToBytes]
    omega
  · intro table' htable
    rw [hregisters] at htable
    cases htable

theorem understood_readRegisters {table : Vector Word tableSize} (h : Requestable func v)
    (hmax : maxQuantity func = some maxReadRegisters) (hbits : bitTable func m = none)
    (hregisters : registerTable func m = some table) (hcoil : ∀ a, coilSent func addr v a = none)
    (hregister : ∀ a, registerSent func addr v a = none) :
    Understood m func addr v (readRegisters table func (func :: putU16 addr ++ putU16 v)) m := by
  obtain ⟨hlo, hhi⟩ := h.2 _ hmax
  obtain ⟨haddr, hqty⟩ := getU16_header func addr v
  have hread : (readRegisters table func (func :: putU16 addr ++ putU16 v), m) =
      if tableSize < addr.toNat + cells func v then (buildException func illegalDataAddress, m)
      else (func :: BitVec.ofNat 8 (v.toNat * 2) ::
        (List.range v.toNat).flatMap fun i => putU16 (table.toList.getD (addr.toNat + i) 0), m) := by
    have hlen : ¬ (func :: putU16 addr ++ putU16 v).length < 5 := by simp
    have hvalid : ¬ (v.toNat < 1 ∨ maxReadRegisters < v.toNat) := by omega
    simp only [readRegisters, if_neg hlen, haddr, hqty, if_neg hvalid, cells_of_max hmax, pair_ite]
  refine understood_of_split h hread fun hinside => ⟨fun a _ => ?_, fun a _ => ?_, rfl, rfl, ?_, ?_⟩
  · rw [hcoil, Option.getD_none]
  · rw [hregister, Option.getD_none]
  · intro table' htable
    rw [hbits] at htable
    cases htable
  · intro table' htable
    obtain rfl := Option.some.inj (hregisters.symm.trans htable)
    refine ⟨_, _, rfl, ?_, rfl⟩
    simp only [maxReadRegisters] at hhi
    rw [length_flatMap_putU16, BitVec.toNat_ofNat]
    omega

/-- A write of one coil, with the value that means on or off. -/
theorem understood_writeSingleCoil : Understood m funcWriteSingleCoil addr v
    (writeSingleCoil m funcWriteSingleCoil (funcWriteSingleCoil :: putU16 addr ++
      putU16 (if v ≠ 0 then 0xFF00 else 0x0000))).1
    (writeSingleCoil m funcWriteSingleCoil (funcWriteSingleCoil :: putU16 addr ++
      putU16 (if v ≠ 0 then 0xFF00 else 0x0000))).2 := by
  generalize hvalue : (if v ≠ 0 then 0xFF00 else 0x0000 : Word) = value
  obtain ⟨haddr, hword⟩ := getU16_header funcWriteSingleCoil addr value
  have hwrite : writeSingleCoil m funcWriteSingleCoil
        (funcWriteSingleCoil :: putU16 addr ++ putU16 value) =
      if tableSize < addr.toNat + cells funcWriteSingleCoil v then
        (buildException funcWriteSingleCoil illegalDataAddress, m)
      else (funcWriteSingleCoil :: (putU16 addr ++ putU16 value),
        { m with coils := m.coils.setIfInBounds addr.toNat (if value = 0xFF00 then 1 else 0) }) := by
    have hlen : ¬ (funcWriteSingleCoil :: putU16 addr ++ putU16 value).length < 5 := by simp
    have hvalid : ¬ (value ≠ 0x0000 ∧ value ≠ 0xFF00) := by
      rw [← hvalue]
      split <;> simp
    simp only [writeSingleCoil, if_neg hlen, haddr, hword, if_neg hvalid]
    exact if_congr Nat.lt_succ_iff.symm rfl rfl
  refine understood_of_split (requestable_none (by decide) rfl) hwrite fun _ =>
    ⟨fun a ha => ?_, fun a _ => ?_, rfl, rfl, ?_, ?_⟩
  · have hbit : (if value = 0xFF00 then 1 else 0 : Byte) = if v ≠ 0 then 1 else 0 := by
      rw [← hvalue]
      split <;> rfl
    have hsent : coilSent funcWriteSingleCoil addr v a =
        if a = addr.toNat then some (if v ≠ 0 then 1 else 0) else none := by
      simp [coilSent, show funcWriteSingleCoil ≠ funcWriteMultipleCoils by decide]
    rw [Vector.getElem_setIfInBounds ha, hbit, hsent]
    by_cases heq : a = addr.toNat
    · rw [if_pos heq.symm, if_pos heq, Option.getD_some]
    · rw [if_neg (Ne.symm heq), if_neg heq, Option.getD_none]
  · rfl
  · exact fun table htable => by cases htable
  · exact fun table htable => by cases htable

theorem understood_writeSingleRegister : Understood m funcWriteSingleRegister addr v
    (writeSingleRegister m funcWriteSingleRegister
      (funcWriteSingleRegister :: putU16 addr ++ putU16 v)).1
    (writeSingleRegister m funcWriteSingleRegister
      (funcWriteSingleRegister :: putU16 addr ++ putU16 v)).2 := by
  obtain ⟨haddr, hword⟩ := getU16_header funcWriteSingleRegister addr v
  have hwrite : writeSingleRegister m funcWriteSingleRegister
        (funcWriteSingleRegister :: putU16 addr ++ putU16 v) =
      if tableSize < addr.toNat + cells funcWriteSingleRegister v then
        (buildException funcWriteSingleRegister illegalDataAddress, m)
      else (funcWriteSingleRegister :: (putU16 addr ++ putU16 v),
        { m with holdingRegisters := m.holdingRegisters.setIfInBounds addr.toNat v }) := by
    have hlen : ¬ (funcWriteSingleRegister :: putU16 addr ++ putU16 v).length < 5 := by simp
    simp only [writeSingleRegister, if_neg hlen, haddr, hword]
    exact if_congr Nat.lt_succ_iff.symm rfl rfl
  refine understood_of_split (requestable_none (by decide) rfl) hwrite fun _ =>
    ⟨fun a _ => ?_, fun a ha => ?_, rfl, rfl, ?_, ?_⟩
  · rfl
  · have hsent : registerSent funcWriteSingleRegister addr v a =
        if a = addr.toNat then some v else none := by
      simp [registerSent, show funcWriteSingleRegister ≠ funcWriteMultipleRegisters by decide]
    rw [Vector.getElem_setIfInBounds ha, hsent]
    by_cases heq : a = addr.toNat
    · rw [if_pos heq.symm, if_pos heq, Option.getD_some]
    · rw [if_neg (Ne.symm heq), if_neg heq, Option.getD_none]
  · exact fun table htable => by cases htable
  · exact fun table htable => by cases htable

/-- The header of a multiple write, the byte count and its data. -/
def writeMultipleRequest (func : Byte) (addr qty : Word) (count : ℕ) (data : Bytes) : Bytes :=
  func :: putU16 addr ++ putU16 qty ++ [BitVec.ofNat 8 count] ++ data

theorem writeMultipleRequest_fields (func : Byte) (addr qty : Word) {count : ℕ} {data : Bytes}
    (hcount : count < 256) (hdata : data.length = count) :
    let req := writeMultipleRequest func addr qty count data
    getU16 req 1 = addr ∧ getU16 req 3 = qty ∧ (req.getD 5 0).toNat = count ∧
      req.length = 6 + count := by
  intro req
  have hget : req.getD 5 0 = BitVec.ofNat 8 count := rfl
  refine ⟨word_halves addr, word_halves qty, ?_, ?_⟩
  · rw [hget, BitVec.toNat_ofNat, Nat.mod_eq_of_lt hcount]
  · rw [← hdata]
    exact List.length_append

theorem understood_writeMultipleCoils (h : Requestable funcWriteMultipleCoils v) :
    Understood m funcWriteMultipleCoils addr v
      (writeMultipleCoils m funcWriteMultipleCoils (writeMultipleRequest funcWriteMultipleCoils addr v
        (bitsToBytes v.toNat) (packBits (fun i => i % 2 == 1) v.toNat))).1
      (writeMultipleCoils m funcWriteMultipleCoils (writeMultipleRequest funcWriteMultipleCoils addr v
        (bitsToBytes v.toNat) (packBits (fun i => i % 2 == 1) v.toNat))).2 := by
  obtain ⟨hlo, hhi⟩ := h.2 maxWriteBits rfl
  have hbyte : bitsToBytes v.toNat < 256 := by
    simp only [maxWriteBits] at hhi
    rw [bitsToBytes]
    omega
  obtain ⟨haddr, hqty, hcount, hlen⟩ := writeMultipleRequest_fields funcWriteMultipleCoils addr v
    hbyte (length_packBits (fun i => i % 2 == 1) v.toNat)
  generalize hreq : writeMultipleRequest funcWriteMultipleCoils addr v (bitsToBytes v.toNat)
    (packBits (fun i => i % 2 == 1) v.toNat) = req at haddr hqty hcount hlen ⊢
  have hwrite : writeMultipleCoils m funcWriteMultipleCoils req =
      if tableSize < addr.toNat + cells funcWriteMultipleCoils v then
        (buildException funcWriteMultipleCoils illegalDataAddress, m)
      else (funcWriteMultipleCoils :: (putU16 addr ++ putU16 v),
        { m with coils := writeCells m.coils addr.toNat v.toNat (requestBit req) }) := by
    have hshort : ¬ req.length < 6 := by omega
    have hvalid : ¬ (v.toNat < 1 ∨ maxWriteBits < v.toNat ∨ bitsToBytes v.toNat ≠ bitsToBytes v.toNat ∨
        req.length < 6 + bitsToBytes v.toNat) := by omega
    simp only [writeMultipleCoils, if_neg hshort, haddr, hqty, hcount, if_neg hvalid]
    rfl
  refine understood_of_split h hwrite fun _ => ⟨fun a ha => ?_, fun a _ => ?_, rfl, rfl, ?_, ?_⟩
  · have hsent : coilSent funcWriteMultipleCoils addr v a =
        if addr.toNat ≤ a ∧ a < addr.toNat + v.toNat then
          some (BitVec.ofNat 8 ((a - addr.toNat) % 2)) else none := by
      simp [coilSent, show funcWriteMultipleCoils ≠ funcWriteSingleCoil by decide]
    rw [getElem_writeCells _ _ _ _ a ha, hsent]
    by_cases hin : addr.toNat ≤ a ∧ a < addr.toNat + v.toNat
    · rw [if_pos hin, if_pos hin, Option.getD_some, ← hreq]
      exact requestBit_packBits _ rfl (by omega)
    · rw [if_neg hin, if_neg hin, Option.getD_none]
  · rfl
  · exact fun table htable => by cases htable
  · exact fun table htable => by cases htable

theorem understood_writeMultipleRegisters (h : Requestable funcWriteMultipleRegisters v) :
    Understood m funcWriteMultipleRegisters addr v
      (writeMultipleRegisters m funcWriteMultipleRegisters
        (writeMultipleRequest funcWriteMultipleRegisters addr v (v.toNat * 2)
          ((List.range v.toNat).flatMap fun i => putU16 (addr + BitVec.ofNat 16 i)))).1
      (writeMultipleRegisters m funcWriteMultipleRegisters
        (writeMultipleRequest funcWriteMultipleRegisters addr v (v.toNat * 2)
          ((List.range v.toNat).flatMap fun i => putU16 (addr + BitVec.ofNat 16 i)))).2 := by
  obtain ⟨hlo, hhi⟩ := h.2 maxWriteRegisters rfl
  have hbyte : v.toNat * 2 < 256 := by
    simp only [maxWriteRegisters] at hhi
    omega
  obtain ⟨haddr, hqty, hcount, hlen⟩ := writeMultipleRequest_fields funcWriteMultipleRegisters addr v
    hbyte ((length_flatMap_putU16 v.toNat fun i => addr + BitVec.ofNat 16 i).trans (by omega))
  generalize hreq : writeMultipleRequest funcWriteMultipleRegisters addr v (v.toNat * 2)
    ((List.range v.toNat).flatMap fun i => putU16 (addr + BitVec.ofNat 16 i)) = req
    at haddr hqty hcount hlen ⊢
  have hwrite : writeMultipleRegisters m funcWriteMultipleRegisters req =
      if tableSize < addr.toNat + cells funcWriteMultipleRegisters v then
        (buildException funcWriteMultipleRegisters illegalDataAddress, m)
      else (funcWriteMultipleRegisters :: (putU16 addr ++ putU16 v),
        { m with
          holdingRegisters :=
            writeCells m.holdingRegisters addr.toNat v.toNat fun i => getU16 req (6 + i * 2) }) := by
    have hshort : ¬ req.length < 6 := by omega
    have hvalid : ¬ (v.toNat < 1 ∨ maxWriteRegisters < v.toNat ∨ v.toNat * 2 ≠ v.toNat * 2 ∨
        req.length < 6 + v.toNat * 2) := by omega
    simp only [writeMultipleRegisters, if_neg hshort, haddr, hqty, hcount, if_neg hvalid]
    rfl
  refine understood_of_split h hwrite fun _ => ⟨fun a _ => ?_, fun a ha => ?_, rfl, rfl, ?_, ?_⟩
  · rfl
  · have hsent : registerSent funcWriteMultipleRegisters addr v a =
        if addr.toNat ≤ a ∧ a < addr.toNat + v.toNat then
          some (BitVec.ofNat 16 (addr.toNat + (a - addr.toNat))) else none := by
      simp [registerSent, show funcWriteMultipleRegisters ≠ funcWriteSingleRegister by decide]
    rw [getElem_writeCells _ _ _ _ a ha, hsent]
    by_cases hin : addr.toNat ≤ a ∧ a < addr.toNat + v.toNat
    · have hi : a - addr.toNat < v.toNat := by omega
      rw [if_pos hin, if_pos hin, Option.getD_some, ← hreq]
      refine (getU16_append (funcWriteMultipleRegisters :: putU16 addr ++ putU16 v ++
        [BitVec.ofNat 8 (v.toNat * 2)]) ((a - addr.toNat) * 2)).trans ?_
      rw [getU16_words _ hi, BitVec.ofNat_add, BitVec.ofNat_toNat, BitVec.setWidth_eq]
    · rw [if_neg hin, if_neg hin, Option.getD_none]
  · exact fun table htable => by cases htable
  · exact fun table htable => by cases htable

/-- The two switches agree, function by function. -/
theorem response_understood {req : Bytes} (m : DataModel)
    (hbuilt : modbusBuildRequest func addr v = some req) :
    ∃ resp, (modbusBuildResponse m req).1 = some resp ∧
      Understood (ensureTableInitialized m) func addr v resp (modbusBuildResponse m req).2 := by
  have h : Requestable func v := (isSome_modbusBuildRequest func addr v).mp (by rw [hbuilt]; rfl)
  generalize hm : ensureTableInitialized m = tables
  suffices hreq : ∃ rest, req = func :: rest ∧
      Understood tables func addr v (respond tables func req).1 (respond tables func req).2 by
    obtain ⟨rest, rfl, hresp⟩ := hreq
    subst hm
    exact ⟨_, rfl, hresp⟩
  have hfunc := h.1
  simp only [functionCodes, List.mem_cons, List.not_mem_nil, or_false] at hfunc
  rcases hfunc with rfl | rfl | rfl | rfl | rfl | rfl | rfl | rfl
  · obtain ⟨-, hsome⟩ := Option.ite_none_left_eq_some.mp hbuilt
    obtain rfl := Option.some.inj hsome
    exact ⟨_, rfl, understood_readBits h rfl rfl rfl (fun _ => rfl) fun _ => rfl⟩
  · obtain ⟨-, hsome⟩ := Option.ite_none_left_eq_some.mp hbuilt
    obtain rfl := Option.some.inj hsome
    exact ⟨_, rfl, understood_readBits h rfl rfl rfl (fun _ => rfl) fun _ => rfl⟩
  · obtain ⟨-, hsome⟩ := Option.ite_none_left_eq_some.mp hbuilt
    obtain rfl := Option.some.inj hsome
    exact ⟨_, rfl, understood_readRegisters h rfl rfl rfl (fun _ => rfl) fun _ => rfl⟩
  · obtain ⟨-, hsome⟩ := Option.ite_none_left_eq_some.mp hbuilt
    obtain rfl := Option.some.inj hsome
    exact ⟨_, rfl, understood_readRegisters h rfl rfl rfl (fun _ => rfl) fun _ => rfl⟩
  · obtain rfl := Option.some.inj hbuilt
    exact ⟨_, rfl, understood_writeSingleCoil⟩
  · obtain rfl := Option.some.inj hbuilt
    exact ⟨_, rfl, understood_writeSingleRegister⟩
  · obtain ⟨-, hsome⟩ := Option.ite_none_left_eq_some.mp hbuilt
    obtain rfl := Option.some.inj hsome
    exact ⟨_, rfl, understood_writeMultipleCoils h⟩
  · obtain ⟨-, hsome⟩ := Option.ite_none_left_eq_some.mp hbuilt
    obtain rfl := Option.some.inj hsome
    exact ⟨_, rfl, understood_writeMultipleRegisters h⟩

end Functions

/-! ### The whole call -/

/-- What a call of `modbus_build_request` returns and writes, and how the server takes it. -/
structure Agreed (func : Byte) (addr value_or_qty : Word) (mem : Memory) (returned : Bool)
    (trace : List Access) (mem' : Memory) : Prop where
  requestable : returned = true ↔ Requestable func value_or_qty
  untouched : returned = false → trace = [] ∧ mem' = mem
  length : returned = true → mem'.outLen ≤ 252 ∧ ∀ a ∈ trace, a.InBounds 0 mem'.outLen
  understood : returned = true → ∀ m : DataModel, ∃ resp,
    (modbusBuildResponse m ((List.range mem'.outLen).map mem'.out)).1 = some resp ∧
    Understood (ensureTableInitialized m) func addr value_or_qty resp
      (modbusBuildResponse m ((List.range mem'.outLen).map mem'.out)).2

/-- Requests and responses agree for every function code, address and quantity, and for every
state of the server's tables. -/
theorem request_agrees (func : Byte) (addr value_or_qty : Word) (mem : Memory) :
    Agreed func addr value_or_qty mem (requestSteps func addr value_or_qty mem).1
      (requestSteps func addr value_or_qty mem).2.1
      (requestSteps func addr value_or_qty mem).2.2 := by
  have hwritten := written_request mem func addr value_or_qty
  have hrequestable := isSome_modbusBuildRequest func addr value_or_qty
  cases hbuilt : modbusBuildRequest func addr value_or_qty with
  | none =>
    have hsteps : requestSteps func addr value_or_qty mem = (false, [], mem) := by
      rwa [hbuilt] at hwritten
    rw [hbuilt] at hrequestable
    rw [hsteps]
    constructor
    · exact hrequestable
    · exact fun _ => ⟨rfl, rfl⟩
    · exact fun h => absurd h Bool.false_ne_true
    · exact fun h => absurd h Bool.false_ne_true
  | some req =>
    rw [hbuilt] at hwritten hrequestable
    obtain ⟨haccesses, hreturned, hwriting, hlen⟩ := hwritten
    obtain ⟨-, hshort⟩ := length_modbusBuildRequest hbuilt
    constructor
    · exact iff_of_true hreturned (hrequestable.mp rfl)
    · intro h
      rw [hreturned] at h
      cases h
    · intro _
      rw [hlen]
      exact ⟨hshort, haccesses⟩
    · intro _ m
      rw [hlen, map_out hwriting]
      exact response_understood m hbuilt

end ModbusSecurity.RequestAgreement
