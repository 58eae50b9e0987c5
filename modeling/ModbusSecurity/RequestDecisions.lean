import ModbusSecurity.ModbusRegisters

/-! # Which answer a request gets

The decision table of the Modbus server, stated once for all function codes, and what a
rejected request leaves in the tables. -/
namespace ModbusSecurity.RequestDecisions
open ByteStrings BitPacking ModbusPdu ModbusRegisters

def functionCodes : List Byte :=
  [funcReadCoils, funcReadDiscreteInputs, funcReadHoldingRegisters, funcReadInputRegisters,
    funcWriteSingleCoil, funcWriteSingleRegister, funcWriteMultipleCoils, funcWriteMultipleRegisters]

def startAddr (req : Bytes) : ℕ := (getU16 req 1).toNat

def quantity (req : Bytes) : ℕ := (getU16 req 3).toNat

def byteCount (req : Bytes) : ℕ := (req.getD 5 0).toNat

/-- The protocol maximum of a function with a quantity. -/
def maxQuantity (func : Byte) : Option ℕ :=
  if func = funcReadCoils ∨ func = funcReadDiscreteInputs then some maxReadBits
  else if func = funcReadHoldingRegisters ∨ func = funcReadInputRegisters then some maxReadRegisters
  else if func = funcWriteMultipleCoils then some maxWriteBits
  else if func = funcWriteMultipleRegisters then some maxWriteRegisters
  else none

/-- The data bytes that belong to the quantity of a multiple write. -/
def dataBytes (func : Byte) (qty : ℕ) : Option ℕ :=
  if func = funcWriteMultipleCoils then some (bitsToBytes qty)
  else if func = funcWriteMultipleRegisters then some (qty * 2)
  else none

/-- Five bytes, or six and as many as the request announces. -/
def requiredLength (func : Byte) (req : Bytes) : ℕ :=
  match dataBytes func (quantity req) with
  | some _ => 6 + byteCount req
  | none => 5

def InvalidValue (func : Byte) (req : Bytes) : Prop :=
  req.length < requiredLength func req ∨
  (∃ max, maxQuantity func = some max ∧ (quantity req < 1 ∨ max < quantity req)) ∨
  (∃ count, dataBytes func (quantity req) = some count ∧ byteCount req ≠ count) ∨
  (func = funcWriteSingleCoil ∧ getU16 req 3 ≠ 0x0000 ∧ getU16 req 3 ≠ 0xFF00)

/-- The cells that a request names: one, or as many as its quantity says. -/
def Addressed (func : Byte) (req : Bytes) (a : ℕ) : Prop :=
  startAddr req ≤ a ∧ a < startAddr req + if (maxQuantity func).isSome then quantity req else 1

def InvalidAddress (func : Byte) (req : Bytes) : Prop := ∃ a, Addressed func req a ∧ tableSize ≤ a

/-- The tables behind a request that was carried out: every cell that it writes holds the value
it carries, and nothing else has changed. -/
structure Carried (m : DataModel) (req : Bytes) (m' : DataModel) : Prop where
  coils : ∀ a (h : a < tableSize),
    m'.coils[a] = ((coilWritten req a).map bitCell).getD m.coils[a]
  holdingRegisters : ∀ a (h : a < tableSize),
    m'.holdingRegisters[a] = (registerWritten req a).getD m.holdingRegisters[a]
  discreteInputs : m'.discreteInputs = m.discreteInputs
  inputRegisters : m'.inputRegisters = m.inputRegisters
  tableInitialized : m'.tableInitialized = m.tableInitialized

/-- The answer to a request with a function code, from tables `m`. -/
structure Decided (m : DataModel) (func : Byte) (req : Bytes) (resp : Bytes) (m' : DataModel) :
    Prop where
  function : resp = buildException func illegalFunction ↔ func ∉ functionCodes
  value : resp = buildException func illegalDataValue ↔ func ∈ functionCodes ∧ InvalidValue func req
  address : resp = buildException func illegalDataAddress ↔
    func ∈ functionCodes ∧ ¬ InvalidValue func req ∧ InvalidAddress func req
  normal : (∃ body, resp = func :: body ∧ ∀ code, resp ≠ buildException func code) ↔
    func ∈ functionCodes ∧ ¬ InvalidValue func req ∧ ¬ InvalidAddress func req
  rejected : ∀ code, resp = buildException func code → m' = m
  carried : (∀ code, resp ≠ buildException func code) → Carried m req m'

/-- The three answers of a supported function. -/
structure Classified (m : DataModel) (func : Byte) (req : Bytes) (r : Bytes × DataModel) : Prop where
  value : InvalidValue func req → r = (buildException func illegalDataValue, m)
  address : ¬ InvalidValue func req → InvalidAddress func req →
    r = (buildException func illegalDataAddress, m)
  normal : ¬ InvalidValue func req → ¬ InvalidAddress func req →
    (∃ body, r.1 = func :: body) ∧ Carried m req r.2

section Functions
variable {m : DataModel} {func : Byte} {req : Bytes}

theorem invalidAddress_iff {count : ℕ} (hpos : 0 < count)
    (hcount : (if (maxQuantity func).isSome then quantity req else 1) = count) :
    InvalidAddress func req ↔ tableSize < startAddr req + count := by
  rw [InvalidAddress]
  simp only [Addressed, hcount]
  constructor
  · rintro ⟨a, ⟨-, hlt⟩, hout⟩
    omega
  · intro h
    exact ⟨startAddr req + count - 1, by omega, by omega⟩

theorem invalidAddress_single (hmax : maxQuantity func = none) :
    InvalidAddress func req ↔ tableSize ≤ startAddr req :=
  (invalidAddress_iff Nat.one_pos (by rw [hmax]; rfl)).trans Nat.lt_succ_iff

theorem invalidValue_read {max : ℕ} (hmax : maxQuantity func = some max)
    (hdata : ∀ qty, dataBytes func qty = none) (hcoil : func ≠ funcWriteSingleCoil) :
    InvalidValue func req ↔ req.length < 5 ∨ quantity req < 1 ∨ max < quantity req := by
  simp [InvalidValue, requiredLength, hmax, hdata, hcoil]

theorem invalidValue_multiple {max : ℕ} (count : ℕ → ℕ) (hmax : maxQuantity func = some max)
    (hdata : ∀ qty, dataBytes func qty = some (count qty)) (hcoil : func ≠ funcWriteSingleCoil) :
    InvalidValue func req ↔ req.length < 6 ∨ quantity req < 1 ∨ max < quantity req ∨
      byteCount req ≠ count (quantity req) ∨ req.length < 6 + byteCount req := by
  simp only [InvalidValue, requiredLength, hmax, hdata, hcoil, Option.some.injEq,
    exists_eq_left', false_and, or_false]
  constructor
  · rintro (h | (h | h) | h)
    · exact .inr (.inr (.inr (.inr h)))
    · exact .inr (.inl h)
    · exact .inr (.inr (.inl h))
    · exact .inr (.inr (.inr (.inl h)))
  · rintro (h | h | h | h | h)
    · exact .inl (by omega)
    · exact .inr (.inl (.inl h))
    · exact .inr (.inl (.inr h))
    · exact .inr (.inr h)
    · exact .inl h

/-- The guards of a function in their order: two for the fields, one for the cells. -/
theorem classified_of_guards {short bad out : Prop} [Decidable short] [Decidable bad] [Decidable out]
    {normal : Bytes × DataModel} (hvalue : InvalidValue func req ↔ short ∨ bad)
    (haddress : ¬ InvalidValue func req → (InvalidAddress func req ↔ out))
    (hnormal : (∃ body, normal.1 = func :: body) ∧ Carried m req normal.2) :
    Classified m func req (if short then (buildException func illegalDataValue, m)
      else if bad then (buildException func illegalDataValue, m)
      else if out then (buildException func illegalDataAddress, m) else normal) := by
  have hsplit : ¬ InvalidValue func req → ¬ short ∧ ¬ bad := fun h => not_or.mp (h ∘ hvalue.mpr)
  constructor
  · intro h
    by_cases hshort : short
    · rw [if_pos hshort]
    · rw [if_neg hshort, if_pos ((hvalue.mp h).resolve_left hshort)]
  · intro h hout
    obtain ⟨hshort, hbad⟩ := hsplit h
    rw [if_neg hshort, if_neg hbad, if_pos ((haddress h).mp hout)]
  · intro h hin
    obtain ⟨hshort, hbad⟩ := hsplit h
    rw [if_neg hshort, if_neg hbad, if_neg (hin ∘ (haddress h).mpr)]
    exact hnormal

theorem classified_of_two_guards {short out : Prop} [Decidable short] [Decidable out]
    {normal : Bytes × DataModel} (hvalue : InvalidValue func req ↔ short)
    (haddress : ¬ InvalidValue func req → (InvalidAddress func req ↔ out))
    (hnormal : (∃ body, normal.1 = func :: body) ∧ Carried m req normal.2) :
    Classified m func req (if short then (buildException func illegalDataValue, m)
      else if out then (buildException func illegalDataAddress, m) else normal) := by
  have hnever : InvalidValue func req ↔ short ∨ False := hvalue.trans (or_iff_left not_false).symm
  simpa only [if_false] using classified_of_guards hnever haddress hnormal

theorem invalidAddress_quantity {max : ℕ} (hmax : maxQuantity func = some max)
    (h : ¬ InvalidValue func req) :
    InvalidAddress func req ↔ tableSize < startAddr req + quantity req := by
  have hpos : 0 < quantity req := by
    by_contra hzero
    exact h (.inr (.inl ⟨max, hmax, .inl (by omega)⟩))
  exact invalidAddress_iff hpos (by rw [hmax]; rfl)

theorem pair_ite {α β : Type} (c : Prop) [Decidable c] (x y : α) (b : β) :
    (if c then x else y, b) = if c then (x, b) else (y, b) := apply_ite (fun a => (a, b)) c x y

/-- A function that writes nothing. -/
theorem carried_of_read {rest : Bytes} (hcoil : func ≠ funcWriteSingleCoil)
    (hcoils : func ≠ funcWriteMultipleCoils) (hregister : func ≠ funcWriteSingleRegister)
    (hregisters : func ≠ funcWriteMultipleRegisters) : Carried m (func :: rest) m := by
  have hnocoil := @coilWritten_of_ne (func :: rest) hcoil hcoils
  have hnoregister := @registerWritten_of_ne (func :: rest) hregister hregisters
  constructor
  · intro a ha
    rw [hnocoil a]
    rfl
  · intro a ha
    rw [hnoregister a]
    rfl
  · rfl
  · rfl
  · rfl

/-- A function that writes coils only. -/
theorem carried_of_coils {coils : Vector Byte tableSize}
    (hcoils : ∀ a (h : a < tableSize), coils[a] = ((coilWritten req a).map bitCell).getD m.coils[a])
    (hregister : req.headD 0 ≠ funcWriteSingleRegister)
    (hregisters : req.headD 0 ≠ funcWriteMultipleRegisters) :
    Carried m req { m with coils := coils } := by
  refine ⟨hcoils, fun a ha => ?_, rfl, rfl, rfl⟩
  rw [registerWritten_of_ne hregister hregisters]
  rfl

/-- A function that writes holding registers only. -/
theorem carried_of_registers {registers : Vector Word tableSize}
    (hregisters : ∀ a (h : a < tableSize),
      registers[a] = (registerWritten req a).getD m.holdingRegisters[a])
    (hcoil : req.headD 0 ≠ funcWriteSingleCoil) (hcoils : req.headD 0 ≠ funcWriteMultipleCoils) :
    Carried m req { m with holdingRegisters := registers } := by
  refine ⟨fun a ha => ?_, hregisters, rfl, rfl, rfl⟩
  rw [coilWritten_of_ne hcoil hcoils]
  rfl

theorem classified_readBits (table : Vector Byte tableSize)
    (hmax : maxQuantity func = some maxReadBits) (hdata : ∀ qty, dataBytes func qty = none)
    (hcoil : func ≠ funcWriteSingleCoil) (hread : Carried m req m) :
    Classified m func req (readBits table func req, m) := by
  simp only [readBits, pair_ite]
  exact classified_of_guards (invalidValue_read hmax hdata hcoil) (invalidAddress_quantity hmax)
    ⟨⟨_, rfl⟩, hread⟩

theorem classified_readRegisters (table : Vector Word tableSize)
    (hmax : maxQuantity func = some maxReadRegisters) (hdata : ∀ qty, dataBytes func qty = none)
    (hcoil : func ≠ funcWriteSingleCoil) (hread : Carried m req m) :
    Classified m func req (readRegisters table func req, m) := by
  simp only [readRegisters, pair_ite]
  exact classified_of_guards (invalidValue_read hmax hdata hcoil) (invalidAddress_quantity hmax)
    ⟨⟨_, rfl⟩, hread⟩

theorem classified_writeSingleCoil (rest : Bytes) :
    Classified m funcWriteSingleCoil (funcWriteSingleCoil :: rest)
      (writeSingleCoil m funcWriteSingleCoil (funcWriteSingleCoil :: rest)) := by
  have hvalue : InvalidValue funcWriteSingleCoil (funcWriteSingleCoil :: rest) ↔
      (funcWriteSingleCoil :: rest).length < 5 ∨
        (getU16 (funcWriteSingleCoil :: rest) 3 ≠ 0x0000 ∧
          getU16 (funcWriteSingleCoil :: rest) 3 ≠ 0xFF00) := by
    simp [InvalidValue, requiredLength, show maxQuantity funcWriteSingleCoil = none from rfl,
      show ∀ qty, dataBytes funcWriteSingleCoil qty = none from fun _ => rfl]
  refine classified_of_guards hvalue (fun _ => invalidAddress_single rfl) ⟨⟨_, rfl⟩, ?_⟩
  have hhead : (funcWriteSingleCoil :: rest).headD 0 = funcWriteSingleCoil := rfl
  refine carried_of_coils (fun a ha => ?_) (by rw [hhead]; decide) (by rw [hhead]; decide)
  rw [Vector.getElem_setIfInBounds ha, coilWritten, if_pos hhead]
  by_cases heq : (getU16 (funcWriteSingleCoil :: rest) 1).toNat = a
  · rw [if_pos heq, if_pos heq.symm]
    simp [bitCell]
  · rw [if_neg heq, if_neg (Ne.symm heq)]
    rfl

theorem classified_writeSingleRegister (rest : Bytes) :
    Classified m funcWriteSingleRegister (funcWriteSingleRegister :: rest)
      (writeSingleRegister m funcWriteSingleRegister (funcWriteSingleRegister :: rest)) := by
  have hvalue : InvalidValue funcWriteSingleRegister (funcWriteSingleRegister :: rest) ↔
      (funcWriteSingleRegister :: rest).length < 5 := by
    simp [InvalidValue, requiredLength, show maxQuantity funcWriteSingleRegister = none from rfl,
      show ∀ qty, dataBytes funcWriteSingleRegister qty = none from fun _ => rfl,
      show funcWriteSingleRegister ≠ funcWriteSingleCoil by decide]
  refine classified_of_two_guards hvalue (fun _ => invalidAddress_single rfl) ⟨⟨_, rfl⟩, ?_⟩
  have hhead : (funcWriteSingleRegister :: rest).headD 0 = funcWriteSingleRegister := rfl
  refine carried_of_registers (fun a ha => ?_) (by rw [hhead]; decide) (by rw [hhead]; decide)
  rw [Vector.getElem_setIfInBounds ha, registerWritten, if_pos hhead]
  by_cases heq : (getU16 (funcWriteSingleRegister :: rest) 1).toNat = a
  · rw [if_pos heq, if_pos heq.symm]
    rfl
  · rw [if_neg heq, if_neg (Ne.symm heq)]
    rfl

/-- All the cells of a multiple write, or none: the loop runs behind the guards. -/
theorem classified_writeMultipleCoils (rest : Bytes) :
    Classified m funcWriteMultipleCoils (funcWriteMultipleCoils :: rest)
      (writeMultipleCoils m funcWriteMultipleCoils (funcWriteMultipleCoils :: rest)) := by
  refine classified_of_guards (invalidValue_multiple bitsToBytes rfl (fun _ => rfl) (by decide))
    (invalidAddress_quantity rfl) ⟨⟨_, rfl⟩, ?_⟩
  have hhead : (funcWriteMultipleCoils :: rest).headD 0 = funcWriteMultipleCoils := rfl
  have hother : (funcWriteMultipleCoils :: rest).headD 0 ≠ funcWriteSingleCoil := by
    rw [hhead]
    decide
  refine carried_of_coils (fun a ha => ?_) (by rw [hhead]; decide) (by rw [hhead]; decide)
  rw [getElem_writeCells _ _ _ _ a ha, requestBit_eq, coilWritten, if_neg hother,
    if_pos hhead]
  change (if InRange (funcWriteMultipleCoils :: rest) a then _ else _) = _
  split <;> rfl

theorem classified_writeMultipleRegisters (rest : Bytes) :
    Classified m funcWriteMultipleRegisters (funcWriteMultipleRegisters :: rest)
      (writeMultipleRegisters m funcWriteMultipleRegisters
        (funcWriteMultipleRegisters :: rest)) := by
  refine classified_of_guards (invalidValue_multiple (· * 2) rfl (fun _ => rfl) (by decide))
    (invalidAddress_quantity rfl) ⟨⟨_, rfl⟩, ?_⟩
  have hhead : (funcWriteMultipleRegisters :: rest).headD 0 = funcWriteMultipleRegisters := rfl
  have hother : (funcWriteMultipleRegisters :: rest).headD 0 ≠ funcWriteSingleRegister := by
    rw [hhead]
    decide
  refine carried_of_registers (fun a ha => ?_) (by rw [hhead]; decide) (by rw [hhead]; decide)
  rw [getElem_writeCells _ _ _ _ a ha, registerWritten, if_neg hother,
    if_pos hhead]
  change (if InRange (funcWriteMultipleRegisters :: rest) a then _ else _) = _
  split <;> rfl

theorem exception_ne {code code' : Byte} (h : code ≠ code') :
    buildException func code ≠ buildException func code' := by
  simpa [buildException] using h

/-- The codes are below the exception bit, so a normal answer is no exception. -/
theorem normal_ne_exception (hfunc : func ∈ functionCodes) (body : Bytes) (code : Byte) :
    func :: body ≠ buildException func code := by
  have hbit : ∀ f ∈ functionCodes, f ≠ f ||| exceptionBit := by decide
  intro h
  exact hbit func hfunc (List.cons.inj h).1

/-- The three answers exclude each other, so each condition is also a necessary one. -/
theorem decided_of_classified {r : Bytes × DataModel} (hfunc : func ∈ functionCodes)
    (h : Classified m func req r) : Decided m func req r.1 r.2 := by
  by_cases hvalue : InvalidValue func req
  · obtain rfl := h.value hvalue
    constructor
    · exact iff_of_false (exception_ne (by decide)) (not_not.mpr hfunc)
    · exact iff_of_true rfl ⟨hfunc, hvalue⟩
    · exact iff_of_false (exception_ne (by decide)) fun hc => hc.2.1 hvalue
    · exact iff_of_false (fun ⟨_, _, hc⟩ => hc _ rfl) fun hc => hc.2.1 hvalue
    · exact fun _ _ => rfl
    · exact fun hc => absurd rfl (hc _)
  by_cases haddress : InvalidAddress func req
  · obtain rfl := h.address hvalue haddress
    constructor
    · exact iff_of_false (exception_ne (by decide)) (not_not.mpr hfunc)
    · exact iff_of_false (exception_ne (by decide)) fun hc => hvalue hc.2
    · exact iff_of_true rfl ⟨hfunc, hvalue, haddress⟩
    · exact iff_of_false (fun ⟨_, _, hc⟩ => hc _ rfl) fun hc => hc.2.2 haddress
    · exact fun _ _ => rfl
    · exact fun hc => absurd rfl (hc _)
  · obtain ⟨⟨body, hbody⟩, hcarried⟩ := h.normal hvalue haddress
    have hne : ∀ code, r.1 ≠ buildException func code := by
      intro code
      rw [hbody]
      exact normal_ne_exception hfunc body code
    constructor
    · exact iff_of_false (hne _) (not_not.mpr hfunc)
    · exact iff_of_false (hne _) fun hc => hvalue hc.2
    · exact iff_of_false (hne _) fun hc => haddress hc.2.2
    · exact iff_of_true ⟨body, hbody, hne⟩ ⟨hfunc, hvalue, haddress⟩
    · exact fun code hc => absurd hc (hne code)
    · exact fun _ => hcarried

theorem decided_unsupported (hfunc : func ∉ functionCodes) :
    Decided m func req (buildException func illegalFunction) m := by
  constructor
  · exact iff_of_true rfl hfunc
  · exact iff_of_false (exception_ne (by decide)) fun hc => hfunc hc.1
  · exact iff_of_false (exception_ne (by decide)) fun hc => hfunc hc.1
  · exact iff_of_false (fun ⟨_, _, hc⟩ => hc _ rfl) fun hc => hfunc hc.1
  · exact fun _ _ => rfl
  · exact fun hc => absurd rfl (hc _)

end Functions

theorem respond_decided (m : DataModel) (func : Byte) (rest : Bytes) :
    Decided m func (func :: rest) (respond m func (func :: rest)).1
      (respond m func (func :: rest)).2 := by
  by_cases hfunc : func ∈ functionCodes
  · simp only [functionCodes, List.mem_cons, List.not_mem_nil, or_false] at hfunc
    rcases hfunc with rfl | rfl | rfl | rfl | rfl | rfl | rfl | rfl
    · exact decided_of_classified (by decide) (classified_readBits m.coils rfl (fun _ => rfl)
        (by decide) (carried_of_read (by decide) (by decide) (by decide) (by decide)))
    · exact decided_of_classified (by decide) (classified_readBits m.discreteInputs rfl (fun _ => rfl)
        (by decide) (carried_of_read (by decide) (by decide) (by decide) (by decide)))
    · exact decided_of_classified (by decide) (classified_readRegisters m.holdingRegisters rfl
        (fun _ => rfl) (by decide)
        (carried_of_read (by decide) (by decide) (by decide) (by decide)))
    · exact decided_of_classified (by decide) (classified_readRegisters m.inputRegisters rfl
        (fun _ => rfl) (by decide)
        (carried_of_read (by decide) (by decide) (by decide) (by decide)))
    · exact decided_of_classified (by decide) (classified_writeSingleCoil rest)
    · exact decided_of_classified (by decide) (classified_writeSingleRegister rest)
    · exact decided_of_classified (by decide) (classified_writeMultipleCoils rest)
    · exact decided_of_classified (by decide) (classified_writeMultipleRegisters rest)
  · have hdefault : respond m func (func :: rest) = (buildException func illegalFunction, m) := by
      simp only [functionCodes, List.mem_cons, List.not_mem_nil, or_false, not_or] at hfunc
      obtain ⟨h1, h2, h3, h4, h5, h6, h7, h8⟩ := hfunc
      simp only [respond, if_neg h1, if_neg h2, if_neg h3, if_neg h4, if_neg h5, if_neg h6, if_neg h7,
        if_neg h8]
    rw [hdefault]
    exact decided_unsupported hfunc

/-- The decision table, for every request and every data model: the tables of a request are
those of `ensure_table_initialized`, which the first one of a process fills. -/
theorem request_decisions (m : DataModel) (req : Bytes) :
    ((modbusBuildResponse m req).1 = none ↔ req = []) ∧
    (req = [] → (modbusBuildResponse m req).2 = m) ∧
    (m.tableInitialized = true → ensureTableInitialized m = m) ∧
    ∀ func rest, req = func :: rest → ∃ resp, (modbusBuildResponse m req).1 = some resp ∧
      Decided (ensureTableInitialized m) func req resp (modbusBuildResponse m req).2 := by
  refine ⟨?_, ?_, ensureTableInitialized_of_true, ?_⟩
  · cases req with
    | nil => exact iff_of_true rfl rfl
    | cons func rest => exact iff_of_false (by simp [modbusBuildResponse]) (List.cons_ne_nil _ _)
  · rintro rfl
    rfl
  · rintro func rest rfl
    exact ⟨_, rfl, respond_decided _ func rest⟩

end ModbusSecurity.RequestDecisions
