import Mathlib.Data.List.Basic
import ModbusSecurity.ModbusPdu
import ModbusSecurity.TransitionRuns

/-! # The Modbus server as four register files

An abstract device keeps a bit for every coil and discrete input and a word for every
register; it is the history of accepted writes, read through the last one per cell. -/
namespace ModbusSecurity.ModbusRegisters
open ByteStrings BitPacking ModbusPdu TransitionRuns

/-- Four register files; only addresses below `tableSize` exist. -/
structure Device where
  coils : ℕ → Bool
  discreteInputs : ℕ → Bool
  holdingRegisters : ℕ → Word
  inputRegisters : ℕ → Word

def initialDevice : Device where
  coils a := a % 2 == 1
  discreteInputs a := (a + 1) % 2 == 1
  holdingRegisters a := BitVec.ofNat 16 (0x1000 + a)
  inputRegisters a := BitVec.ofNat 16 (0x2000 + a)

def isException (resp : Bytes) : Bool := resp.headD 0 &&& exceptionBit != 0

/-- The addresses a multiple write or a read names. -/
def InRange (req : Bytes) (a : ℕ) : Prop :=
  (getU16 req 1).toNat ≤ a ∧ a < (getU16 req 1).toNat + (getU16 req 3).toNat

instance (req : Bytes) (a : ℕ) : Decidable (InRange req a) := inferInstanceAs (Decidable (_ ∧ _))

/-- The value a request carries for a coil. -/
def coilWritten (req : Bytes) (a : ℕ) : Option Bool :=
  if req.headD 0 = funcWriteSingleCoil then
    if a = (getU16 req 1).toNat then some (getU16 req 3 == 0xFF00) else none
  else if req.headD 0 = funcWriteMultipleCoils then
    if InRange req a then some (bitAt (req.drop 6) (a - (getU16 req 1).toNat)) else none
  else none

/-- The value a request carries for a holding register. -/
def registerWritten (req : Bytes) (a : ℕ) : Option Word :=
  if req.headD 0 = funcWriteSingleRegister then
    if a = (getU16 req 1).toNat then some (getU16 req 3) else none
  else if req.headD 0 = funcWriteMultipleRegisters then
    if InRange req a then some (getU16 req (6 + (a - (getU16 req 1).toNat) * 2)) else none
  else none

/-- The last of the accepted requests that wrote the cell decides. -/
def lastWritten {β : Type} (written : Bytes → ℕ → Option β) (accepted : List Bytes) (a : ℕ) :
    Option β :=
  accepted.reverse.findSome? fun req => written req a

def deviceAfter (accepted : List Bytes) : Device :=
  { initialDevice with
    coils := fun a => (lastWritten coilWritten accepted a).getD (initialDevice.coils a)
    holdingRegisters := fun a =>
      (lastWritten registerWritten accepted a).getD (initialDevice.holdingRegisters a) }

/-- The data model with the requests it has accepted so far. -/
structure Session where
  model : DataModel
  accepted : List Bytes

/-- The request is answered, and not by an exception. -/
def accepts (m : DataModel) (req : Bytes) : Bool :=
  (modbusBuildResponse m req).1.map isException == some false

def serve (s : Session) (req : Bytes) : Session where
  model := (modbusBuildResponse s.model req).2
  accepted := if accepts s.model req then s.accepted ++ [req] else s.accepted

/-- A cell of a bit table. -/
def bitCell (b : Bool) : Byte := if b then 1 else 0

/-- The tables hold the device's registers, bits as bytes 0 and 1. -/
structure Represents (m : DataModel) (d : Device) : Prop where
  coils : ∀ a (h : a < tableSize), m.coils[a] = bitCell (d.coils a)
  discreteInputs : ∀ a (h : a < tableSize), m.discreteInputs[a] = bitCell (d.discreteInputs a)
  holdingRegisters : ∀ a (h : a < tableSize), m.holdingRegisters[a] = d.holdingRegisters a
  inputRegisters : ∀ a (h : a < tableSize), m.inputRegisters[a] = d.inputRegisters a

/-- A reply to a read of bits. -/
def CarriesBits (req resp : Bytes) (file : ℕ → Bool) : Prop :=
  let addr := (getU16 req 1).toNat
  let qty := (getU16 req 3).toNat
  addr + qty ≤ tableSize ∧ ∃ count data, resp = req.headD 0 :: count :: data ∧
    count.toNat = data.length ∧ HoldsBits data qty fun i => file (addr + i)

/-- A reply to a read of registers. -/
def CarriesRegisters (req resp : Bytes) (file : ℕ → Word) : Prop :=
  let addr := (getU16 req 1).toNat
  let qty := (getU16 req 3).toNat
  addr + qty ≤ tableSize ∧ ∃ count data, resp = req.headD 0 :: count :: data ∧
    count.toNat = data.length ∧ data = (List.range qty).flatMap fun i => putU16 (file (addr + i))

/-- What a read reply says about the device. -/
def Answers (d : Device) (req resp : Bytes) : Prop :=
  (req.headD 0 = funcReadCoils → CarriesBits req resp d.coils) ∧
  (req.headD 0 = funcReadDiscreteInputs → CarriesBits req resp d.discreteInputs) ∧
  (req.headD 0 = funcReadHoldingRegisters → CarriesRegisters req resp d.holdingRegisters) ∧
  (req.headD 0 = funcReadInputRegisters → CarriesRegisters req resp d.inputRegisters)

theorem getElem_writeCells {α : Type} (table : Vector α tableSize) (addr qty : ℕ) (value : ℕ → α)
    (a : ℕ) (h : a < tableSize) : (writeCells table addr qty value)[a] =
      if addr ≤ a ∧ a < addr + qty then value (a - addr) else table[a] := by
  unfold writeCells
  induction qty with
  | zero =>
    rw [if_neg (by omega)]
    rfl
  | succ qty ih =>
    rw [List.range_succ, List.foldl_append, List.foldl_cons, List.foldl_nil]
    rw [Vector.getElem_setIfInBounds h, ih]
    by_cases heq : addr + qty = a
    · have hin : addr ≤ a ∧ a < addr + (qty + 1) := by omega
      rw [if_pos heq, if_pos hin, ← heq, Nat.add_sub_cancel_left]
    · have hiff : (addr ≤ a ∧ a < addr + (qty + 1)) ↔ (addr ≤ a ∧ a < addr + qty) := by omega
      rw [if_neg heq]
      exact (if_congr hiff rfl rfl).symm

theorem getD_toList {α : Type} (table : Vector α tableSize) (a : ℕ) (h : a < tableSize) (d : α) :
    table.toList.getD a d = table[a] := by
  simp [List.getD_eq_getElem?_getD, h]

theorem ensureTableInitialized_represents :
    Represents (ensureTableInitialized staticDataModel) initialDevice := by
  have hbit : ∀ a : ℕ, BitVec.ofNat 8 (a % 2) = bitCell (a % 2 == 1) := by
    intro a
    rcases Nat.mod_two_eq_zero_or_one a with h | h <;> rw [h] <;> rfl
  constructor <;> intro a h
  · simpa [ensureTableInitialized, staticDataModel, initialDevice] using hbit a
  · simpa [ensureTableInitialized, staticDataModel, initialDevice] using hbit (a + 1)
  · simp [ensureTableInitialized, staticDataModel, initialDevice]
  · simp [ensureTableInitialized, staticDataModel, initialDevice]

theorem ensureTableInitialized_of_true {m : DataModel} (h : m.tableInitialized = true) :
    ensureTableInitialized m = m := by
  rw [ensureTableInitialized, if_pos h]

theorem ensureTableInitialized_initialized (m : DataModel) :
    (ensureTableInitialized m).tableInitialized = true := by
  unfold ensureTableInitialized
  split <;> [assumption; rfl]

theorem lastWritten_snoc {β : Type} (written : Bytes → ℕ → Option β) (accepted : List Bytes)
    (req : Bytes) (a : ℕ) : lastWritten written (accepted ++ [req]) a =
      (written req a).or (lastWritten written accepted a) := by
  simp only [lastWritten, List.reverse_append, List.reverse_singleton, List.singleton_append,
    List.findSome?_cons]
  cases written req a <;> rfl

theorem bitCell_ne_zero (b : Bool) : (bitCell b != 0) = b := by cases b <;> rfl

/-- A coil taken from packed bits. -/
theorem requestBit_eq (req : Bytes) (i : ℕ) : requestBit req i = bitCell (bitAt (req.drop 6) i) := by
  have hget : (req.drop 6).getD (i / 8) 0 = req.getD (6 + i / 8) 0 := by
    simp [List.getD_eq_getElem?_getD]
  rw [requestBit, bitAt, hget, show (1 : Byte) = 1#8 from rfl,
    BitVec.and_one_eq_setWidth_ofBool_getLsbD, BitVec.getLsbD_ushiftRight, Nat.add_zero]
  cases (req.getD (6 + i / 8) 0).getLsbD (i % 8) <;> rfl

def Device.write (d : Device) (req : Bytes) : Device :=
  { d with
    coils := fun a => (coilWritten req a).getD (d.coils a)
    holdingRegisters := fun a => (registerWritten req a).getD (d.holdingRegisters a) }

theorem deviceAfter_snoc (accepted : List Bytes) (req : Bytes) :
    deviceAfter (accepted ++ [req]) = (deviceAfter accepted).write req := by
  have hor : ∀ {β : Type} (x y : Option β) (z : β), (x.or y).getD z = x.getD (y.getD z) := by
    intro β x y z
    cases x <;> rfl
  simp only [deviceAfter, Device.write, lastWritten_snoc, hor]

/-- What one request does to tables that represent a device: an exception changes nothing,
anything else writes what the request carries and answers from the device. -/
def Outcome (m : DataModel) (d : Device) (req : Bytes) (r : Bytes × DataModel) : Prop :=
  (isException r.1 = true ∧ r.2 = m) ∨
    (isException r.1 = false ∧ Represents r.2 (d.write req) ∧ Answers d req r.1)

theorem isException_buildException (func exc_code : Byte) :
    isException (buildException func exc_code) = true := by
  have h : ∀ f : Byte, (f ||| exceptionBit) &&& exceptionBit ≠ 0 := by decide
  simpa [isException, buildException] using h func

section Request
variable {m : DataModel} {d : Device} {req : Bytes}

/-- Function codes below the exception bit are echoed as they are. -/
theorem not_exception_cons {func : Byte} (h : func &&& exceptionBit = 0) (rest : Bytes) :
    isException (func :: rest) = false := by
  simp [isException, h]

private theorem outcome_exception (func exc_code : Byte) :
    Outcome m d req (buildException func exc_code, m) :=
  .inl ⟨isException_buildException func exc_code, rfl⟩

theorem represents_write_none (h : Represents m d) (hcoil : ∀ a, coilWritten req a = none)
    (hreg : ∀ a, registerWritten req a = none) : Represents m (d.write req) :=
  ⟨fun a ha => by simpa [Device.write, hcoil] using h.coils a ha, h.discreteInputs,
    fun a ha => by simpa [Device.write, hreg] using h.holdingRegisters a ha, h.inputRegisters⟩

theorem readBits_cases {table : Vector Byte tableSize} {file : ℕ → Bool}
    (htable : ∀ a (h : a < tableSize), table[a] = bitCell (file a)) :
    isException (readBits table (req.headD 0) req) = true ∨
      CarriesBits req (readBits table (req.headD 0) req) file := by
  unfold readBits
  split
  · exact .inl (isException_buildException _ _)
  · simp only
    split
    · exact .inl (isException_buildException _ _)
    · split
      · exact .inl (isException_buildException _ _)
      · rename_i hqty hrange
        have hle : (getU16 req 1).toNat + (getU16 req 3).toNat ≤ tableSize := by omega
        have hpack := holdsBits_packBits
          (fun i => table.toList.getD ((getU16 req 1).toNat + i) 0 != 0) (getU16 req 3).toNat
        refine .inr ⟨hle, _, _, rfl, ?_, hpack.length, fun i hi => ?_, hpack.padding⟩
        · rw [hpack.length]
          simp only [tableSize] at hle
          simp only [BitVec.toNat_ofNat, bitsToBytes]
          omega
        · rw [hpack.bits i hi]
          simp only [getD_toList table _ (show (getU16 req 1).toNat + i < tableSize by omega),
            htable, bitCell_ne_zero]

theorem readRegisters_cases {table : Vector Word tableSize} {file : ℕ → Word}
    (htable : ∀ a (h : a < tableSize), table[a] = file a) :
    isException (readRegisters table (req.headD 0) req) = true ∨
      CarriesRegisters req (readRegisters table (req.headD 0) req) file := by
  unfold readRegisters
  split
  · exact .inl (isException_buildException _ _)
  · simp only
    split
    · exact .inl (isException_buildException _ _)
    · split
      · exact .inl (isException_buildException _ _)
      · rename_i hqty hrange
        have hle : (getU16 req 1).toNat + (getU16 req 3).toNat ≤ tableSize := by omega
        refine .inr ⟨hle, _, _, rfl, ?_, ?_⟩
        · simp only [maxReadRegisters] at hqty
          rw [length_flatMap_putU16, BitVec.toNat_ofNat]
          omega
        · refine List.flatMap_congr fun i hi => ?_
          have hlt := List.mem_range.mp hi
          rw [getD_toList table _ (by omega), htable]

private theorem answers_write {resp : Bytes} (h : req.headD 0 = funcWriteSingleCoil ∨
    req.headD 0 = funcWriteSingleRegister ∨ req.headD 0 = funcWriteMultipleCoils ∨
    req.headD 0 = funcWriteMultipleRegisters) : Answers d req resp := by
  rcases h with h | h | h | h <;> refine ⟨?_, ?_, ?_, ?_⟩ <;> rw [h] <;>
    exact fun hc => absurd hc (by decide)

theorem writeSingleCoil_outcome (h : Represents m d) (hf : req.headD 0 = funcWriteSingleCoil) :
    Outcome m d req (writeSingleCoil m (req.headD 0) req) := by
  unfold writeSingleCoil
  split
  · exact outcome_exception _ _
  · simp only
    split
    · exact outcome_exception _ _
    · split
      · exact outcome_exception _ _
      · rename_i hlen hval haddr
        refine .inr ⟨?_, ⟨fun a ha => ?_, h.discreteInputs, fun a ha => ?_, h.inputRegisters⟩,
          answers_write (.inl hf)⟩
        · have hhead : (req.take 5).headD 0 = req.headD 0 := by cases req <;> rfl
          rw [isException, hhead, hf]
          rfl
        · have hvalue : (if getU16 req 3 = 0xFF00 then 1 else 0 : Byte) =
              bitCell (getU16 req 3 == 0xFF00) := by
            simp [bitCell]
          rw [Vector.getElem_setIfInBounds ha, hvalue]
          simp only [Device.write, coilWritten, if_pos hf]
          by_cases heq : (getU16 req 1).toNat = a
          · rw [if_pos heq, if_pos heq.symm, Option.getD_some]
          · rw [if_neg heq, if_neg (Ne.symm heq), Option.getD_none, h.coils a ha]
        · have hnone : registerWritten req a = none := by
            rw [registerWritten, hf]
            rfl
          simpa [Device.write, hnone] using h.holdingRegisters a ha

theorem writeSingleRegister_outcome (h : Represents m d)
    (hf : req.headD 0 = funcWriteSingleRegister) :
    Outcome m d req (writeSingleRegister m (req.headD 0) req) := by
  unfold writeSingleRegister
  split
  · exact outcome_exception _ _
  · simp only
    split
    · exact outcome_exception _ _
    · rename_i hlen haddr
      refine .inr ⟨?_, ⟨fun a ha => ?_, h.discreteInputs, fun a ha => ?_, h.inputRegisters⟩,
        answers_write (.inr (.inl hf))⟩
      · have hhead : (req.take 5).headD 0 = req.headD 0 := by cases req <;> rfl
        rw [isException, hhead, hf]
        rfl
      · have hnone : coilWritten req a = none := by
          rw [coilWritten, hf]
          rfl
        simpa [Device.write, hnone] using h.coils a ha
      · rw [Vector.getElem_setIfInBounds ha]
        simp only [Device.write, registerWritten, if_pos hf]
        by_cases heq : (getU16 req 1).toNat = a
        · rw [if_pos heq, if_pos heq.symm, Option.getD_some]
        · rw [if_neg heq, if_neg (Ne.symm heq), Option.getD_none, h.holdingRegisters a ha]

theorem writeMultipleCoils_outcome (h : Represents m d)
    (hf : req.headD 0 = funcWriteMultipleCoils) :
    Outcome m d req (writeMultipleCoils m (req.headD 0) req) := by
  unfold writeMultipleCoils
  split
  · exact outcome_exception _ _
  · simp only
    split
    · exact outcome_exception _ _
    · split
      · exact outcome_exception _ _
      · refine .inr ⟨?_, ⟨fun a ha => ?_, h.discreteInputs, fun a ha => ?_, h.inputRegisters⟩,
          answers_write (.inr (.inr (.inl hf)))⟩
        · rw [hf]
          exact not_exception_cons (by decide) _
        · rw [getElem_writeCells _ _ _ _ a ha, requestBit_eq]
          have hne : req.headD 0 ≠ funcWriteSingleCoil := by rw [hf]; decide
          simp only [Device.write, coilWritten, if_neg hne, if_pos hf]
          rw [h.coils a ha]
          change (if InRange req a then _ else _) = _
          split <;> rfl
        · have hnone : registerWritten req a = none := by
            rw [registerWritten, hf]
            rfl
          simpa [Device.write, hnone] using h.holdingRegisters a ha

theorem writeMultipleRegisters_outcome (h : Represents m d)
    (hf : req.headD 0 = funcWriteMultipleRegisters) :
    Outcome m d req (writeMultipleRegisters m (req.headD 0) req) := by
  unfold writeMultipleRegisters
  split
  · exact outcome_exception _ _
  · simp only
    split
    · exact outcome_exception _ _
    · split
      · exact outcome_exception _ _
      · refine .inr ⟨?_, ⟨fun a ha => ?_, h.discreteInputs, fun a ha => ?_, h.inputRegisters⟩,
          answers_write (.inr (.inr (.inr hf)))⟩
        · rw [hf]
          exact not_exception_cons (by decide) _
        · have hnone : coilWritten req a = none := by
            rw [coilWritten, hf]
            rfl
          simpa [Device.write, hnone] using h.coils a ha
        · rw [getElem_writeCells _ _ _ _ a ha]
          have hne : req.headD 0 ≠ funcWriteSingleRegister := by rw [hf]; decide
          simp only [Device.write, registerWritten, if_neg hne, if_pos hf]
          rw [h.holdingRegisters a ha]
          change (if InRange req a then _ else _) = _
          split <;> rfl

private theorem outcome_bits {table : Vector Byte tableSize} {file : ℕ → Bool}
    (h : Represents m d) (htable : ∀ a (h : a < tableSize), table[a] = bitCell (file a))
    (hexc : req.headD 0 &&& exceptionBit = 0) (hcoil : ∀ a, coilWritten req a = none)
    (hreg : ∀ a, registerWritten req a = none)
    (hans : ∀ resp, CarriesBits req resp file → Answers d req resp) :
    Outcome m d req (readBits table (req.headD 0) req, m) := by
  rcases readBits_cases htable with he | hbits
  · exact .inl ⟨he, rfl⟩
  · refine .inr ⟨?_, represents_write_none h hcoil hreg, hans _ hbits⟩
    obtain ⟨-, _, _, hresp, -⟩ := hbits
    exact hresp ▸ not_exception_cons hexc _

private theorem outcome_registers {table : Vector Word tableSize} {file : ℕ → Word}
    (h : Represents m d) (htable : ∀ a (h : a < tableSize), table[a] = file a)
    (hexc : req.headD 0 &&& exceptionBit = 0) (hcoil : ∀ a, coilWritten req a = none)
    (hreg : ∀ a, registerWritten req a = none)
    (hans : ∀ resp, CarriesRegisters req resp file → Answers d req resp) :
    Outcome m d req (readRegisters table (req.headD 0) req, m) := by
  rcases readRegisters_cases htable with he | hregs
  · exact .inl ⟨he, rfl⟩
  · refine .inr ⟨?_, represents_write_none h hcoil hreg, hans _ hregs⟩
    obtain ⟨-, _, _, hresp, -⟩ := hregs
    exact hresp ▸ not_exception_cons hexc _

theorem coilWritten_of_ne (hs : req.headD 0 ≠ funcWriteSingleCoil)
    (hm : req.headD 0 ≠ funcWriteMultipleCoils) (a : ℕ) : coilWritten req a = none := by
  rw [coilWritten, if_neg hs, if_neg hm]

theorem registerWritten_of_ne (hs : req.headD 0 ≠ funcWriteSingleRegister)
    (hm : req.headD 0 ≠ funcWriteMultipleRegisters) (a : ℕ) : registerWritten req a = none := by
  rw [registerWritten, if_neg hs, if_neg hm]

theorem respond_outcome (h : Represents m d) : Outcome m d req (respond m (req.headD 0) req) := by
  have hne : ∀ {P : Prop} {f g : Byte}, req.headD 0 = f → f ≠ g → req.headD 0 = g → P :=
    fun hf hfg hg => absurd (hf.symm.trans hg) hfg
  unfold respond
  split
  · rename_i hf
    refine outcome_bits h h.coils (by rw [hf]; decide) (coilWritten_of_ne ?_ ?_)
      (registerWritten_of_ne ?_ ?_) fun resp hresp =>
        ⟨fun _ => hresp, hne hf (by decide), hne hf (by decide), hne hf (by decide)⟩ <;>
      (rw [hf]; decide)
  split
  · rename_i hf
    refine outcome_bits h h.discreteInputs (by rw [hf]; decide) (coilWritten_of_ne ?_ ?_)
      (registerWritten_of_ne ?_ ?_) fun resp hresp =>
        ⟨hne hf (by decide), fun _ => hresp, hne hf (by decide), hne hf (by decide)⟩ <;>
      (rw [hf]; decide)
  split
  · rename_i hf
    refine outcome_registers h h.holdingRegisters (by rw [hf]; decide) (coilWritten_of_ne ?_ ?_)
      (registerWritten_of_ne ?_ ?_) fun resp hresp =>
        ⟨hne hf (by decide), hne hf (by decide), fun _ => hresp, hne hf (by decide)⟩ <;>
      (rw [hf]; decide)
  split
  · rename_i hf
    refine outcome_registers h h.inputRegisters (by rw [hf]; decide) (coilWritten_of_ne ?_ ?_)
      (registerWritten_of_ne ?_ ?_) fun resp hresp =>
        ⟨hne hf (by decide), hne hf (by decide), hne hf (by decide), fun _ => hresp⟩ <;>
      (rw [hf]; decide)
  split
  · exact writeSingleCoil_outcome h ‹_›
  split
  · exact writeSingleRegister_outcome h ‹_›
  split
  · exact writeMultipleCoils_outcome h ‹_›
  split
  · exact writeMultipleRegisters_outcome h ‹_›
  · exact outcome_exception _ _

end Request

theorem respond_tableInitialized (m : DataModel) (func : Byte) (req : Bytes) :
    (respond m func req).2.tableInitialized = m.tableInitialized := by
  have hcoil : (writeSingleCoil m func req).2.tableInitialized = m.tableInitialized := by
    unfold writeSingleCoil
    split <;> [rfl; (simp only; split <;> [rfl; (split <;> rfl)])]
  have hreg : (writeSingleRegister m func req).2.tableInitialized = m.tableInitialized := by
    unfold writeSingleRegister
    split <;> [rfl; (simp only; split <;> rfl)]
  have hcoils : (writeMultipleCoils m func req).2.tableInitialized = m.tableInitialized := by
    unfold writeMultipleCoils
    split <;> [rfl; (simp only; split <;> [rfl; (split <;> rfl)])]
  have hregs : (writeMultipleRegisters m func req).2.tableInitialized = m.tableInitialized := by
    unfold writeMultipleRegisters
    split <;> [rfl; (simp only; split <;> [rfl; (split <;> rfl)])]
  unfold respond
  repeat' split
  all_goals first | rfl | assumption

/-- What one request must do in a session: its reply comes from the device, and the tables
after it differ from those before it by the cells the request carries, if it is accepted. -/
structure Refines (s : Session) (req : Bytes) : Prop where
  tables : Represents (ensureTableInitialized s.model) (deviceAfter s.accepted)
  answers : ∀ resp, (modbusBuildResponse s.model req).1 = some resp → isException resp = false →
    Answers (deviceAfter s.accepted) req resp
  coils : ∀ a (h : a < tableSize), (ensureTableInitialized (serve s req).model).coils[a] =
    ((if accepts s.model req then coilWritten req a else none).map bitCell).getD
      (ensureTableInitialized s.model).coils[a]
  holdingRegisters : ∀ a (h : a < tableSize),
    (ensureTableInitialized (serve s req).model).holdingRegisters[a] =
      (if accepts s.model req then registerWritten req a else none).getD
        (ensureTableInitialized s.model).holdingRegisters[a]
  discreteInputs : (ensureTableInitialized (serve s req).model).discreteInputs =
    (ensureTableInitialized s.model).discreteInputs
  inputRegisters : (ensureTableInitialized (serve s req).model).inputRegisters =
    (ensureTableInitialized s.model).inputRegisters
  bits : ∀ a (h : a < tableSize), (ensureTableInitialized s.model).coils[a] = 0 ∨
    (ensureTableInitialized s.model).coils[a] = 1

/-- The tables hold the device that the accepted requests describe. -/
def Tracks (s : Session) : Prop :=
  Represents (ensureTableInitialized s.model) (deviceAfter s.accepted)

theorem serve_cases (s : Session) (req : Bytes) (h : Tracks s) :
    (accepts s.model req = false ∧ (serve s req).accepted = s.accepted ∧
      ensureTableInitialized (serve s req).model = ensureTableInitialized s.model) ∨
    (accepts s.model req = true ∧ (serve s req).accepted = s.accepted ++ [req] ∧
      Represents (ensureTableInitialized (serve s req).model)
        ((deviceAfter s.accepted).write req) ∧
      ∀ resp, (modbusBuildResponse s.model req).1 = some resp →
        Answers (deviceAfter s.accepted) req resp) := by
  rcases req with _ | ⟨func, rest⟩
  · exact .inl ⟨rfl, rfl, rfl⟩
  · have hinit := respond_tableInitialized (ensureTableInitialized s.model) func (func :: rest)
    have htrue := ensureTableInitialized_initialized s.model
    have hmodel : ensureTableInitialized (serve s (func :: rest)).model =
        (respond (ensureTableInitialized s.model) func (func :: rest)).2 := by
      have hserve : (serve s (func :: rest)).model =
          (respond (ensureTableInitialized s.model) func (func :: rest)).2 := rfl
      rw [hserve, ensureTableInitialized_of_true (hinit.trans htrue)]
    have hout := @respond_outcome _ _ (func :: rest) h
    rw [List.headD_cons] at hout
    rcases hout with ⟨hexc, hsame⟩ | ⟨hok, hrep, hans⟩
    · have hacc : accepts s.model (func :: rest) = false := by
        simp only [accepts, modbusBuildResponse, Option.map_some, hexc]
        rfl
      exact .inl ⟨hacc, by simp [serve, hacc], hmodel.trans hsame⟩
    · have hacc : accepts s.model (func :: rest) = true := by
        simp only [accepts, modbusBuildResponse, Option.map_some, hok]
        rfl
      refine .inr ⟨hacc, by simp [serve, hacc], hmodel ▸ hrep, fun resp hresp => ?_⟩
      exact Option.some.inj hresp ▸ hans

theorem tracks_serve (s : Session) (req : Bytes) (h : Tracks s) : Tracks (serve s req) := by
  rcases serve_cases s req h with ⟨-, hacc, hmodel⟩ | ⟨-, hacc, hrep, -⟩
  · rwa [Tracks, hacc, hmodel]
  · rwa [Tracks, hacc, deviceAfter_snoc]

theorem refines_of_tracks (s : Session) (req : Bytes) (h : Tracks s) : Refines s req := by
  have hafter := tracks_serve s req h
  refine ⟨h, fun resp hresp hok => ?_, fun a ha => ?_, fun a ha => ?_, ?_, ?_, fun a ha => ?_⟩
  · rcases serve_cases s req h with ⟨hacc, -, -⟩ | ⟨-, -, -, hans⟩
    · simp [accepts, hresp, hok] at hacc
    · exact hans resp hresp
  · rcases serve_cases s req h with ⟨hacc, -, hmodel⟩ | ⟨hacc, -, hrep, -⟩
    · simp [hacc, hmodel]
    · rw [hacc, if_pos rfl, hrep.coils a ha, h.coils a ha]
      cases hw : coilWritten req a <;> simp [Device.write, hw]
  · rcases serve_cases s req h with ⟨hacc, -, hmodel⟩ | ⟨hacc, -, hrep, -⟩
    · simp [hacc, hmodel]
    · rw [hacc, if_pos rfl, hrep.holdingRegisters a ha, h.holdingRegisters a ha]
      rfl
  · exact Vector.ext fun a ha => by rw [hafter.discreteInputs a ha, h.discreteInputs a ha]; rfl
  · exact Vector.ext fun a ha => by rw [hafter.inputRegisters a ha, h.inputRegisters a ha]; rfl
  · rw [h.coils a ha]
    cases (deviceAfter s.accepted).coils a
    · exact .inl rfl
    · exact .inr rfl

/-- The server refines the abstract device over every sequence of requests. -/
theorem registers_refined (requests : List Bytes) :
    Always serve Refines ⟨staticDataModel, []⟩ requests :=
  always_of_invariant (fun s req h _ => tracks_serve s req h)
    (fun s req h _ => refines_of_tracks s req h) ensureTableInitialized_represents
    (always_of_forall (fun _ _ => trivial) _)

end ModbusSecurity.ModbusRegisters
