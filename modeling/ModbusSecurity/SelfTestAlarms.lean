import ModbusSecurity.ModbusSelfTest
import ModbusSecurity.RequestDecisions

/-! # When the self-test of the server raises a false alarm

The self-test runs against the live tables. Most of its cases do not depend on them; four
read cells that a served request may have written before. -/
namespace ModbusSecurity.SelfTestAlarms
open ByteStrings BitPacking ModbusPdu ModbusRegisters ModbusSelfTest RequestDecisions TransitionRuns

/-- The coils and holding registers whose initial values the cases expect. -/
def watchedCoils : List ℕ := [0, 1, 126, 127]

def watchedRegisters : List ℕ := [0, 1, 124]

/-- The watched cells hold what they held at the start. -/
def WatchedKept (d : Device) : Prop :=
  (∀ a ∈ watchedCoils, d.coils a = initialDevice.coils a) ∧
    ∀ a ∈ watchedRegisters, d.holdingRegisters a = initialDevice.holdingRegisters a

/-- Two bits, lowest first. -/
def pairByte (first second : Bool) : Byte :=
  (if first then 1 else 0) ||| if second then 2 else 0

theorem packBits_two (f : ℕ → Bool) : packBits f 2 = [pairByte (f 0) (f 1)] := by
  simp only [packBits, List.range_succ, List.range_zero, List.nil_append, List.singleton_append,
    List.foldl_cons, List.foldl_nil]
  cases f 0 <;> cases f 1 <;> rfl

theorem packBits_one (f : ℕ → Bool) : packBits f 1 = [pairByte (f 0) false] := by
  simp only [packBits, List.range_succ, List.range_zero, List.nil_append, List.foldl_cons,
    List.foldl_nil]
  cases f 0 <;> rfl

theorem pairByte_eq_two (first second : Bool) :
    pairByte first second = 2 ↔ first = false ∧ second = true := by
  cases first <;> cases second <;> decide

/-- What a case makes of the tables it finds, once they are initialized. -/
def casePasses (m : DataModel) (c : Case) : Bool := c.passes (respond m (c.req.headD 0) c.req).1

section Cases
variable {m : DataModel} {d : Device}

theorem runCase_initialized (hm : m.tableInitialized = true) {c : Case} (hreq : c.req ≠ [])
    (b : Bool) :
    runCase (b, m) c = (b && casePasses m c, (respond m (c.req.headD 0) c.req).2) := by
  obtain ⟨func, rest, hcons⟩ := List.exists_cons_of_ne_nil hreq
  rw [runCase, casePasses, hcons]
  simp only [modbusBuildResponse, ensureTableInitialized_of_true hm, Option.any_some, List.headD_cons]

/-- Cases that leave the tables alone. -/
theorem foldl_runCase_kept (hm : m.tableInitialized = true) {cs : List Case}
    (hcs : ∀ c ∈ cs, c.req ≠ [] ∧ (respond m (c.req.headD 0) c.req).2 = m) (b : Bool) :
    cs.foldl runCase (b, m) = (b && cs.all (casePasses m), m) := by
  induction cs generalizing b with
  | nil => rw [List.foldl_nil, List.all_nil, Bool.and_true]
  | cons c cs ih =>
    obtain ⟨hreq, hkept⟩ := hcs c (List.mem_cons_self ..)
    rw [List.foldl_cons, runCase_initialized hm hreq, hkept,
      ih fun c hc => hcs c (List.mem_cons_of_mem _ hc), List.all_cons, Bool.and_assoc]

theorem bit_of_represents (h : Represents m d) {a : ℕ} (ha : a < tableSize) :
    (m.coils.toList.getD a 0 != 0) = d.coils a := by
  rw [getD_toList _ _ ha, h.coils a ha, bitCell_ne_zero]

theorem register_of_represents (h : Represents m d) {a : ℕ} (ha : a < tableSize) :
    m.holdingRegisters.toList.getD a 0 = d.holdingRegisters a := by
  rw [getD_toList _ _ ha, h.holdingRegisters a ha]

/-- Two coils against the pattern of an even address. -/
theorem coils_case (h : Represents m d) (addr : Word) (ha : addr.toNat + 1 < tableSize)
    (hreply : (respond m 0x01 (0x01 :: putU16 addr ++ [0x00, 0x02])).1 = 0x01 :: 0x01 ::
      packBits (fun i => m.coils.toList.getD (addr.toNat + i) 0 != 0) 2) :
    casePasses m (checkExact (0x01 :: putU16 addr ++ [0x00, 0x02]) [0x01, 0x01, 0x02]) = true ↔
      d.coils addr.toNat = false ∧ d.coils (addr.toNat + 1) = true := by
  rw [packBits_two, bit_of_represents h ha, Nat.add_zero, bit_of_represents h (by omega)] at hreply
  show ((respond m 0x01 (0x01 :: putU16 addr ++ [0x00, 0x02])).1 == _) = true ↔ _
  rw [hreply, beq_iff_eq]
  simp only [List.cons.injEq, true_and, and_true]
  exact pairByte_eq_two _ _

theorem putU16_pair {v w v' w' : Word} :
    putU16 v ++ putU16 w = putU16 v' ++ putU16 w' ↔ v = v' ∧ w = w' := by
  constructor
  · intro h
    obtain ⟨hv, hw⟩ := List.append_inj h rfl
    exact ⟨putU16_injective hv, putU16_injective hw⟩
  · rintro ⟨rfl, rfl⟩
    rfl

theorem registers_case (h : Represents m d) (addr v w : Word) (ha : addr.toNat + 1 < tableSize)
    (hreply : (respond m 0x03 (0x03 :: putU16 addr ++ [0x00, 0x02])).1 = 0x03 :: 0x04 ::
      (putU16 (m.holdingRegisters.toList.getD addr.toNat 0) ++
        putU16 (m.holdingRegisters.toList.getD (addr.toNat + 1) 0))) :
    casePasses m (checkExact (0x03 :: putU16 addr ++ [0x00, 0x02])
      (0x03 :: 0x04 :: (putU16 v ++ putU16 w))) = true ↔
      d.holdingRegisters addr.toNat = v ∧ d.holdingRegisters (addr.toNat + 1) = w := by
  rw [register_of_represents h ha, register_of_represents h (by omega)] at hreply
  show ((respond m 0x03 (0x03 :: putU16 addr ++ [0x00, 0x02])).1 == _) = true ↔ _
  rw [hreply, beq_iff_eq, List.cons.injEq, List.cons.injEq, putU16_pair]
  simp only [true_and]

/-- The ends of 125 packed registers. -/
theorem flatMap_putU16_ends (word : ℕ → Word) :
    [((List.range 125).flatMap fun i => putU16 (word i)).getD 0 0,
      ((List.range 125).flatMap fun i => putU16 (word i)).getD 1 0,
      ((List.range 125).flatMap fun i => putU16 (word i)).getD 248 0,
      ((List.range 125).flatMap fun i => putU16 (word i)).getD 249 0] =
      putU16 (word 0) ++ putU16 (word 124) := rfl

theorem checkLongest_passes (req data : Bytes) (hlen : data.length = 250) :
    (checkLongest req).passes (0x03 :: 250 :: data) = true ↔
      [data.getD 0 0, data.getD 1 0, data.getD 248 0, data.getD 249 0] =
        putU16 0x1000 ++ putU16 0x107C := by
  have hexp : putU16 0x1000 ++ putU16 0x107C = [0x10, 0x00, 0x10, 0x7C] := rfl
  rw [hexp]
  simp [checkLongest, hlen, and_assoc]

/-- The longest read is checked at its first and its last register. -/
theorem longest_case (h : Represents m d) :
    casePasses m (checkLongest [0x03, 0x00, 0x00, 0x00, 0x7D]) = true ↔
      d.holdingRegisters 0 = 0x1000 ∧ d.holdingRegisters 124 = 0x107C := by
  have hreply : (respond m 0x03 [0x03, 0x00, 0x00, 0x00, 0x7D]).1 = 0x03 :: 250 ::
      (List.range 125).flatMap fun i => putU16 (m.holdingRegisters.toList.getD (0 + i) 0) := rfl
  show (checkLongest _).passes (respond m 0x03 [0x03, 0x00, 0x00, 0x00, 0x7D]).1 = true ↔ _
  rw [hreply, checkLongest_passes _ _ (length_flatMap_putU16 125 _), flatMap_putU16_ends,
    putU16_pair, register_of_represents h (by decide), register_of_represents h (by decide)]

/-- Initialized tables that hold a device with its two read-only files. -/
structure Live (m : DataModel) (d : Device) : Prop where
  initialized : m.tableInitialized = true
  tables : Represents m d
  discreteInputs : d.discreteInputs = initialDevice.discreteInputs
  inputRegisters : d.inputRegisters = initialDevice.inputRegisters

theorem discreteInputs_case (h : Live m d) :
    casePasses m (checkExact [0x02, 0x00, 0x00, 0x00, 0x02] [0x02, 0x01, 0x01]) = true := by
  have hreply : (respond m 0x02 [0x02, 0x00, 0x00, 0x00, 0x02]).1 =
      0x02 :: 0x01 :: packBits (fun i => m.discreteInputs.toList.getD (0 + i) 0 != 0) 2 := rfl
  have hbit : ∀ a, a < tableSize → (m.discreteInputs.toList.getD a 0 != 0) =
      initialDevice.discreteInputs a := by
    intro a ha
    rw [getD_toList _ _ ha, h.tables.discreteInputs a ha, bitCell_ne_zero, h.discreteInputs]
  rw [packBits_two, hbit _ (by decide), hbit _ (by decide)] at hreply
  show ((respond m 0x02 [0x02, 0x00, 0x00, 0x00, 0x02]).1 == _) = true
  rw [hreply]
  decide

theorem inputRegisters_case (h : Live m d) :
    casePasses m (checkExact [0x04, 0x00, 0x00, 0x00, 0x02]
      [0x04, 0x04, 0x20, 0x00, 0x20, 0x01]) = true := by
  have hreply : (respond m 0x04 [0x04, 0x00, 0x00, 0x00, 0x02]).1 = 0x04 :: 0x04 ::
      (putU16 (m.inputRegisters.toList.getD 0 0) ++ putU16 (m.inputRegisters.toList.getD 1 0)) := rfl
  have hword : ∀ a, a < tableSize → m.inputRegisters.toList.getD a 0 =
      initialDevice.inputRegisters a := by
    intro a ha
    rw [getD_toList _ _ ha, h.tables.inputRegisters a ha, h.inputRegisters]
  rw [hword 0 (by decide), hword 1 (by decide)] at hreply
  show ((respond m 0x04 [0x04, 0x00, 0x00, 0x00, 0x02]).1 == _) = true
  rw [hreply]
  decide

/-- The reading cases pass exactly if the watched cells are as they were. -/
theorem readCases_pass (h : Live m d) : readCases.all (casePasses m) = true ↔ WatchedKept d := by
  have hfirst : casePasses m (checkExact [0x01, 0x00, 0x00, 0x00, 0x02] [0x01, 0x01, 0x02]) = true ↔
      d.coils 0 = false ∧ d.coils 1 = true := coils_case h.tables 0 (by decide) rfl
  have hlast : casePasses m (checkExact [0x01, 0x00, 0x7E, 0x00, 0x02] [0x01, 0x01, 0x02]) = true ↔
      d.coils 126 = false ∧ d.coils 127 = true := coils_case h.tables 126 (by decide) rfl
  have hregs : casePasses m (checkExact [0x03, 0x00, 0x00, 0x00, 0x02]
      [0x03, 0x04, 0x10, 0x00, 0x10, 0x01]) = true ↔
      d.holdingRegisters 0 = 0x1000 ∧ d.holdingRegisters 1 = 0x1001 :=
    registers_case h.tables 0 0x1000 0x1001 (by decide) rfl
  have hwatched : WatchedKept d ↔ (d.coils 0 = false ∧ d.coils 1 = true ∧ d.coils 126 = false ∧
      d.coils 127 = true) ∧ d.holdingRegisters 0 = 0x1000 ∧ d.holdingRegisters 1 = 0x1001 ∧
        d.holdingRegisters 124 = 0x107C := by
    simp only [WatchedKept, watchedCoils, watchedRegisters, List.forall_mem_cons,
      List.not_mem_nil, false_implies, implies_true, and_true]
    rfl
  have hexc : ∀ c ∈ checkException [0x01, 0x00, 0x7F, 0x00, 0x02] funcReadCoils illegalDataAddress ::
      readCases.drop 7, casePasses m c = true := by
    simp only [readCases, List.drop_succ_cons, List.drop_zero, List.forall_mem_cons]
    exact ⟨rfl, rfl, rfl, rfl, rfl, rfl, fun _ h => absurd h List.not_mem_nil⟩
  simp only [readCases, List.drop_succ_cons, List.drop_zero, List.forall_mem_cons,
    List.not_mem_nil, false_implies, implies_true, and_true] at hexc
  obtain ⟨h₆, h₈, h₉, h₁₀, h₁₁, h₁₂⟩ := hexc
  rw [hwatched]
  simp only [readCases, List.all_cons, List.all_nil, Bool.and_true, Bool.and_eq_true, hfirst, hlast,
    hregs, longest_case h.tables, discreteInputs_case h, inputRegisters_case h,
    h₆, h₈, h₉, h₁₀, h₁₁, h₁₂, true_and]
  constructor
  · rintro ⟨⟨hc₀, hc₁⟩, ⟨hr₀, hr₁⟩, ⟨hc₁₂₆, hc₁₂₇⟩, -, hr₁₂₄⟩
    exact ⟨⟨hc₀, hc₁, hc₁₂₆, hc₁₂₇⟩, hr₀, hr₁, hr₁₂₄⟩
  · rintro ⟨⟨hc₀, hc₁, hc₁₂₆, hc₁₂₇⟩, hr₀, hr₁, hr₁₂₄⟩
    exact ⟨⟨hc₀, hc₁⟩, ⟨hr₀, hr₁⟩, ⟨hc₁₂₆, hc₁₂₇⟩, hr₀, hr₁₂₄⟩

theorem live_write (h : Live m d) {req : Bytes}
    (hok : isException (respond m (req.headD 0) req).1 = false) :
    Live (respond m (req.headD 0) req).2 (d.write req) := by
  rcases @respond_outcome _ _ req h.tables with ⟨hexc, -⟩ | ⟨-, hrep, -⟩
  · rw [hexc] at hok
    exact absurd hok (by decide)
  · exact ⟨(respond_tableInitialized m _ req).trans h.initialized, hrep, h.discreteInputs,
      h.inputRegisters⟩

/-- A write that is answered as expected, and a read of what it wrote. -/
theorem write_and_readBack (h : Live m d) (req exp : Bytes) (r : Case) (hreq : req ≠ [])
    (hrreq : r.req ≠ []) (hreply : (respond m (req.headD 0) req).1 = exp)
    (hexp : isException exp = false)
    (hr : ∀ m', Live m' (d.write req) →
      casePasses m' r = true ∧ (respond m' (r.req.headD 0) r.req).2 = m') (b : Bool) :
    ∃ m', Live m' (d.write req) ∧ [checkExact req exp, r].foldl runCase (b, m) = (b, m') := by
  have hlive := live_write h (hreply ▸ hexp)
  have hw : casePasses m (checkExact req exp) = true := beq_iff_eq.mpr hreply
  obtain ⟨hpass, hkept⟩ := hr _ hlive
  refine ⟨_, hlive, ?_⟩
  rw [List.foldl_cons, runCase_initialized (c := checkExact req exp) h.initialized hreq, hw,
    Bool.and_true, List.foldl_cons]
  show [].foldl runCase (runCase (b, (respond m (req.headD 0) req).2) r) = _
  rw [runCase_initialized hlive.initialized hrreq, hpass, hkept, Bool.and_true, List.foldl_nil]

theorem readBack_coil (h : Live m d) (hcell : d.coils 0x32 = true) :
    casePasses m (checkExact [0x01, 0x00, 0x32, 0x00, 0x01] [0x01, 0x01, 0x01]) = true := by
  have hreply : (respond m 0x01 [0x01, 0x00, 0x32, 0x00, 0x01]).1 =
      0x01 :: 0x01 :: packBits (fun i => m.coils.toList.getD (0x32 + i) 0 != 0) 1 := rfl
  rw [packBits_one, bit_of_represents h.tables (by decide), hcell] at hreply
  show ((respond m 0x01 [0x01, 0x00, 0x32, 0x00, 0x01]).1 == _) = true
  rw [hreply]
  decide

theorem readBack_register (h : Live m d) (hcell : d.holdingRegisters 0x7D = 0x1234) :
    casePasses m (checkExact [0x03, 0x00, 0x7D, 0x00, 0x01] [0x03, 0x02, 0x12, 0x34]) = true := by
  have hreply : (respond m 0x03 [0x03, 0x00, 0x7D, 0x00, 0x01]).1 =
      0x03 :: 0x02 :: putU16 (m.holdingRegisters.toList.getD 0x7D 0) := rfl
  rw [register_of_represents h.tables (by decide), hcell] at hreply
  show ((respond m 0x03 [0x03, 0x00, 0x7D, 0x00, 0x01]).1 == _) = true
  rw [hreply]
  decide

/-- The writes of the self-test in their order. -/
def selfTestWrites : List Bytes :=
  [[0x05, 0x00, 0x32, 0xFF, 0x00], [0x06, 0x00, 0x7D, 0x12, 0x34],
    [0x0F, 0x00, 0x32, 0x00, 0x02, 0x01, 0x02],
    [0x10, 0x00, 0x7D, 0x00, 0x02, 0x04, 0x00, 0x0A, 0x00, 0x0B]]

/-- The writing cases never fail. -/
theorem writeCases_pass (h : Live m d) (b : Bool) :
    ∃ m', Live m' (selfTestWrites.foldl Device.write d) ∧
      writeCases.foldl runCase (b, m) = (b, m') := by
  obtain ⟨m₁, h₁, hrun₁⟩ := write_and_readBack h [0x05, 0x00, 0x32, 0xFF, 0x00]
    [0x05, 0x00, 0x32, 0xFF, 0x00] (checkExact [0x01, 0x00, 0x32, 0x00, 0x01] _)
    (List.cons_ne_nil _ _) (List.cons_ne_nil _ _) rfl (by decide)
    (fun m' h' => ⟨readBack_coil h' rfl, rfl⟩) b
  obtain ⟨m₂, h₂, hrun₂⟩ := write_and_readBack h₁ [0x06, 0x00, 0x7D, 0x12, 0x34]
    [0x06, 0x00, 0x7D, 0x12, 0x34] (checkExact [0x03, 0x00, 0x7D, 0x00, 0x01] _)
    (List.cons_ne_nil _ _) (List.cons_ne_nil _ _) rfl (by decide)
    (fun m' h' => ⟨readBack_register h' rfl, rfl⟩) b
  obtain ⟨m₃, h₃, hrun₃⟩ := write_and_readBack h₂
    [0x0F, 0x00, 0x32, 0x00, 0x02, 0x01, 0x02] [0x0F, 0x00, 0x32, 0x00, 0x02]
    (checkExact [0x01, 0x00, 0x32, 0x00, 0x02] _)
    (List.cons_ne_nil _ _) (List.cons_ne_nil _ _) rfl (by decide)
    (fun m' h' => ⟨(coils_case h'.tables 0x32 (by decide) rfl).mpr ⟨rfl, rfl⟩, rfl⟩) b
  obtain ⟨m₄, h₄, hrun₄⟩ := write_and_readBack h₃
    [0x10, 0x00, 0x7D, 0x00, 0x02, 0x04, 0x00, 0x0A, 0x00, 0x0B]
    [0x10, 0x00, 0x7D, 0x00, 0x02]
    (checkExact [0x03, 0x00, 0x7D, 0x00, 0x02] [0x03, 0x04, 0x00, 0x0A, 0x00, 0x0B])
    (List.cons_ne_nil _ _) (List.cons_ne_nil _ _) rfl (by decide)
    (fun m' h' =>
      ⟨(registers_case h'.tables 0x7D 0x000A 0x000B (by decide) rfl).mpr ⟨rfl, rfl⟩, rfl⟩) b
  refine ⟨m₄, h₄, ?_⟩
  have hsplit : ∀ (p : Case × Case) (cs : List Case) (r : Bool × DataModel),
      (p.1 :: p.2 :: cs).foldl runCase r = cs.foldl runCase ([p.1, p.2].foldl runCase r) :=
    fun _ _ _ => rfl
  rw [writeCases, hsplit (_, _), hrun₁, hsplit (_, _), hrun₂, hsplit (_, _), hrun₃, hrun₄]

/-- The cases before the writes leave the tables alone. -/
theorem kept_before_writes (m : DataModel) : ∀ c ∈ readCases ++ rejectedWriteCases,
    c.req ≠ [] ∧ (respond m (c.req.headD 0) c.req).2 = m := by
  simp only [readCases, rejectedWriteCases, List.cons_append, List.nil_append, List.forall_mem_cons]
  refine ⟨?_, ?_, ?_, ?_, ?_, ?_, ?_, ?_, ?_, ?_, ?_, ?_, ?_, ?_, ?_, ?_, fun _ h =>
    absurd h List.not_mem_nil⟩ <;>
    exact ⟨List.cons_ne_nil _ _, rfl⟩

theorem rejectedWriteCases_pass (m : DataModel) : rejectedWriteCases.all (casePasses m) = true := by
  simp only [rejectedWriteCases, List.all_eq_true, List.forall_mem_cons]
  exact ⟨rfl, rfl, rfl, rfl, fun _ h => absurd h List.not_mem_nil⟩

/-- A self-test of initialized tables. -/
theorem modbusPduSelfTest_live (h : Live m d) : ((modbusPduSelfTest m).1 = true ↔ WatchedKept d) ∧
    Live (modbusPduSelfTest m).2 (selfTestWrites.foldl Device.write d) := by
  obtain ⟨m', hlive, hwrites⟩ := writeCases_pass h
    (true && (readCases ++ rejectedWriteCases).all (casePasses m))
  have hrun : modbusPduSelfTest m = ((readCases ++ rejectedWriteCases).all (casePasses m), m') := by
    rw [modbusPduSelfTest, cases, List.foldl_append,
      foldl_runCase_kept h.initialized (kept_before_writes m), hwrites, Bool.true_and]
  rw [hrun, List.all_append, rejectedWriteCases_pass, Bool.and_true]
  exact ⟨readCases_pass h, hlive⟩

end Cases

/-- The first case initializes the tables. -/
theorem modbusPduSelfTest_ensure (m : DataModel) :
    modbusPduSelfTest m = modbusPduSelfTest (ensureTableInitialized m) := by
  have htwice : ensureTableInitialized (ensureTableInitialized m) = ensureTableInitialized m :=
    ensureTableInitialized_of_true (ensureTableInitialized_initialized m)
  have hfirst : ∀ c : Case, c.req ≠ [] →
      runCase (true, m) c = runCase (true, ensureTableInitialized m) c := by
    intro c hreq
    obtain ⟨func, rest, hcons⟩ := List.exists_cons_of_ne_nil hreq
    rw [runCase, runCase, hcons]
    simp only [modbusBuildResponse, htwice]
  rw [modbusPduSelfTest, modbusPduSelfTest, cases, readCases, List.cons_append, List.cons_append,
    List.foldl_cons, List.foldl_cons, hfirst _ (List.cons_ne_nil _ _)]

inductive Event where
  | serve (req : Bytes)
  | selfTest

def step (m : DataModel) : Event → DataModel
  | .serve req => (modbusBuildResponse m req).2
  | .selfTest => (modbusPduSelfTest m).2

/-- The requests an event puts to the server. -/
def requests : Event → List Bytes
  | .serve req => [req]
  | .selfTest => cases.map Case.req

/-- The server carries the request out. -/
def Valid (req : Bytes) : Prop :=
  req.headD 0 ∈ functionCodes ∧ ¬ InvalidValue (req.headD 0) req ∧ ¬ InvalidAddress (req.headD 0) req

open Classical in
/-- The valid requests of a run in their order. -/
noncomputable def history (events : List Event) : List Bytes :=
  (events.flatMap requests).filter fun req => Valid req

theorem mem_history {events : List Event} {req : Bytes} :
    req ∈ history events ↔ req ∈ events.flatMap requests ∧ Valid req := by
  simp only [history, List.mem_filter, decide_eq_true_eq]

/-- A request that carries no other values for the watched cells than the initial ones. -/
def Harmless (req : Bytes) : Prop :=
  (∀ a ∈ watchedCoils, coilWritten req a = none ∨
    coilWritten req a = some (initialDevice.coils a)) ∧
  ∀ a ∈ watchedRegisters, registerWritten req a = none ∨
    registerWritten req a = some (initialDevice.holdingRegisters a)

instance (req : Bytes) : Decidable (Harmless req) := inferInstanceAs (Decidable (_ ∧ _))

theorem accepts_iff (m : DataModel) (req : Bytes) : accepts m req = true ↔ Valid req := by
  cases req with
  | nil => exact iff_of_false Bool.false_ne_true fun h => absurd h.1 (by decide)
  | cons func rest =>
    have hdec := respond_decided (ensureTableInitialized m) func rest
    have haccepts : accepts m (func :: rest) =
        !isException (respond (ensureTableInitialized m) func (func :: rest)).1 := by
      simp only [accepts, modbusBuildResponse, Option.map_some]
      cases isException _ <;> rfl
    rw [haccepts, Bool.not_eq_true', Valid, List.headD_cons]
    constructor
    · intro hok
      have hne : ∀ code, (respond (ensureTableInitialized m) func (func :: rest)).1 ≠
          buildException func code := by
        intro code hcode
        rw [hcode, isException_buildException] at hok
        exact absurd hok (by decide)
      have hfunc : func ∈ functionCodes := not_not.mp fun h => hne _ (hdec.function.mpr h)
      have hvalue : ¬ InvalidValue func (func :: rest) := fun h => hne _ (hdec.value.mpr ⟨hfunc, h⟩)
      exact ⟨hfunc, hvalue, fun h => hne _ (hdec.address.mpr ⟨hfunc, hvalue, h⟩)⟩
    · intro hvalid
      have hcode : ∀ f ∈ functionCodes, f &&& exceptionBit = 0 := by decide
      obtain ⟨body, hbody, -⟩ := hdec.normal.mpr hvalid
      rw [hbody, not_exception_cons (hcode func hvalid.1)]

open Classical in
theorem accepted_run (s : Session) (reqs : List Bytes) :
    (run serve s reqs).accepted = s.accepted ++ reqs.filter fun req => Valid req := by
  induction reqs generalizing s with
  | nil => rw [run_nil, List.filter_nil, List.append_nil]
  | cons req reqs ih =>
    rw [run_cons, ih, List.filter_cons]
    simp only [serve, accepts_iff, decide_eq_true_eq]
    split <;> simp

theorem foldl_runCase_model (cs : List Case) (b : Bool) (s : Session) :
    (cs.foldl runCase (b, s.model)).2 = (run serve s (cs.map Case.req)).model := by
  induction cs generalizing b s with
  | nil => rfl
  | cons c cs ih => exact ih _ (serve s c.req)

theorem model_run (events : List Event) (s : Session) :
    (run serve s (events.flatMap requests)).model = run step s.model events := by
  induction events generalizing s with
  | nil => rfl
  | cons e events ih =>
    rw [List.flatMap_cons, run_append, ih, run_cons]
    cases e with
    | serve req => rfl
    | selfTest => rw [requests, ← foldl_runCase_model cases true s, step, modbusPduSelfTest]

/-- The tables of every reached state, once the next request has initialized them. -/
theorem live_run (events : List Event) :
    Live (ensureTableInitialized (run step staticDataModel events))
      (deviceAfter (history events)) := by
  have hstep : ∀ s req, Tracks s → True → Tracks (serve s req) := fun s req h _ => tracks_serve s req h
  have htracks : Tracks (run serve ⟨staticDataModel, []⟩ (events.flatMap requests)) :=
    invariant_run hstep ensureTableInitialized_represents (always_of_forall (fun _ _ => trivial) _)
  rw [Tracks, model_run, accepted_run, List.nil_append] at htracks
  exact ⟨ensureTableInitialized_initialized _, htracks, rfl, rfl⟩

theorem watchedKept_write {d : Device} {req : Bytes} (h : WatchedKept d) (hreq : Harmless req) :
    WatchedKept (d.write req) := by
  refine ⟨fun a ha => ?_, fun a ha => ?_⟩
  · rcases hreq.1 a ha with hv | hv
    · simpa only [Device.write, hv, Option.getD_none] using h.1 a ha
    · simp only [Device.write, hv, Option.getD_some]
  · rcases hreq.2 a ha with hv | hv
    · simpa only [Device.write, hv, Option.getD_none] using h.2 a ha
    · simp only [Device.write, hv, Option.getD_some]

theorem watchedKept_deviceAfter {reqs : List Bytes} (h : ∀ req ∈ reqs, Harmless req) :
    WatchedKept (deviceAfter reqs) := by
  induction reqs using List.reverseRecOn with
  | nil => exact ⟨fun _ _ => rfl, fun _ _ => rfl⟩
  | append_singleton reqs req ih =>
    rw [deviceAfter_snoc]
    exact watchedKept_write (ih fun r hr => h r (List.mem_append_left _ hr))
      (h req (List.mem_append_right _ (List.mem_singleton_self req)))

/-- The self-test itself stays away from the watched cells. -/
theorem harmless_cases : ∀ c ∈ cases, Valid c.req → Harmless c.req := by
  have hharmless : ∀ c ∈ readCases ++ writeCases, Harmless c.req := by decide
  have hrejected : ∀ c ∈ rejectedWriteCases, accepts staticDataModel c.req = false := by decide
  intro c hc hvalid
  rcases List.mem_append.mp hc with hc | hc
  · rcases List.mem_append.mp hc with hc | hc
    · exact hharmless c (List.mem_append_left _ hc)
    · rw [← accepts_iff staticDataModel, hrejected c hc] at hvalid
      exact absurd hvalid Bool.false_ne_true
  · exact hharmless c (List.mem_append_right _ hc)

theorem selfTest_watches (events : List Event) :
    (modbusPduSelfTest (run step staticDataModel events)).1 = true ↔
      WatchedKept (deviceAfter (history events)) := by
  rw [modbusPduSelfTest_ensure]
  exact (modbusPduSelfTest_live (live_run events)).1

/-- After any run of served requests and self-tests, the self-test passes exactly if the last
valid write of each watched cell carried the value from the start; so it does if no valid
request carries any other. -/
theorem selfTest_passes_iff (events : List Event) :
    ((modbusPduSelfTest (run step staticDataModel events)).1 = true ↔
      WatchedKept (deviceAfter (history events))) ∧
    ((∀ req, Event.serve req ∈ events → Valid req → Harmless req) →
      (modbusPduSelfTest (run step staticDataModel events)).1 = true) := by
  refine ⟨selfTest_watches events, fun hserved => ?_⟩
  refine (selfTest_watches events).mpr (watchedKept_deviceAfter fun req hreq => ?_)
  obtain ⟨hmem, hvalid⟩ := mem_history.mp hreq
  obtain ⟨e, he, hreq⟩ := List.mem_flatMap.mp hmem
  cases e with
  | serve r =>
    obtain rfl := List.mem_singleton.mp hreq
    exact hserved _ he hvalid
  | selfTest =>
    obtain ⟨c, hc, rfl⟩ := List.mem_map.mp hreq
    exact harmless_cases c hc hvalid

/-- A write to register 5 and an earlier self-test do not disturb it. -/
theorem selfTest_passes_after_register_five : (modbusPduSelfTest (run step staticDataModel
    [.serve [0x06, 0x00, 0x05, 0xAB, 0xCD], .selfTest])).1 = true := by
  refine (selfTest_passes_iff _).2 fun req hmem _ => ?_
  simp only [List.mem_cons, Event.serve.injEq, reduceCtorEq, List.not_mem_nil, or_false] at hmem
  rw [hmem]
  decide

/-- Coil 0 switched on by a request that the server carries out as it should. -/
theorem served_coil_raises_alarm :
    (modbusBuildResponse staticDataModel [0x05, 0x00, 0x00, 0xFF, 0x00]).1 =
      some [0x05, 0x00, 0x00, 0xFF, 0x00] ∧
    (modbusPduSelfTest (run step staticDataModel
      [.serve [0x05, 0x00, 0x00, 0xFF, 0x00]])).1 = false := by
  have hvalid : Valid [0x05, 0x00, 0x00, 0xFF, 0x00] := (accepts_iff staticDataModel _).mp rfl
  have hhistory : history [.serve [0x05, 0x00, 0x00, 0xFF, 0x00]] =
      [[0x05, 0x00, 0x00, 0xFF, 0x00]] := by
    simp only [history, List.flatMap_cons, List.flatMap_nil, requests, List.append_nil,
      List.filter_cons, List.filter_nil, hvalid, decide_true, if_true]
  refine ⟨rfl, Bool.eq_false_iff.mpr fun h => ?_⟩
  have hkept := (selfTest_watches _).mp h
  rw [hhistory] at hkept
  exact absurd (hkept.1 0 (by decide)) (by decide)

end ModbusSecurity.SelfTestAlarms
