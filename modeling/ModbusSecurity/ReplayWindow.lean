import ModbusSecurity.AdmissionWindow
import ModbusSecurity.CounterAccounting

/-! # The replay window of a channel

The calls of `ctr_state_validate_incoming` on one channel in an arbitrary run of the
counter operations. The incoming half of the entry is an admission window whose floor is
the initial counter of the key store, and neither the outgoing half nor a restart moves it. -/
namespace ModbusSecurity.ReplayWindow
open ByteStrings TextStreams KeyStore CounterFile CounterState CounterAccounting AdmissionWindow

/-- What may happen to the channel and to the key store. -/
def Permitted (c : Channel) : Op → Prop
  | .reset slave_addr dir => channelIndex slave_addr dir ≠ some c
  | .rekey _ => False
  | _ => True

/-- The counter that a call asks about on the channel `c`. -/
def call (c : Channel) : Op → Option Int32Bits
  | .validateIncoming slave_addr dir ctr =>
    if channelIndex slave_addr dir = some c then some ctr else none
  | _ => none

/-- The counter and the verdict, for calls on the channel `c`. -/
def verdict (c : Channel) (n : Node) : Op → List (Int32Bits × Bool)
  | .validateIncoming slave_addr dir ctr =>
    if channelIndex slave_addr dir = some c then
      [(ctr, (ctrStateValidateIncoming n slave_addr dir ctr).1)]
    else []
  | _ => []

def verdicts (c : Channel) : Node → List Op → List (Int32Bits × Bool)
  | _, [] => []
  | n, op :: ops => verdict c n op ++ verdicts c (step n op) ops

/-- The highest counter that the table has on record for a channel. -/
def window (c : Channel) (n : Node) : Option Int32Bits :=
  if (n.ctrTable c).validIn = 0 then none else some (n.ctrTable c).highIn

/-- The highest of the counter on record and those accepted since, or the initial counter. -/
def bound (c : Channel) (n : Node) (accepted : List Int32Bits) : ℕ :=
  ((((window c n).toList ++ accepted).map BitVec.toNat).max?).getD (seed n.keyTable c).toNat

section Step
variable {n : Node} {c : Channel}

theorem window_storeEntry {d : Channel} {e : CtrEntry}
    (h : c = d → e.validIn = (n.ctrTable c).validIn ∧ e.highIn = (n.ctrTable c).highIn) :
    window c (storeEntry n d e) = window c n := by
  by_cases hcd : c = d
  · obtain ⟨hin, hhigh⟩ := h hcd
    subst hcd
    simp only [window, storeEntry_ctrTable, Function.update_self, hin, hhigh]
  · simp only [window, storeEntry_ctrTable, Function.update_of_ne hcd]

theorem window_load_persisted (hd : n.disk.Reliable) (old : CtrTable)
    (hold : ∀ d, (n.ctrTable d).blank = true → (old d).validIn = 0) :
    window c (ctrStateLoad { (ctrStatePersist n).2 with ctrTable := old }).2 = window c n := by
  simp only [ctrStateLoad_persisted hd, window, loadText_persistText]
  cases hb : (n.ctrTable c).blank with
  | false => rfl
  | true =>
    have hzero : (n.ctrTable c).validIn = 0 := by
      simp only [CtrEntry.blank, Bool.and_eq_true, beq_iff_eq] at hb
      exact hb.2
    simp only [if_true, hold c hb, hzero]

section Call
variable {slave_addr : Byte} {dir : KeyDirection} {ctr : Int32Bits}

theorem ctrStateValidateIncoming_low (hc : channelIndex slave_addr dir = some c)
    (hlow : ctr < (window c n).getD (seed n.keyTable c)) :
    ctrStateValidateIncoming n slave_addr dir ctr = (false, n) := by
  rw [ctrStateValidateIncoming_eq hc]
  by_cases hunset : (n.ctrTable c).validIn = 0
  · rw [window, if_pos hunset] at hlow
    rw [if_pos hunset]
    exact if_pos hlow
  · rw [window, if_neg hunset] at hlow
    rw [if_neg hunset]
    exact if_pos hlow

theorem ctrStateValidateIncoming_high (hc : channelIndex slave_addr dir = some c)
    (hhigh : ¬ ctr < (window c n).getD (seed n.keyTable c)) :
    (ctrStateValidateIncoming n slave_addr dir ctr).1 = true ∧
      window c (ctrStateValidateIncoming n slave_addr dir ctr).2 = some ctr := by
  rw [ctrStateValidateIncoming_eq hc]
  by_cases hunset : (n.ctrTable c).validIn = 0
  · rw [window, if_pos hunset] at hhigh
    rw [if_pos hunset, if_neg (by exact hhigh)]
    exact ⟨rfl, by simp [window]⟩
  · rw [window, if_neg hunset] at hhigh
    rw [if_neg hunset, if_neg (by exact hhigh)]
    split
    · rename_i hretry
      exact ⟨rfl, by rw [window, if_neg hunset, hretry]⟩
    · exact ⟨rfl, by rw [window, storeEntry_ctrTable, Function.update_self, if_neg (by exact hunset)]⟩

/-- A call is one admission. -/
theorem ctrStateValidateIncoming_judge (hc : channelIndex slave_addr dir = some c) :
    ((ctrStateValidateIncoming n slave_addr dir ctr).1,
      (window c (ctrStateValidateIncoming n slave_addr dir ctr).2).map BitVec.toNat) =
    judge (seed n.keyTable c).toNat ((window c n).map BitVec.toNat) ctr.toNat := by
  have hfloor : ((window c n).map BitVec.toNat).getD (seed n.keyTable c).toNat =
      ((window c n).getD (seed n.keyTable c)).toNat := Option.getD_map ..
  rw [judge, hfloor]
  by_cases hlow : ctr < (window c n).getD (seed n.keyTable c)
  · rw [ctrStateValidateIncoming_low hc hlow, if_pos (BitVec.lt_def.mp hlow)]
  · obtain ⟨haccept, hwindow⟩ := ctrStateValidateIncoming_high hc hlow
    rw [haccept, hwindow, if_neg (fun h => hlow (BitVec.lt_def.mpr h))]
    rfl

/-- A call that is turned away leaves everything as it was. -/
theorem ctrStateValidateIncoming_rejected
    (h : (ctrStateValidateIncoming n slave_addr dir ctr).1 = false) :
    (ctrStateValidateIncoming n slave_addr dir ctr).2 = n := by
  cases hc : channelIndex slave_addr dir with
  | none => simp only [ctrStateValidateIncoming, hc]
  | some c =>
    by_cases hlow : ctr < (window c n).getD (seed n.keyTable c)
    · rw [ctrStateValidateIncoming_low hc hlow]
    · exact absurd (h.symm.trans (ctrStateValidateIncoming_high hc hlow).1) (by decide)

end Call

theorem step_keyTable {op : Op} (hop : Permitted c op) : (step n op).keyTable = n.keyTable := by
  cases op with
  | nextOutgoing slave_addr dir msg_len =>
    cases hc : channelIndex slave_addr dir with
    | none => simp only [step, ctrStateNextOutgoing, hc]
    | some d => rw [step, ctrStateNextOutgoing_eq hc, storeEntry_keyTable]
  | validateIncoming slave_addr dir ctr =>
    cases hc : channelIndex slave_addr dir with
    | none => simp only [step, ctrStateValidateIncoming, hc]
    | some d =>
      rw [step]
      rcases ctrStateValidateIncoming_cases hc n ctr with h | ⟨validIn, highIn, h⟩
      · rw [h]
      · rw [h, storeEntry_keyTable]
  | reset slave_addr dir =>
    cases hc : channelIndex slave_addr dir with
    | none => simp only [step, ctrStateReset, hc]
    | some d => rw [step, ctrStateReset_eq hc, storeEntry_keyTable]
  | persistLoad => exact ctrStateLoad_keyTable _
  | persistRestartLoad => exact ctrStateLoad_keyTable _
  | rekey keyTable => cases hop

/-- The other operations are not seen in the window. -/
theorem step_window (hd : n.disk.Reliable) {op : Op} (hop : Permitted c op) (hcall : call c op = none) :
    window c (step n op) = window c n := by
  cases op with
  | nextOutgoing slave_addr dir msg_len =>
    cases hc : channelIndex slave_addr dir with
    | none => simp only [step, ctrStateNextOutgoing, hc]
    | some d =>
      rw [step, ctrStateNextOutgoing_eq hc]
      apply window_storeEntry
      rintro rfl
      exact ⟨rfl, rfl⟩
  | validateIncoming slave_addr dir ctr =>
    cases hc : channelIndex slave_addr dir with
    | none => simp only [step, ctrStateValidateIncoming, hc]
    | some d =>
      rw [step]
      rcases ctrStateValidateIncoming_cases hc n ctr with h | ⟨validIn, highIn, h⟩
      · rw [h]
      · rw [h]
        apply window_storeEntry
        rintro rfl
        simp [call, hc] at hcall
  | reset slave_addr dir =>
    cases hc : channelIndex slave_addr dir with
    | none => simp only [step, ctrStateReset, hc]
    | some d =>
      rw [step, ctrStateReset_eq hc]
      apply window_storeEntry
      rintro rfl
      exact absurd hc hop
  | persistLoad =>
    apply window_load_persisted hd
    intro d hb
    simp only [CtrEntry.blank, Bool.and_eq_true, beq_iff_eq] at hb
    exact hb.2
  | persistRestartLoad => exact window_load_persisted hd emptyCtrTable fun _ _ => rfl
  | rekey keyTable => cases hop

end Step

/-- The verdicts on a channel are those of an admission window over its own calls. -/
theorem verdicts_eq_admissions (c : Channel) {n : Node} (hd : n.disk.Reliable) {ops : List Op}
    (hops : ∀ op ∈ ops, Permitted c op) :
    (verdicts c n ops).map (Prod.map BitVec.toNat id) =
      admissions (seed n.keyTable c).toNat ((window c n).map BitVec.toNat)
        ((ops.filterMap (call c)).map BitVec.toNat) := by
  induction ops generalizing n with
  | nil => rfl
  | cons op ops ih =>
    have hop := hops op (List.mem_cons_self ..)
    have hrest := ih (step_reliable hd op) fun a ha => hops a (List.mem_cons_of_mem _ ha)
    rw [step_keyTable hop] at hrest
    rw [verdicts, List.map_append, hrest]
    cases hcall : call c op with
    | none =>
      have hverdict : verdict c n op = [] := by
        cases op with
        | validateIncoming slave_addr dir ctr =>
          by_cases hc : channelIndex slave_addr dir = some c
          · simp [call, hc] at hcall
          · exact if_neg hc
        | _ => rfl
      rw [hverdict, step_window hd hop hcall, List.filterMap_cons_none hcall]
      rfl
    | some ctr =>
      obtain ⟨slave_addr, dir, rfl, hc⟩ : ∃ slave_addr dir,
          op = .validateIncoming slave_addr dir ctr ∧ channelIndex slave_addr dir = some c := by
        cases op with
        | validateIncoming slave_addr dir ctr' =>
          simp only [call, Option.ite_none_right_eq_some, Option.some.injEq] at hcall
          exact ⟨slave_addr, dir, by rw [hcall.2], hcall.1⟩
        | _ => cases hcall
      rw [List.filterMap_cons_some hcall, List.map_cons, admissions,
        ← ctrStateValidateIncoming_judge hc, verdict, if_pos hc]
      rfl

/-- The incoming counters of a channel over any run that does not reset it: what is accepted
starts at the initial counter and never goes down, what is rejected is what lies below it,
and a rejected call changes nothing. -/
theorem replay_window (n : Node) (hd : n.disk.Reliable) (c : Channel) (ops : List Op)
    (hops : ∀ op ∈ ops, Permitted c op) :
    (window c n = none → ∀ ctr ∈ (admitted (verdicts c n ops)).head?, seed n.keyTable c ≤ ctr) ∧
    (admitted (verdicts c n ops)).Pairwise (· ≤ ·) ∧
    (∀ before ctr accepted after, verdicts c n ops = before ++ (ctr, accepted) :: after →
      (accepted = false ↔ ctr.toNat < bound c n (admitted before))) ∧
    ∀ m slave_addr dir ctr, (ctrStateValidateIncoming m slave_addr dir ctr).1 = false →
      (ctrStateValidateIncoming m slave_addr dir ctr).2 = m := by
  have hlog := verdicts_eq_admissions c hd hops
  refine ⟨?_, ?_, ?_, fun m slave_addr dir ctr => ctrStateValidateIncoming_rejected⟩
  · intro hnone ctr hctr
    have hmem : ctr ∈ admitted (verdicts c n ops) := List.mem_of_mem_head? hctr
    have hmapped := List.mem_map_of_mem (f := BitVec.toNat) hmem
    rw [← admitted_map, hlog, hnone] at hmapped
    exact BitVec.le_def.mpr (le_of_mem_admitted hmapped)
  · have hsorted := admitted_pairwise (seed n.keyTable c).toNat
      ((window c n).map BitVec.toNat) ((ops.filterMap (call c)).map BitVec.toNat)
    rw [← hlog, admitted_map, List.pairwise_map] at hsorted
    exact hsorted.imp fun h => BitVec.le_def.mpr h
  · intro before ctr accepted after hsplit
    rw [hsplit, List.map_append, List.map_cons] at hlog
    have hverdict := verdict_iff hlog.symm
    rw [admitted_map] at hverdict
    have hhigh : ((window c n).map BitVec.toNat).toList = (window c n).toList.map BitVec.toNat := by
      cases window c n <;> rfl
    rw [hhigh, ← List.map_append] at hverdict
    exact hverdict

/-- A provisioned channel whose initial counter is 5. -/
theorem replay_window_one_restart :
    let keyTable := Function.update emptyKeyTable (1, 0) ⟨true, ⟨zeroKey, zeroKey⟩, 5⟩
    let n : Node := { startProcess ⟨fun _ => none, []⟩ with keyTable := keyTable }
    let ops := [Op.validateIncoming 1 .masterToSlave 4, .validateIncoming 1 .masterToSlave 7,
      .nextOutgoing 1 .masterToSlave 17, .persistRestartLoad, .validateIncoming 1 .masterToSlave 6,
      .reset 1 .slaveToMaster, .validateIncoming 1 .masterToSlave 7]
    verdicts (1, 0) n ops = [(4, false), (7, true), (6, false), (7, true)] ∧
      (admitted (verdicts (1, 0) n ops)).Pairwise (· ≤ ·) := by
  intro keyTable n ops
  have hops : ∀ op ∈ ops, Permitted (1, 0) op := by
    simp only [ops, List.forall_mem_cons, Permitted, true_and]
    exact ⟨by decide, fun _ h => absurd h List.not_mem_nil⟩
  refine ⟨by decide +kernel, (replay_window n rfl (1, 0) ops hops).2.1⟩

end ModbusSecurity.ReplayWindow
