import Mathlib.Data.List.Nodup
import ModbusSecurity.CounterState

/-! # The counter file, written and read back

The loops of `ctr_state_persist` as they run on a `uint8_t`, and a new process that loads
what another one wrote. -/
namespace ModbusSecurity.CounterReload
open ByteStrings TextStreams KeyStore TableListings CounterFile CounterState

section Loops
variable {α : Type} (body : Channel → List α)

/-- `for (addr = 0; addr <= 247; addr++)` with the extra `break`; `none` when it has not come
to an end after `fuel` rounds. -/
def forAddresses : ℕ → Byte → Option (List α)
  | 0, _ => none
  | fuel + 1, addr =>
    if h : addr.toNat ≤ keyStoreMaxAddr then
      let row : List α := (List.finRange 3).flatMap fun di =>
        body (⟨addr.toNat, Nat.lt_succ_of_le h⟩, di)
      if addr.toNat = keyStoreMaxAddr then some row
      else (forAddresses fuel (addr + 1)).map fun rest => row ++ rest
    else some []

private theorem forAddresses_from (k : ℕ) (hk : k ≤ keyStoreMaxAddr) (fuel : ℕ)
    (hfuel : keyStoreMaxAddr < k + fuel) :
    forAddresses body fuel (BitVec.ofNat 8 k) =
      some (((List.finRange (keyStoreMaxAddr + 1)).drop k).flatMap fun addr =>
        (List.finRange 3).flatMap fun di => body (addr, di)) := by
  induction fuel generalizing k with
  | zero => omega
  | succ fuel ih =>
    have hlen : k < (List.finRange (keyStoreMaxAddr + 1)).length := by
      rw [List.length_finRange]
      omega
    have hval : (BitVec.ofNat 8 k).toNat = k := by
      simp only [keyStoreMaxAddr] at hk
      exact Nat.mod_eq_of_lt (by omega)
    have hcell : (List.finRange (keyStoreMaxAddr + 1))[k] = ⟨k, Nat.lt_succ_of_le hk⟩ := by
      simp
    rw [List.drop_eq_getElem_cons hlen, List.flatMap_cons, hcell]
    simp only [forAddresses, hval, dif_pos hk]
    by_cases hlast : k = keyStoreMaxAddr
    · rw [if_pos hlast, List.drop_of_length_le (by simp [hlast]), List.flatMap_nil, List.append_nil]
    · have hnext : BitVec.ofNat 8 k + 1 = BitVec.ofNat 8 (k + 1) := (BitVec.ofNat_add k 1).symm
      rw [if_neg hlast, hnext, ih (k + 1) (by omega) (by omega), Option.map_some]

/-- The loop ends, and meets every cell in order. -/
theorem forAddresses_eq {fuel : ℕ} (hfuel : keyStoreMaxAddr < fuel) :
    forAddresses body fuel 0 = some (channels.flatMap body) := by
  rw [show (0 : Byte) = BitVec.ofNat 8 0 from rfl,
    forAddresses_from body 0 (Nat.zero_le _) fuel (by omega), List.drop_zero, channels,
    List.flatMap_assoc]
  simp only [List.flatMap_map]

end Loops

theorem channels_nodup : channels.Nodup :=
  List.Nodup.product (List.nodup_finRange _) (List.nodup_finRange _)

/-- What one cell prints. -/
def persistCell (table : CtrTable) (c : Channel) : Bytes :=
  if (table c).blank then [] else persistLine c (table c) ++ [ch '\n']

theorem flatMap_persistCell (table : CtrTable) :
    channels.flatMap (persistCell table) = persistText table := by
  rw [persistText, listing]
  induction channels with
  | nil => rfl
  | cons c cs ih =>
    rw [List.flatMap_cons, ih, persistCell, List.filter_cons]
    cases hblank : (table c).blank
    · simp
    · simp

/-- The flags agree, and the values do wherever their flag is set. -/
structure SameCounters (e e' : CtrEntry) : Prop where
  validOut : e'.validOut = e.validOut
  validIn : e'.validIn = e.validIn
  nextOut : e.validOut ≠ 0 → e'.nextOut = e.nextOut
  highIn : e.validIn ≠ 0 → e'.highIn = e.highIn

/-- A persisted table, loaded into one with every channel unset. -/
theorem sameCounters_reload (table : CtrTable) (c : Channel) :
    SameCounters (table c) (loadText (persistText table) emptyCtrTable c) := by
  rw [loadText_persistText]
  cases hblank : (table c).blank with
  | true =>
    obtain ⟨hout, hin⟩ : (table c).validOut = 0 ∧ (table c).validIn = 0 := by
      simpa [CtrEntry.blank] using hblank
    exact ⟨hout.symm, hin.symm, fun h => absurd hout h, fun h => absurd hin h⟩
  | false => exact ⟨rfl, rfl, fun _ => rfl, fun _ => rfl⟩

inductive CounterOp where
  | nextOutgoing (slave_addr : Byte) (dir : KeyDirection) (msg_len : ℕ)
  | validateIncoming (slave_addr : Byte) (dir : KeyDirection) (ctr : Int32Bits)
  | reset (slave_addr : Byte) (dir : KeyDirection)

inductive Answer where
  | counter (value : Int32Bits)
  | accepted (verdict : Bool)
  | done

def perform (n : Node) : CounterOp → Answer × Node
  | .nextOutgoing slave_addr dir msg_len =>
    let (value, n) := ctrStateNextOutgoing n slave_addr dir msg_len
    (.counter value, n)
  | .validateIncoming slave_addr dir ctr =>
    let (verdict, n) := ctrStateValidateIncoming n slave_addr dir ctr
    (.accepted verdict, n)
  | .reset slave_addr dir => (.done, ctrStateReset n slave_addr dir)

def answers : Node → List CounterOp → List Answer
  | _, [] => []
  | n, op :: ops => (perform n op).1 :: answers (perform n op).2 ops

/-- Two processes whose counters say the same, whatever is on their disks. -/
structure SameNode (m n : Node) : Prop where
  keyTable : n.keyTable = m.keyTable
  counters : ∀ c, SameCounters (m.ctrTable c) (n.ctrTable c)

section Operations
variable {m n : Node}

theorem sameNode_storeEntry (h : SameNode m n) {e e' : CtrEntry} (he : SameCounters e e') (c : Channel) :
    SameNode (storeEntry m c e) (storeEntry n c e') := by
  refine ⟨h.keyTable, fun d => ?_⟩
  rw [storeEntry_ctrTable, storeEntry_ctrTable]
  by_cases hd : d = c
  · subst hd
    rw [Function.update_self, Function.update_self]
    exact he
  · rw [Function.update_of_ne hd, Function.update_of_ne hd]
    exact h.counters d

theorem nextValue_same (h : SameNode m n) (c : Channel) : nextValue n c = nextValue m c := by
  obtain ⟨hout, -, hnext, -⟩ := h.counters c
  rw [nextValue, nextValue, hout, h.keyTable]
  split
  · rfl
  · rename_i hset
    exact hnext hset

theorem reserve_same {e e' : CtrEntry} (h : SameCounters e e') (value : Int32Bits) (msg_len : ℕ) :
    SameCounters (reserve e value msg_len) (reserve e' value msg_len) where
  validOut := by simp only [reserve, h.validOut]
  validIn := h.validIn
  nextOut _ := rfl
  highIn := h.highIn

theorem nextOutgoing_same (h : SameNode m n) (slave_addr : Byte) (dir : KeyDirection) (msg_len : ℕ) :
    (ctrStateNextOutgoing n slave_addr dir msg_len).1 =
        (ctrStateNextOutgoing m slave_addr dir msg_len).1 ∧
      SameNode (ctrStateNextOutgoing m slave_addr dir msg_len).2
        (ctrStateNextOutgoing n slave_addr dir msg_len).2 := by
  cases hc : channelIndex slave_addr dir with
  | none =>
    simp only [ctrStateNextOutgoing, hc]
    exact ⟨trivial, h⟩
  | some c =>
    rw [ctrStateNextOutgoing_eq hc, ctrStateNextOutgoing_eq hc, nextValue_same h]
    exact ⟨rfl, sameNode_storeEntry h (reserve_same (h.counters c) _ _) c⟩

theorem validateIncoming_same (h : SameNode m n) (slave_addr : Byte) (dir : KeyDirection)
    (ctr : Int32Bits) :
    (ctrStateValidateIncoming n slave_addr dir ctr).1 =
        (ctrStateValidateIncoming m slave_addr dir ctr).1 ∧
      SameNode (ctrStateValidateIncoming m slave_addr dir ctr).2
        (ctrStateValidateIncoming n slave_addr dir ctr).2 := by
  cases hc : channelIndex slave_addr dir with
  | none =>
    simp only [ctrStateValidateIncoming, hc]
    exact ⟨trivial, h⟩
  | some c =>
    obtain ⟨hout, hin, hnext, hhigh⟩ := h.counters c
    rw [ctrStateValidateIncoming_eq hc, ctrStateValidateIncoming_eq hc, hin, h.keyTable]
    by_cases hunset : (m.ctrTable c).validIn = 0
    · rw [if_pos hunset, if_pos hunset]
      split
      · exact ⟨by rfl, h⟩
      · refine ⟨by rfl, ?_⟩
        apply sameNode_storeEntry h
        exact ⟨hout, rfl, hnext, fun _ => rfl⟩
    · rw [if_neg hunset, if_neg hunset, hhigh hunset]
      split
      · exact ⟨by rfl, h⟩
      split
      · exact ⟨by rfl, h⟩
      · refine ⟨by rfl, ?_⟩
        apply sameNode_storeEntry h
        exact ⟨hout, hin, hnext, fun _ => rfl⟩

theorem reset_same (h : SameNode m n) (slave_addr : Byte) (dir : KeyDirection) :
    SameNode (ctrStateReset m slave_addr dir) (ctrStateReset n slave_addr dir) := by
  cases hc : channelIndex slave_addr dir with
  | none => simpa only [ctrStateReset, hc] using h
  | some c =>
    rw [ctrStateReset_eq hc, ctrStateReset_eq hc]
    apply sameNode_storeEntry h
    constructor
    · rfl
    · rfl
    · exact fun hset => absurd rfl hset
    · exact fun hset => absurd rfl hset

theorem perform_same (h : SameNode m n) (op : CounterOp) :
    (perform n op).1 = (perform m op).1 ∧ SameNode (perform m op).2 (perform n op).2 := by
  cases op with
  | nextOutgoing slave_addr dir msg_len =>
    obtain ⟨hvalue, hsame⟩ := nextOutgoing_same h slave_addr dir msg_len
    exact ⟨congrArg Answer.counter hvalue, hsame⟩
  | validateIncoming slave_addr dir ctr =>
    obtain ⟨hverdict, hsame⟩ := validateIncoming_same h slave_addr dir ctr
    exact ⟨congrArg Answer.accepted hverdict, hsame⟩
  | reset slave_addr dir => exact ⟨rfl, reset_same h slave_addr dir⟩

theorem answers_same (h : SameNode m n) (ops : List CounterOp) : answers n ops = answers m ops := by
  induction ops generalizing m n with
  | nil => rfl
  | cons op ops ih =>
    obtain ⟨hanswer, hsame⟩ := perform_same h op
    rw [answers, answers, hanswer, ih hsame]

end Operations

/-- The process that follows `n` on the same disk, with its keys and its state path and no
counter set. -/
def successor (n : Node) : Node :=
  { startProcess n.disk with keyTable := n.keyTable, statePath := n.statePath }

/-- What is written is read back: the loops end behind each cell, and the process that loads
the file answers every later call as the one that wrote it. -/
theorem counters_reload (n : Node) (hd : n.disk.Reliable) :
    let loaded := ctrStateLoad (successor (ctrStatePersist n).2)
    (∀ fuel, keyStoreMaxAddr < fuel →
      forAddresses (fun c => [c]) fuel 0 = some channels ∧
      forAddresses (persistCell n.ctrTable) fuel 0 = some (persistText n.ctrTable)) ∧
    channels.Nodup ∧ (∀ c, c ∈ channels) ∧
    (ctrStatePersist n).1 = true ∧
    (ctrStatePersist n).2.disk.files n.statePath = some (persistText n.ctrTable) ∧
    loaded.1 = true ∧ (∀ c, SameCounters (n.ctrTable c) (loaded.2.ctrTable c)) ∧
    ∀ ops, answers loaded.2 ops = answers n ops := by
  intro loaded
  have hpersist : ctrStatePersist n = (true, { n with
      disk := ⟨Function.update n.disk.files n.statePath (some (persistText n.ctrTable)), []⟩ }) := by
    rw [ctrStatePersist, Disk.write_reliable hd]
  have hload : loaded = (true, { n with
      ctrTable := loadText (persistText n.ctrTable) emptyCtrTable
      disk := ⟨Function.update n.disk.files n.statePath (some (persistText n.ctrTable)), []⟩ }) := by
    simp only [loaded, hpersist, successor, ctrStateLoad, Disk.read_reliable (d := ⟨_, []⟩) rfl,
      Function.update_self, startProcess]
  rw [hpersist, hload]
  refine ⟨fun fuel hfuel => ⟨?_, ?_⟩, channels_nodup, mem_channels, rfl, Function.update_self .., rfl,
    sameCounters_reload n.ctrTable, answers_same ⟨rfl, sameCounters_reload n.ctrTable⟩⟩
  · rw [forAddresses_eq _ hfuel, List.flatMap_singleton']
  · rw [forAddresses_eq _ hfuel, flatMap_persistCell]

/-- A table with a set, a half set and a reset channel. -/
theorem counters_reload_three_channels :
    let n : Node := { startProcess ⟨fun _ => none, []⟩ with
      ctrTable := Function.update (Function.update (Function.update emptyCtrTable
        (1, 0) ⟨1, 4294967295, 1, 7⟩) (2, 1) ⟨0, 9, 1, 3⟩) (3, 2) ⟨0, 5, 0, 6⟩ }
    ∀ ops, answers (ctrStateLoad (successor (ctrStatePersist n).2)).2 ops = answers n ops := by
  intro n
  exact (counters_reload n rfl).2.2.2.2.2.2.2

end ModbusSecurity.CounterReload
