import ModbusSecurity.SecureFraming
import ModbusSecurity.TransitionRuns

/-! # Counter accounting per channel

An arbitrary interleaving of the counter operations over all channels, seen from one
channel, is a machine with a single counter: the operations of the other channels, the
incoming half of the entry and the counter file do not show. -/
namespace ModbusSecurity.CounterAccounting
open ByteStrings CounterMode LeaOnline KeyStore CounterFile CounterState SecureFraming TransitionRuns

inductive Op where
  | nextOutgoing (slave_addr : Byte) (dir : KeyDirection) (msg_len : ℕ)
  | validateIncoming (slave_addr : Byte) (dir : KeyDirection) (ctr : BitVec 32)
  | reset (slave_addr : Byte) (dir : KeyDirection)
  /-- The file is written and read back by the same process. -/
  | persistLoad
  /-- The file is written and read back by a new process with the same keys. -/
  | persistRestartLoad
  /-- The key table changes in any way. -/
  | rekey (keyTable : KeyTable)

def step (n : Node) : Op → Node
  | .nextOutgoing slave_addr dir msg_len => (ctrStateNextOutgoing n slave_addr dir msg_len).2
  | .validateIncoming slave_addr dir ctr => (ctrStateValidateIncoming n slave_addr dir ctr).2
  | .reset slave_addr dir => ctrStateReset n slave_addr dir
  | .persistLoad => (ctrStateLoad (ctrStatePersist n).2).2
  | .persistRestartLoad =>
    (ctrStateLoad { (ctrStatePersist n).2 with ctrTable := emptyCtrTable }).2
  | .rekey keyTable => { n with keyTable := keyTable }

/-- What `ctr_state_next_outgoing` returns, for calls on the channel `c`. -/
def output (c : Channel) (n : Node) : Op → List (BitVec 32)
  | .nextOutgoing slave_addr dir msg_len =>
    if channelIndex slave_addr dir = some c then
      [(ctrStateNextOutgoing n slave_addr dir msg_len).1]
    else []
  | _ => []

def outputs (c : Channel) : Node → List Op → List (BitVec 32)
  | _, [] => []
  | n, op :: ops => output c n op ++ outputs c (step n op) ops

inductive ChannelOp where
  | nextOutgoing (msg_len : ℕ)
  | reset
  /-- The key store gives the channel another initial counter. -/
  | seed (initial_ctr : BitVec 32)

/-- The next counter if there is one, and the initial counter of the key store. -/
structure ChannelState where
  next : Option (BitVec 32)
  seed : BitVec 32

def channelStep (s : ChannelState) : ChannelOp → List (BitVec 32) × ChannelState
  | .nextOutgoing msg_len =>
    let value := s.next.getD s.seed
    ([value], { s with next := some (value + BitVec.ofNat 32 (max 1 (blockCount 16 msg_len))) })
  | .reset => ([], { s with next := none })
  | .seed initial_ctr => ([], { s with seed := initial_ctr })

def channelOutputs : ChannelState → List ChannelOp → List (BitVec 32)
  | _, [] => []
  | s, op :: ops => (channelStep s op).1 ++ channelOutputs (channelStep s op).2 ops

/-- The operations of a channel among all operations. -/
def project (c : Channel) : Op → Option ChannelOp
  | .nextOutgoing slave_addr dir msg_len =>
    if channelIndex slave_addr dir = some c then some (.nextOutgoing msg_len) else none
  | .reset slave_addr dir => if channelIndex slave_addr dir = some c then some .reset else none
  | .rekey keyTable => some (.seed (seed keyTable c))
  | .validateIncoming _ _ _ | .persistLoad | .persistRestartLoad => none

/-- The state of a channel in a process. -/
def channelState (c : Channel) (n : Node) : ChannelState :=
  ⟨if (n.ctrTable c).validOut = 0 then none else some (n.ctrTable c).nextOut, seed n.keyTable c⟩

section Simulation
variable {n : Node} {c : Channel}

theorem nextValue_channelState (n : Node) (c : Channel) :
    (channelState c n).next.getD (channelState c n).seed = nextValue n c := by
  simp only [channelState, nextValue]
  split <;> rfl

theorem channelState_storeEntry_ne {d : Channel} (h : c ≠ d) (e : CtrEntry) :
    channelState c (storeEntry n d e) = channelState c n := by
  simp only [channelState, storeEntry_ctrTable, storeEntry_keyTable, Function.update_of_ne h]

theorem channelState_incoming (d : Channel) (validIn highIn : BitVec 32) :
    channelState c (storeEntry n d { n.ctrTable d with validIn := validIn, highIn := highIn }) =
      channelState c n := by
  by_cases h : c = d
  · subst h
    simp only [channelState, storeEntry_ctrTable, storeEntry_keyTable, Function.update_self]
  · exact channelState_storeEntry_ne h _

theorem channelState_reserve {msg_len : ℕ} (h : msg_len ≤ 256) :
    channelState c (storeEntry n c (reserve (n.ctrTable c) (nextValue n c) msg_len)) =
      (channelStep (channelState c n) (.nextOutgoing msg_len)).2 := by
  have hset := reserve_validOut_ne_zero (n.ctrTable c) (nextValue n c) msg_len
  have hblocks : numBlocks msg_len = BitVec.ofNat 32 (max 1 (blockCount 16 msg_len)) := by
    rw [← numBlocks_toNat (by omega), BitVec.ofNat_toNat, BitVec.setWidth_eq]
  simp only [channelStep, nextValue_channelState, ← hblocks]
  simp only [channelState, storeEntry_ctrTable, storeEntry_keyTable, Function.update_self, if_neg hset]
  rfl

/-- A table that is written out and read into another one. -/
theorem ctrStateLoad_persisted (hd : n.disk.Reliable) (old : CtrTable) :
    (ctrStateLoad { (ctrStatePersist n).2 with ctrTable := old }).2 = { n with
      ctrTable := loadText (persistText n.ctrTable) old
      disk := ⟨Function.update n.disk.files n.statePath (some (persistText n.ctrTable)), []⟩ } := by
  simp only [ctrStatePersist, Disk.write_reliable hd, ctrStateLoad, Disk.read, Function.update_self,
    List.tail_nil]

/-- Whatever the file is read into, a channel comes back with the counter it was written with. -/
theorem channelState_load_persisted (hd : n.disk.Reliable) (old : CtrTable)
    (hold : ∀ d, (n.ctrTable d).blank = true → (old d).validOut = 0) :
    channelState c (ctrStateLoad { (ctrStatePersist n).2 with ctrTable := old }).2 =
      channelState c n := by
  simp only [ctrStateLoad_persisted hd, channelState, loadText_persistText]
  cases hb : (n.ctrTable c).blank with
  | false => rfl
  | true =>
    have hzero : (n.ctrTable c).validOut = 0 := by
      simp only [CtrEntry.blank, Bool.and_eq_true, beq_iff_eq] at hb
      exact hb.1
    simp only [if_true, hold c hb, hzero]

theorem load_reliable (hd : n.disk.Reliable) (old : CtrTable) :
    (ctrStateLoad { (ctrStatePersist n).2 with ctrTable := old }).2.disk.Reliable := by
  rw [ctrStateLoad_persisted hd]
  rfl

theorem storeEntry_disk_reliable (hd : n.disk.Reliable) (e : CtrEntry) :
    (storeEntry n c e).disk.Reliable := by
  rw [storeEntry_reliable n c e hd]
  rfl

theorem step_reliable (hd : n.disk.Reliable) (op : Op) : (step n op).disk.Reliable := by
  cases op with
  | nextOutgoing slave_addr dir msg_len =>
    cases hc : channelIndex slave_addr dir with
    | none => simpa only [step, ctrStateNextOutgoing, hc] using hd
    | some d =>
      rw [step, ctrStateNextOutgoing_eq hc]
      exact storeEntry_disk_reliable hd _
  | validateIncoming slave_addr dir ctr =>
    cases hc : channelIndex slave_addr dir with
    | none => simpa only [step, ctrStateValidateIncoming, hc] using hd
    | some d =>
      rw [step]
      rcases ctrStateValidateIncoming_cases hc n ctr with h | ⟨_, _, h⟩
      · rw [h]
        exact hd
      · rw [h]
        exact storeEntry_disk_reliable hd _
  | reset slave_addr dir =>
    cases hc : channelIndex slave_addr dir with
    | none => simpa only [step, ctrStateReset, hc] using hd
    | some d =>
      rw [step, ctrStateReset_eq hc]
      exact storeEntry_disk_reliable hd _
  | persistLoad => exact load_reliable hd n.ctrTable
  | persistRestartLoad => exact load_reliable hd emptyCtrTable
  | rekey keyTable => exact hd

/-- One operation is one step of the channel's machine, or none. -/
theorem step_project (hd : n.disk.Reliable) (op : Op)
    (hlen : ∀ a d len, op = .nextOutgoing a d len → len ≤ 256) :
    match project c op with
    | none => output c n op = [] ∧ channelState c (step n op) = channelState c n
    | some cop => output c n op = (channelStep (channelState c n) cop).1 ∧
        channelState c (step n op) = (channelStep (channelState c n) cop).2 := by
  cases op with
  | nextOutgoing slave_addr dir msg_len =>
    have hle := hlen slave_addr dir msg_len rfl
    cases hc : channelIndex slave_addr dir with
    | none => simp [project, output, step, hc, ctrStateNextOutgoing]
    | some d =>
      by_cases hdc : d = c
      · subst hdc
        simp only [project, hc, if_true, output, step, ctrStateNextOutgoing_eq hc]
        refine ⟨?_, channelState_reserve hle⟩
        simp only [channelStep, nextValue_channelState]
      · have hne : some d ≠ some c := fun h => hdc (Option.some.inj h)
        simp only [project, hc, if_neg hne, output, step, ctrStateNextOutgoing_eq hc, true_and]
        exact channelState_storeEntry_ne (Ne.symm hdc) _
  | validateIncoming slave_addr dir ctr =>
    refine ⟨rfl, ?_⟩
    cases hc : channelIndex slave_addr dir with
    | none => simp only [step, ctrStateValidateIncoming, hc]
    | some d =>
      rw [step]
      rcases ctrStateValidateIncoming_cases hc n ctr with h | ⟨validIn, highIn, h⟩
      · rw [h]
      · rw [h, channelState_incoming]
  | reset slave_addr dir =>
    cases hc : channelIndex slave_addr dir with
    | none => simp [project, output, step, hc, ctrStateReset]
    | some d =>
      by_cases hdc : d = c
      · subst hdc
        simp only [project, hc, if_true, output, step, ctrStateReset_eq hc, channelStep, true_and]
        simp only [channelState, storeEntry_ctrTable, storeEntry_keyTable, Function.update_self,
          if_true]
      · have hne : some d ≠ some c := fun h => hdc (Option.some.inj h)
        simp only [project, hc, if_neg hne, output, step, ctrStateReset_eq hc, true_and]
        exact channelState_storeEntry_ne (Ne.symm hdc) _
  | persistLoad =>
    refine ⟨rfl, channelState_load_persisted hd n.ctrTable fun d hb => ?_⟩
    simp only [CtrEntry.blank, Bool.and_eq_true, beq_iff_eq] at hb
    exact hb.1
  | persistRestartLoad => exact ⟨rfl, channelState_load_persisted hd emptyCtrTable fun _ _ => rfl⟩
  | rekey keyTable => exact ⟨rfl, rfl⟩

theorem outputs_eq_channelOutputs (c : Channel) (ops : List Op) (hd : n.disk.Reliable)
    (hlen : ∀ a d len, .nextOutgoing a d len ∈ ops → len ≤ 256) :
    outputs c n ops = channelOutputs (channelState c n) (ops.filterMap (project c)) := by
  induction ops generalizing n with
  | nil => rfl
  | cons op ops ih =>
    have hop := step_project (c := c) hd op fun a d len h => hlen a d len (by simp [h])
    have hrest := ih (step_reliable hd op) fun a d len h => hlen a d len (by simp [h])
    rw [outputs, hrest, List.filterMap_cons]
    cases hp : project c op with
    | none =>
      rw [hp] at hop
      rw [hop.1, hop.2, List.nil_append]
    | some cop =>
      rw [hp] at hop
      rw [hop.1, hop.2]
      rfl

end Simulation

/-- The values handed out on a channel are those of its own machine over its own
operations; no call on a provisioned channel takes the out-of-range exit, and no message
takes more blocks than were reserved for it. -/
theorem counter_accounting (n : Node) (hd : n.disk.Reliable) (ops : List Op)
    (hlen : ∀ a d len, .nextOutgoing a d len ∈ ops → len ≤ 256) :
    (∀ c, outputs c n ops = channelOutputs (channelState c n) (ops.filterMap (project c))) ∧
    (∀ keyTable slave_addr dir, keyStoreLookup keyTable slave_addr dir ≠ none →
      channelIndex slave_addr dir ≠ none) ∧
    ∀ (P : Primitives) (keys : DirectionalKeys) (ctr : BitVec 32) (is_encrypt : Bool) (msg : Bytes),
      msg.length ≤ 256 →
        (leaCtrCrypt (fun b => P.leaEncrypt keys.encKey b) ctrHigh ctr is_encrypt msg).used.length ≤
          (numBlocks msg.length).toNat := by
  refine ⟨fun c => outputs_eq_channelOutputs c ops hd hlen, ?_, ?_⟩
  · intro keyTable slave_addr dir hlook
    obtain ⟨keys, hkeys⟩ := Option.ne_none_iff_exists'.mp hlook
    obtain ⟨c, hc, -⟩ := keyStoreLookup_eq_some hkeys
    rw [hc]
    exact Option.some_ne_none c
  · intro P keys ctr is_encrypt msg hmsg
    rw [leaCtrCrypt_frame P keys ctr msg is_encrypt (by omega), numBlocks_toNat (by omega)]
    simp [blocksUsed, counterBlocks]

/-- Two messages, a restart between them, and a reset on one channel of a new process. -/
theorem counter_accounting_new_process :
    let ops := [Op.nextOutgoing 1 .masterToSlave 17, .persistRestartLoad,
      .nextOutgoing 1 .masterToSlave 8, .reset 1 .masterToSlave, .nextOutgoing 1 .masterToSlave 8]
    outputs (1, 0) (startProcess ⟨fun _ => none, []⟩) ops = [0, 2, 0] := by
  intro ops
  have hlen : ∀ a d len, Op.nextOutgoing a d len ∈ ops → len ≤ 256 := by
    intro a d len h
    simp only [ops, List.mem_cons, Op.nextOutgoing.injEq, reduceCtorEq, List.not_mem_nil, false_or,
      or_false] at h
    rcases h with ⟨-, -, rfl⟩ | ⟨-, -, rfl⟩ | ⟨-, -, rfl⟩ <;> omega
  have h := counter_accounting (startProcess ⟨fun _ => none, []⟩) rfl ops hlen
  exact (h.1 (1, 0)).trans (by decide)

end ModbusSecurity.CounterAccounting
