import ModbusSecurity.CounterRecords
import ModbusSecurity.JournaledCounter
import ModbusSecurity.TransitionRuns

/-! # Ranges are written down before they are sent

Encryptions and decryptions of one process after another, on a disk where any access may
fail. Every range that `ctr_state_next_outgoing` hands out is noted. -/
namespace ModbusSecurity.CounterDurability
open ByteStrings CounterMode LeaOnline KeyStore CounterFile CounterState SecureFraming FrameRejection
open CounterRecords JournaledCounter TransitionRuns

inductive Action where
  | encrypt (slave_addr : Byte) (pdu : Bytes) (dir : KeyDirection)
  | decrypt (wire : Bytes) (expected_addr : Byte) (dir : KeyDirection)
  | load
  /-- A new process with the same keys and the same state path. -/
  | restart

structure System where
  node : Node
  ranges : List (Channel × Range 32)

/-- The range that `ctr_state_next_outgoing` hands out. -/
def rangeOf (n : Node) (slave_addr : Byte) (dir : KeyDirection) (msg_len : ℕ) :
    List (Channel × Range 32) :=
  (channelIndex slave_addr dir).toList.map fun c =>
    (c, ((ctrStateNextOutgoing n slave_addr dir msg_len).1, (numBlocks msg_len).toNat))

/-- The range an action takes: a successful encryption, or a frame decrypted as far as its CRC. -/
def handedOut (P : Primitives) (n : Node) : Action → List (Channel × Range 32)
  | .encrypt slave_addr pdu dir =>
    if (secureFrameEncryptAndBuild P n slave_addr pdu dir).1.isSome then
      rangeOf n slave_addr dir (plaintextAdu slave_addr pdu).length
    else []
  | .decrypt wire expected_addr dir =>
    let r := (secureFrameVerifyAndDecrypt P n wire expected_addr dir).1
    if r.status = .ok ∨ r.status = .crc then
      (secureFrameParse wire).toList.flatMap fun frame =>
        rangeOf n frame.addr dir frame.ciphertext.length
    else []
  | .load | .restart => []

def act (P : Primitives) (n : Node) : Action → Node
  | .encrypt slave_addr pdu dir => (secureFrameEncryptAndBuild P n slave_addr pdu dir).2
  | .decrypt wire expected_addr dir => (secureFrameVerifyAndDecrypt P n wire expected_addr dir).2
  | .load => (ctrStateLoad n).2
  | .restart => { n with ctrTable := emptyCtrTable }

def step (P : Primitives) (s : System) (a : Action) : System :=
  ⟨act P s.node a, s.ranges ++ handedOut P s.node a⟩

/-- The ranges of a channel, in the order they were handed out. -/
def taken (c : Channel) (ranges : List (Channel × Range 32)) : List (Range 32) :=
  ranges.filterMap fun r => if r.1 = c then some r.2 else none

/-- When a frame leaves the encoder, the file records the end of the blocks it used. -/
def RecordsEncrypted (P : Primitives) (s : System) : Action → Prop
  | .encrypt slave_addr pdu dir => ∀ r c,
    (secureFrameEncryptAndBuild P s.node slave_addr pdu dir).1 = some r →
    channelIndex slave_addr dir = some c → ∃ range,
      handedOut P s.node (.encrypt slave_addr pdu dir) = [(c, range)] ∧
      r.used = counterBlocks range.1.toNat range.2 ∧
      recorded (act P s.node (.encrypt slave_addr pdu dir)).disk s.node.statePath c =
        some range.stop
  | _ => True

/-- The action gets past the checks in front of the counter. -/
def Reserves (P : Primitives) (n : Node) : Action → Prop
  | .encrypt slave_addr pdu dir =>
    pdu.length ≤ maxPdu ∧ (keyStoreLookup n.keyTable slave_addr dir).isSome
  | .decrypt wire expected_addr dir =>
    ∃ f, authenticate P n.keyTable wire expected_addr dir = .ok f
  | .load | .restart => False

/-- A reservation finds in memory what the file lists, and its write does not fail. -/
def Safe (P : Primitives) (s : System) (a : Action) : Prop :=
  Reserves P s.node a → Covers s.node ∧ WritesThrough s.node.disk

/-- Every run records its ranges in time and never hands one out again. -/
def DurableRanges (P : Primitives) : Prop :=
  ∀ (n : Node) (as : List Action),
    (∀ c, total (taken c (run (step P) ⟨n, []⟩ as).ranges) < 2 ^ 32) →
    Always (step P) (RecordsEncrypted P) ⟨n, []⟩ as ∧
      ∀ c, (taken c (run (step P) ⟨n, []⟩ as).ranges).Pairwise Apart

section Steps
variable {P : Primitives}

/-- Every action but a load or a restart keeps the process or reserves on one channel. -/
theorem act_cases (n : Node) (a : Action) : (handedOut P n a = [] ∧
      (act P n a = n ∨ a = .load ∨ a = .restart)) ∨
    ∃ c len, Reserves P n a ∧ handedOut P n a = [(c, (nextValue n c, (numBlocks len).toNat))] ∧
      act P n a = storeEntry n c (reserve (n.ctrTable c) (nextValue n c) len) := by
  cases a with
  | encrypt slave_addr pdu dir =>
    rcases secureFrameEncryptAndBuild_cases P n slave_addr pdu dir with h | ⟨hlen, c, hc, hkey⟩
    · left
      simp [handedOut, act, h]
    · have hbuild := secureFrameEncryptAndBuild_eq (P := P) hlen hc hkey
      refine .inr ⟨c, pdu.length + 3, ⟨hlen, ?_⟩, ?_, ?_⟩
      · rw [keyStoreLookup_of_channel hc, if_pos hkey]
        rfl
      · simp [handedOut, hbuild, rangeOf, hc, ctrStateNextOutgoing_eq hc]
      · rw [act, hbuild]
  | decrypt wire expected_addr dir =>
    rcases verify_cases P n wire expected_addr dir with
      ⟨hok, hcrc, hn⟩ | ⟨frame, c, hp, hc, hkey, hs, -, hn⟩
    · exact .inl ⟨by simp [handedOut, hok, hcrc], .inl hn⟩
    · refine .inr ⟨c, frame.ciphertext.length, ?_, ?_, hn⟩
      · cases ha : authenticate P n.keyTable wire expected_addr dir with
        | ok f => exact ⟨f, ha⟩
        | error e =>
          obtain ⟨hok, hcrc, hstatus, -⟩ := verify_of_error ha
          rw [hstatus] at hs
          exact absurd hs (not_or.mpr ⟨hok, hcrc⟩)
      · simp [handedOut, hs, hp, rangeOf, hc, ctrStateNextOutgoing_eq hc]
  | load => exact .inl ⟨rfl, .inr (.inl rfl)⟩
  | restart => exact .inl ⟨rfl, .inr (.inr rfl)⟩

/-- One channel in memory, in the state file and in the notes. -/
def ledger (c : Channel) (s : System) : Ledger 32 :=
  ⟨entryValue (s.node.ctrTable c), recorded s.node.disk s.node.statePath c, taken c s.ranges⟩

theorem taken_snoc (c d : Channel) (ranges : List (Channel × Range 32)) (r : Range 32) :
    taken c (ranges ++ [(d, r)]) = if d = c then taken c ranges ++ [r] else taken c ranges := by
  by_cases h : d = c <;> simp [taken, h]

theorem sound_reserve {s : System} (h : ∀ c, (ledger c s).Sound) (hcov : Covers s.node)
    (hw : WritesThrough s.node.disk) (c : Channel) (len : ℕ) (d : Channel) :
    (ledger d ⟨storeEntry s.node c (reserve (s.node.ctrTable c) (nextValue s.node c) len),
      s.ranges ++ [(c, (nextValue s.node c, (numBlocks len).toNat))]⟩).Sound := by
  have hjournal := recorded_storeEntry s.node d hw c
    (reserve (s.node.ctrTable c) (nextValue s.node c) len)
  rw [ledger, taken_snoc]
  simp only [storeEntry_statePath, storeEntry_ctrTable, hjournal]
  by_cases hdc : c = d
  · subst hdc
    have htake := (h c).take (hcov c) (fun u hu => nextValue_of_entryValue s.node c hu)
      (numBlocks len).toNat
    rw [BitVec.ofNat_toNat, BitVec.setWidth_eq] at htake
    rw [if_pos rfl, Function.update_self, entryValue_reserve]
    exact htake
  · rw [if_neg hdc, Function.update_of_ne (Ne.symm hdc)]
    exact (h d).rewrite (hcov d)

theorem sound_load {s : System} (h : ∀ c, (ledger c s).Sound) (c : Channel) :
    (ledger c ⟨(ctrStateLoad s.node).2, s.ranges⟩).Sound := by
  obtain ⟨-, hpath, hfiles⟩ := ctrStateLoad_frame s.node
  have hjournal : recorded (ctrStateLoad s.node).2.disk (ctrStateLoad s.node).2.statePath c =
      recorded s.node.disk s.node.statePath c := by
    rw [recorded, recorded, hfiles, hpath]
  rw [ledger, hjournal]
  rcases ctrStateLoad_cases s.node with htable | ⟨text, htext, htable⟩
  · rw [htable]
    exact h c
  · rw [htable]
    exact (h c).load fun v hv => entryValue_loadText s.node htext hv s.node.ctrTable

theorem sound_step {s : System} (h : ∀ c, (ledger c s).Sound) {a : Action} (hsafe : Safe P s a)
    (c : Channel) : (ledger c (step P s a)).Sound := by
  rcases act_cases (P := P) s.node a with ⟨hout, hnode | rfl | rfl⟩ | ⟨d, len, hres, hout, hnode⟩
  · rw [step, hout, hnode, List.append_nil]
    exact h c
  · rw [step, hout, List.append_nil]
    exact sound_load h c
  · rw [step, hout, List.append_nil]
    exact (h c).forget
  · obtain ⟨hcov, hw⟩ := hsafe hres
    rw [step, hout, hnode]
    exact sound_reserve h hcov hw d len c

theorem recordsEncrypted_of_safe {s : System} {a : Action} (hsafe : Safe P s a) :
    RecordsEncrypted P s a := by
  cases a with
  | encrypt slave_addr pdu dir =>
    intro r c hr hc
    rcases secureFrameEncryptAndBuild_cases P s.node slave_addr pdu dir with h | ⟨hlen, d, hd, hkey⟩
    · rw [h] at hr
      cases hr
    · obtain rfl : c = d := Option.some.inj (hc.symm.trans hd)
      have hbuild := secureFrameEncryptAndBuild_eq (P := P) hlen hc hkey
      obtain ⟨-, hw⟩ := hsafe ⟨hlen, by rw [keyStoreLookup_of_channel hc, if_pos hkey]; rfl⟩
      have hblocks : (numBlocks (pdu.length + 3)).toNat = blockCount 16 (pdu.length + 3) := by
        have hpos := aduBlocks_pos pdu
        simp only [maxPdu] at hlen
        rw [numBlocks_toNat (by omega)]
        simp only [aduBlocks] at hpos
        omega
      rw [hbuild] at hr
      obtain rfl := Option.some.inj hr
      refine ⟨(nextValue s.node c, (numBlocks (pdu.length + 3)).toNat), ?_, ?_, ?_⟩
      · simp [handedOut, hbuild, rangeOf, hc, ctrStateNextOutgoing_eq hc]
      · simp only [blocksUsed, hblocks]
      · rw [act, hbuild, recorded_storeEntry s.node c hw, Function.update_self, entryValue_reserve]
        simp [Range.stop]
  | decrypt | load | restart => trivial

end Steps

/-- If every reservation finds in memory what the file lists and its write succeeds, every
range is recorded when its frame leaves, and no range of a channel meets another one. -/
theorem ranges_durable (P : Primitives) (n : Node) (as : List Action)
    (hsafe : Always (step P) (Safe P) ⟨n, []⟩ as)
    (htotal : ∀ c, total (taken c (run (step P) ⟨n, []⟩ as).ranges) ≤ 2 ^ 32) :
    Always (step P) (RecordsEncrypted P) ⟨n, []⟩ as ∧
      ∀ c, (taken c (run (step P) ⟨n, []⟩ as).ranges).Pairwise Apart := by
  have hsound : ∀ c, (ledger c ⟨n, []⟩).Sound := fun c => sound_nil _ _
  have hstep : ∀ s a, (∀ c, (ledger c s).Sound) → Safe P s a → ∀ c, (ledger c (step P s a)).Sound :=
    fun s a h ha c => sound_step h ha c
  constructor
  · exact always_of_invariant hstep (fun s a _ ha => recordsEncrypted_of_safe ha) hsound hsafe
  · intro c
    have hend := invariant_run hstep hsound hsafe c
    exact apart_of_consecutive hend.consecutive (htotal c)

/-- A process with a key on every channel. -/
def keyedProcess (table : CtrTable) (disk : Disk) : Node :=
  ⟨fun _ => ⟨true, ⟨zeroKey, zeroKey⟩, 0⟩, table, ctrStateDefaultPath, disk⟩

/-- A new process without a counter file, on a disk whose fourth access fails. -/
def failingProcess : Node :=
  keyedProcess emptyCtrTable
    ⟨fun _ => none, [.succeeds, .succeeds, .succeeds, .openFails, .succeeds, .succeeds]⟩

/-- Three empty PDUs, each behind a load. -/
def threeExchanges : List Action :=
  [.load, .encrypt 1 [] .masterToSlave, .load, .encrypt 1 [] .masterToSlave, .load,
    .encrypt 1 [] .masterToSlave]

section FailingRun
variable {P : Primitives} {table : CtrTable} {ranges : List (Channel × Range 32)}

private theorem step_load {disk disk' : Disk} {text : Bytes}
    (hread : disk.read ctrStateDefaultPath = (some text, disk')) :
    step P ⟨keyedProcess table disk, ranges⟩ .load =
      ⟨keyedProcess (loadText text table) disk', ranges⟩ := by
  simp only [step, act, handedOut, List.append_nil, ctrStateLoad, keyedProcess, hread]

private theorem step_encrypt {disk : Disk} {v : BitVec 32}
    (hv : nextValue (keyedProcess table disk) (1, 0) = v) :
    step P ⟨keyedProcess table disk, ranges⟩ (.encrypt 1 [] .masterToSlave) =
      ⟨storeEntry (keyedProcess table disk) (1, 0) (reserve (table (1, 0)) v 3),
        ranges ++ [((1, 0), (v, 1))]⟩ := by
  have hc : channelIndex 1 .masterToSlave = some (1, 0) := rfl
  have hbuild := secureFrameEncryptAndBuild_eq (P := P) (n := keyedProcess table disk)
    (show ([] : Bytes).length ≤ maxPdu by decide) hc rfl
  have hrange : rangeOf (keyedProcess table disk) 1 .masterToSlave 3 = [((1, 0), (v, 1))] := by
    rw [rangeOf, hc, ctrStateNextOutgoing_eq hc, hv]
    rfl
  rw [hv] at hbuild
  simp only [step, act, handedOut, hbuild, Option.isSome_some, if_true, length_plaintextAdu]
  rw [show List.length ([] : Bytes) + 3 = 3 from rfl, hrange]
  rfl

private theorem ranges_threeExchanges :
    (run (step P) ⟨failingProcess, []⟩ threeExchanges).ranges =
      [((1, 0), (0, 1)), ((1, 0), (1, 1)), ((1, 0), (1, 1))] := by
  let T : CtrTable := Function.update emptyCtrTable (1, 0) ⟨1, 1, 0, 0⟩
  let U : CtrTable := Function.update T (1, 0) ⟨1, 2, 0, 0⟩
  let files := Function.update (fun _ => none) ctrStateDefaultPath (some (persistText T))
  have hfile : files ctrStateDefaultPath = some (persistText T) := Function.update_self ..
  have hread : ∀ rest, Disk.read ⟨files, .succeeds :: rest⟩ ctrStateDefaultPath =
      (some (persistText T), ⟨files, rest⟩) := fun _ => Prod.ext hfile rfl
  have hT : loadText (persistText T) T = T := by
    funext c
    rw [loadText_persistText, ite_self]
  have hU : loadText (persistText T) U (1, 0) = ⟨1, 1, 0, 0⟩ := by
    rw [loadText_persistText]
    rfl
  simp only [threeExchanges, run_cons, run_nil]
  change (step P (step P (step P (step P (step P ⟨keyedProcess emptyCtrTable ⟨fun _ => none,
    [.succeeds, .succeeds, .openFails, .succeeds, .succeeds]⟩, []⟩ _) .load) _) .load) _).ranges = _
  rw [step_encrypt rfl]
  change (step P (step P (step P (step P ⟨keyedProcess T ⟨files, [.succeeds, .openFails, .succeeds,
    .succeeds]⟩, [((1, 0), (0, 1))]⟩ .load) _) .load) _).ranges = _
  rw [step_load (hread _), hT, step_encrypt rfl]
  change (step P (step P ⟨keyedProcess U ⟨files, [.succeeds, .succeeds]⟩,
    [((1, 0), (0, 1)), ((1, 0), (1, 1))]⟩ .load) _).ranges = _
  rw [step_load (hread _),
    step_encrypt (v := 1) (by rw [nextValue]; simp only [keyedProcess, hU]; rfl)]
  rfl

end FailingRun

/-- With LEA and any MAC: the third frame takes the range of the second, whose write failed. -/
theorem failed_write_reuses_range : ¬ ∃ mac, DurableRanges (leaPrimitives mac) := by
  rintro ⟨mac, h⟩
  have htaken : ∀ c, taken c (run (step (leaPrimitives mac)) ⟨failingProcess, []⟩
      threeExchanges).ranges = if c = (1, 0) then [(0, 1), (1, 1), (1, 1)] else [] := by
    intro c
    rw [ranges_threeExchanges]
    by_cases hc : c = (1, 0)
    · subst hc
      rfl
    · simp [taken, Ne.symm hc, hc]
  obtain ⟨-, hapart⟩ := h failingProcess threeExchanges fun c => by
    rw [htaken]
    split <;> decide
  have hone := hapart (1, 0)
  rw [htaken, if_pos rfl] at hone
  obtain ⟨-, hrest⟩ := List.pairwise_cons.mp hone
  have hwithin : Within ((1, 1) : Range 32) 1 := by
    unfold Within
    decide
  exact List.rel_of_pairwise_cons hrest List.mem_cons_self 1 hwithin hwithin

/-- A process that writes one frame's range down, and the next process, which loads it. -/
def twoProcesses : List Action :=
  [.load, .encrypt 1 [] .masterToSlave, .restart, .load, .encrypt 1 [] .masterToSlave]

/-- The second process takes the range behind the first one's. -/
theorem ranges_durable_two_processes :
    let P := leaPrimitives fun _ _ => ⟨List.replicate 32 0, rfl⟩
    let s : System := ⟨keyedProcess emptyCtrTable ⟨fun _ => none, []⟩, []⟩
    taken (1, 0) (run (step P) s twoProcesses).ranges = [(0, 1), (1, 1)] ∧
    Always (step P) (RecordsEncrypted P) s twoProcesses ∧
    ∀ c, (taken c (run (step P) s twoProcesses).ranges).Pairwise Apart := by
  intro P s
  let T : CtrTable := Function.update emptyCtrTable (1, 0) ⟨1, 1, 0, 0⟩
  let files := Function.update (fun _ => none) ctrStateDefaultPath (some (persistText T))
  let disk : Disk := ⟨files, []⟩
  let n : Node := keyedProcess (loadText (persistText T) emptyCtrTable) disk
  have hfile : files ctrStateDefaultPath = some (persistText T) := Function.update_self ..
  have hread : disk.read ctrStateDefaultPath = (some (persistText T), disk) := Prod.ext hfile rfl
  have hfirst : step P (step P s .load) (.encrypt 1 [] .masterToSlave) =
      ⟨keyedProcess T disk, [((1, 0), (0, 1))]⟩ := step_encrypt rfl
  have hloaded : step P (step P ⟨keyedProcess T disk, [((1, 0), (0, 1))]⟩ .restart) .load =
      ⟨n, [((1, 0), (0, 1))]⟩ := step_load hread
  have hnext : nextValue n (1, 0) = 1 := by
    rw [nextValue]
    simp only [n, keyedProcess, loadText_persistText]
    rfl
  have hranges : (run (step P) s twoProcesses).ranges = [((1, 0), (0, 1)), ((1, 0), (1, 1))] := by
    simp only [twoProcesses, run_cons, run_nil]
    rw [hfirst, hloaded, step_encrypt hnext]
    rfl
  have hstart : Covers s.node := fun c h => by cases h
  have hcovers : Covers n := by
    intro c hrecorded
    obtain ⟨v, hv⟩ := Option.isSome_iff_exists.mp hrecorded
    rw [show n.ctrTable = loadText (persistText T) emptyCtrTable from rfl,
      entryValue_loadText n hfile hv]
    rfl
  have hsafe : Always (step P) (Safe P) s twoProcesses := by
    refine ⟨False.elim, fun _ => ⟨hstart, writesThrough_of_reliable rfl⟩, False.elim, False.elim,
      fun _ => ?_, trivial⟩
    rw [hfirst, hloaded]
    exact ⟨hcovers, writesThrough_of_reliable rfl⟩
  refine ⟨by rw [hranges]; rfl, ranges_durable P s.node twoProcesses hsafe fun c => ?_⟩
  rw [hranges]
  by_cases hc : c = (1, 0)
  · subst hc
    decide
  · simp [taken, Ne.symm hc, total]

end ModbusSecurity.CounterDurability
