import ModbusSecurity.JournaledCounter
import ModbusSecurity.KeystreamFreshness
import ModbusSecurity.SelfTestEffects
import ModbusSecurity.TransitionRuns

/-! # Processes one after another in one directory

Each process runs any menu options and exits; the files stay. A frame is sent in master
mode on an m2s channel and in slave mode on an s2m channel, so every channel has one file
that must not fall behind the frames sent. -/
namespace ModbusSecurity.RestartHistory
open ByteStrings TextStreams LeaOnline KeyStore CounterFile CounterState SecureFraming ModbusPdu
open SecureDemo CounterRecords ExchangeEffects SelfTestEffects TransitionRuns JournaledCounter
open KeystreamFreshness (mem_counterBlocks)

structure History where
  process : Process
  sent : List SentFrame

inductive Event where
  | choose (o : MenuOption)
  | restart (argv0 : Option Bytes)

def step (P : Primitives) (h : History) : Event → History
  | .choose o => ⟨(choose P h.process o).2, h.sent ++ (choose P h.process o).1.toList⟩
  | .restart argv0 => ⟨newProcess argv0 h.process.node.disk, h.sent⟩

/-- The frames encrypted on a channel, in their order. -/
def framesOn (c : Channel) (frames : List SentFrame) : List SentFrame :=
  frames.filter fun f => decide (channelIndex f.addr f.dir = some c)

/-- The first counter of a frame's blocks, and how many there are. -/
def usedRange (f : SentFrame) : Range 32 :=
  (BitVec.ofNat 32 (beValue (f.result.used.headD [])), f.result.used.length)

/-- The state file of the mode that sends in a direction; no mode sends broadcasts. -/
def ownPath (di : Fin 3) : Bytes :=
  if di = 0 then statePathOf true else if di = 1 then statePathOf false else []

/-- No counter block is used for two frames of the channel. -/
def FreshFrames (c : Channel) (h : History) : Prop :=
  (framesOn c h.sent).Pairwise fun f g => f.result.used.Disjoint g.result.used

/-- The file of the channel lists the end of the last frame. -/
def FileUpToDate (c : Channel) (h : History) : Prop :=
  ∀ f, (framesOn c h.sent).getLast? = some f →
    recorded h.process.node.disk (ownPath c.2) c = some (usedRange f).stop

/-- The counter blocks used on a channel. -/
def blocksOn (c : Channel) (h : History) : ℕ := total ((framesOn c h.sent).map usedRange)

/-- In every history that does not exhaust a channel its blocks are fresh and its file is up
to date, the self-test's own address apart. -/
def KeystreamFresh (P : Primitives) : Prop :=
  ∀ (argv0 : Option Bytes) (files : Bytes → Option Bytes) (es : List Event) (c : Channel),
    channelAddr c ≠ selfTestAddr →
    blocksOn c (run (step P) ⟨newProcess argv0 ⟨files, []⟩, []⟩ es) < 2 ^ 32 →
      FreshFrames c (run (step P) ⟨newProcess argv0 ⟨files, []⟩, []⟩ es) ∧
      FileUpToDate c (run (step P) ⟨newProcess argv0 ⟨files, []⟩, []⟩ es)

/-- A self-test finds in memory what the state file lists for other addresses. -/
def SelfTestCovered (h : History) : Event → Prop
  | .choose .selfTest => ∀ c, channelAddr c ≠ selfTestAddr →
    (recorded h.process.node.disk h.process.node.statePath c).isSome →
      (entryValue (h.process.node.ctrTable c)).isSome
  | _ => True

/-! ### One channel of a history -/

/-- A channel in the memory of a process that is on its file, in the file, and in the frames. -/
def ledger (c : Channel) (n : Node) (frames : List SentFrame) : Ledger 32 where
  memory := if n.statePath = ownPath c.2 then entryValue (n.ctrTable c) else none
  journal := recorded n.disk (ownPath c.2) c
  taken := (framesOn c frames).map usedRange

/-- The blocks of a frame are exactly the numbers of its range. -/
def Exact (f : SentFrame) : Prop :=
  f.result.used = counterBlocks (usedRange f).1.toNat (usedRange f).2 ∧ (usedRange f).2 ≤ 16

section Frames
variable {c : Channel} {f : SentFrame} {frames : List SentFrame}

theorem framesOn_append (frames frames' : List SentFrame) :
    framesOn c (frames ++ frames') = framesOn c frames ++ framesOn c frames' :=
  List.filter_append _ _

theorem framesOn_cons_self (h : channelIndex f.addr f.dir = some c) :
    framesOn c (f :: frames) = f :: framesOn c frames := by
  simp [framesOn, h]

theorem framesOn_cons_ne {d : Channel} (h : channelIndex f.addr f.dir = some d) (hne : d ≠ c) :
    framesOn c (f :: frames) = framesOn c frames := by
  simp [framesOn, h, hne]

theorem usedRange_sealed (addr : Byte) (dir : KeyDirection) (wire : Bytes) (v : BitVec 32)
    (pdu : Bytes) :
    usedRange ⟨addr, dir, ⟨wire, blocksUsed v (pdu.length + 3)⟩⟩ = (v, aduBlocks pdu) := by
  obtain ⟨k, hk⟩ : ∃ k, aduBlocks pdu = k + 1 :=
    Nat.exists_eq_succ_of_ne_zero (aduBlocks_pos pdu).ne'
  have hblocks : blocksUsed v (pdu.length + 3) = counterBlocks v.toNat (aduBlocks pdu) := rfl
  have hsmall := v.isLt
  have hfirst : beValue (counterBlock v.toNat) = v.toNat := by
    rw [counterBlock, beValue_beBytes, Nat.mod_eq_of_lt (by omega)]
  rw [hblocks, hk, usedRange]
  simp [counterBlocks, List.range'_succ, hfirst]

theorem exact_sealed (addr : Byte) (dir : KeyDirection) (wire : Bytes) (v : BitVec 32) {pdu : Bytes}
    (hlen : pdu.length ≤ maxPdu) : Exact ⟨addr, dir, ⟨wire, blocksUsed v (pdu.length + 3)⟩⟩ := by
  rw [Exact, usedRange_sealed]
  exact ⟨rfl, aduBlocks_le hlen⟩

/-- Frames whose ranges are apart have no counter block in common. -/
theorem disjoint_of_apart {f g : SentFrame} (hf : Exact f) (hg : Exact g)
    (h : Apart (usedRange f) (usedRange g)) : f.result.used.Disjoint g.result.used := by
  rw [hf.1, hg.1]
  intro b hb hb'
  obtain ⟨x, hx, hx', rfl⟩ := mem_counterBlocks.mp hb
  obtain ⟨y, hy, hy', hxy⟩ := mem_counterBlocks.mp hb'
  have hfsmall := (usedRange f).1.isLt
  have hgsmall := (usedRange g).1.isLt
  have hfle := hf.2
  have hgle := hg.2
  obtain rfl := counterBlock_injective (by omega) (by omega) hxy
  exact h (BitVec.ofNat 32 y) (within_ofNat hx hx' (by omega)) (within_ofNat hy hy' (by omega))

theorem framesOn_append_of_addr {frames' : List SentFrame} (h : ∀ f ∈ frames', f.addr ≠ channelAddr c) :
    framesOn c (frames ++ frames') = framesOn c frames := by
  have hnone : framesOn c frames' = [] := by
    refine List.filter_eq_nil_iff.mpr fun f hf hon => h f hf ?_
    exact (channelAddr_of_channelIndex (of_decide_eq_true hon)).symm
  rw [framesOn_append, hnone, List.append_nil]

end Frames

/-! ### An exchange -/

section Paths

theorem ownPath_of_mode (isMaster : Bool) :
    ownPath (if isMaster then 0 else 1) = statePathOf isMaster := by
  cases isMaster <;> rfl

theorem ownPath_ne_sent : ∀ di, ownPath di ≠ sentFramePath := by decide

/-- The file of a mode belongs to no other direction. -/
theorem ownPath_ne : ∀ (di : Fin 3) (isMaster : Bool), (di ≠ if isMaster then 0 else 1) →
    statePathOf isMaster ≠ ownPath di := by decide

end Paths

section Ledgers
variable {c : Channel} {n n' : Node} {sent frames : List SentFrame}

theorem ledger_own (hpath : n.statePath = ownPath c.2) : ledger c n frames =
    ⟨entryValue (n.ctrTable c), recorded n.disk n.statePath c, (framesOn c frames).map usedRange⟩ := by
  rw [ledger, if_pos hpath, hpath]

theorem ledger_other (hpath : n.statePath ≠ ownPath c.2) : ledger c n frames =
    ⟨none, recorded n.disk (ownPath c.2) c, (framesOn c frames).map usedRange⟩ := by
  rw [ledger, if_neg hpath]

/-- A new process has nothing in memory. -/
theorem ledger_newProcess (argv0 : Option Bytes) (disk : Disk) :
    ledger c (newProcess argv0 disk).node frames =
      ⟨none, recorded disk (ownPath c.2) c, (framesOn c frames).map usedRange⟩ :=
  congrArg (fun memory => Ledger.mk memory _ _) (ite_self none)

theorem ledger_append_ne {f : SentFrame} {d : Channel} (h : channelIndex f.addr f.dir = some d)
    (hdc : d ≠ c) : ledger c n (sent ++ [f]) = ledger c n sent := by
  have hframes : framesOn c (sent ++ [f]) = framesOn c sent := by
    rw [framesOn_append, framesOn_cons_ne h hdc]
    exact List.append_nil _
  rw [ledger, ledger, hframes]

/-- A reservation on the file of the channel writes the memory down. -/
theorem ledger_storeEntry (hd : n.disk.Reliable) (hpath : n.statePath = ownPath c.2) (d : Channel)
    (e : CtrEntry) : ledger c (storeEntry n d e) frames =
      ⟨entryValue (Function.update n.ctrTable d e c), entryValue (Function.update n.ctrTable d e c),
        (framesOn c frames).map usedRange⟩ := by
  rw [ledger_own (n := storeEntry n d e) hpath, storeEntry_ctrTable, storeEntry_statePath,
    recorded_storeEntry n c (writesThrough_of_reliable hd)]

theorem sound_storeEntry_ne (hd : n.disk.Reliable) (hpath : n.statePath = ownPath c.2)
    (h : (ledger c n sent).Sound) (hcov : (ledger c n sent).Covered) {d : Channel} (hdc : d ≠ c)
    (e : CtrEntry) : (ledger c (storeEntry n d e) sent).Sound ∧
      (ledger c (storeEntry n d e) sent).Covered := by
  have hrewrite := h.rewrite hcov
  rw [ledger_own hpath] at hrewrite
  rw [ledger_storeEntry hd hpath, Function.update_of_ne hdc.symm]
  exact ⟨hrewrite, id⟩

theorem sound_storeEntry_self (hd : n.disk.Reliable) (hpath : n.statePath = ownPath c.2)
    (h : (ledger c n sent).Sound) (hcov : (ledger c n sent).Covered) {addr : Byte} {dir : KeyDirection}
    (hc : channelIndex addr dir = some c) {pdu : Bytes} (hlen : pdu.length ≤ maxPdu) (wire : Bytes) :
    let n' := storeEntry n c (reserve (n.ctrTable c) (nextValue n c) (pdu.length + 3))
    let sent' := sent ++ [⟨addr, dir, ⟨wire, blocksUsed (nextValue n c) (pdu.length + 3)⟩⟩]
    (ledger c n' sent').Sound ∧ (ledger c n' sent').Covered := by
  intro n' sent'
  have hvalue : ∀ u, (ledger c n sent).memory = some u → nextValue n c = u := by
    intro u hu
    rw [ledger_own hpath] at hu
    exact nextValue_of_entryValue n c hu
  have htake := h.take hcov hvalue (aduBlocks pdu)
  have hframes : (framesOn c sent').map usedRange =
      (framesOn c sent).map usedRange ++ [(nextValue n c, aduBlocks pdu)] := by
    rw [framesOn_append, framesOn_cons_self hc, List.map_append, List.map_cons, usedRange_sealed]
    rfl
  rw [ledger_storeEntry hd hpath, Function.update_self, entryValue_reserve, numBlocks_adu hlen, hframes]
  exact ⟨htake, id⟩

theorem ledger_stored (hd : n.disk.Reliable) (wire : Bytes) :
    ledger c { n with disk := (n.disk.write sentFramePath wire).2 } sent = ledger c n sent := by
  have hfile : recorded (n.disk.write sentFramePath wire).2 (ownPath c.2) c =
      recorded n.disk (ownPath c.2) c := by
    rw [recorded, files_write (writesThrough_of_reliable hd), Function.update_of_ne (ownPath_ne_sent _),
      recorded]
  rw [ledger, ledger, hfile]

/-- Behind a load, an exchange keeps a channel of its own direction sound. -/
theorem sound_effects {own : Fin 3} (hrun : Effects own n frames n') (hd : n.disk.Reliable)
    (hown : c.2 = own) (hpath : n.statePath = ownPath c.2) (h : (ledger c n sent).Sound)
    (hcov : (ledger c n sent).Covered) : (ledger c n' (sent ++ frames)).Sound := by
  induction hrun generalizing sent with
  | done n =>
    rw [List.append_nil]
    exact h
  | received n d len hdown rest ih =>
    have hdc : d ≠ c := by
      rintro rfl
      exact hdown hown
    obtain ⟨h', hcov'⟩ := sound_storeEntry_ne hd hpath h hcov hdc _
    exact ih (frame_storeEntry hd d _).reliable hpath h' hcov'
  | sent n addr dir d hd' hdown pdu wire hlen rest ih =>
    have hd₁ := (frame_storeEntry hd d
      (reserve (n.ctrTable d) (nextValue n d) (pdu.length + 3))).reliable
    rw [List.append_cons]
    by_cases hdc : d = c
    · subst hdc
      obtain ⟨h', hcov'⟩ := sound_storeEntry_self hd hpath h hcov hd' hlen wire
      exact ih hd₁ hpath h' hcov'
    · obtain ⟨h', hcov'⟩ := sound_storeEntry_ne hd hpath h hcov hdc
        (reserve (n.ctrTable d) (nextValue n d) (pdu.length + 3))
      refine ih hd₁ hpath ?_ ?_
      · rwa [ledger_append_ne hd' hdc]
      · rwa [ledger_append_ne hd' hdc]
  | stored n wire rest ih =>
    refine ih (frame_stored hd wire).reliable hpath ?_ ?_
    · rwa [ledger_stored hd]
    · rwa [ledger_stored hd]

theorem framesOn_effects {own : Fin 3} (hrun : Effects own n frames n') (hown : c.2 ≠ own) :
    framesOn c frames = [] := by
  induction hrun with
  | done n => rfl
  | received n d len hdown rest ih => exact ih
  | sent n addr dir d hd' hdown pdu wire hlen rest ih =>
    have hdc : d ≠ c := by
      rintro rfl
      exact hown hdown
    rw [framesOn_cons_ne hd' hdc, ih]
  | stored n wire rest ih => exact ih

/-- An exchange does not touch the channels of the other directions in their file. -/
theorem ledger_effects {own : Fin 3} (hrun : Effects own n frames n') (hd : n.disk.Reliable)
    (hown : c.2 ≠ own) (hpath : n.statePath ≠ ownPath c.2) :
    ledger c n' (sent ++ frames) = ledger c n sent := by
  have hframe := hrun.frame hd
  have hpath' : n'.statePath ≠ ownPath c.2 := hframe.statePath ▸ hpath
  have hfile : recorded n'.disk (ownPath c.2) c = recorded n.disk (ownPath c.2) c := by
    rw [recorded, recorded, hframe.files _ hpath.symm (ownPath_ne_sent _)]
  rw [ledger_other hpath', ledger_other hpath, hfile, framesOn_append, framesOn_effects hrun hown,
    List.append_nil]

theorem exact_effects {own : Fin 3} (hrun : Effects own n frames n') : ∀ f ∈ frames, Exact f := by
  induction hrun with
  | done n => simp
  | received n d len hdown rest ih => exact ih
  | sent n addr dir d hd' hdown pdu wire hlen rest ih =>
    exact List.forall_mem_cons.mpr ⟨exact_sealed _ _ _ _ hlen, ih⟩
  | stored n wire rest ih => exact ih

end Ledgers

/-! ### The events of a history -/

/-- What holds in every history whose self-tests are covered. -/
structure Inv (h : History) : Prop where
  reliable : h.process.node.disk.Reliable
  sound : ∀ c, channelAddr c ≠ selfTestAddr → (ledger c h.process.node h.sent).Sound
  exact : ∀ f ∈ h.sent, f.addr ≠ selfTestAddr → Exact f

section Events
variable {P : Primitives} {c : Channel} {p : Process} {sent : List SentFrame}

theorem recorded_fileEntry (c : Channel) : recorded p.node.disk (statePathOf p.isMaster) c =
    (fileEntry p c).bind entryValue := by
  rw [recorded, fileEntry, Option.bind_assoc]

/-- Behind the load of its own mode, a channel has in memory what its file has. -/
theorem sound_loaded (hd : p.node.disk.Reliable) (hpath : statePathOf p.isMaster = ownPath c.2)
    (h : (ledger c p.node sent).Sound) :
    (ledger c (loaded p) sent).Sound ∧ (ledger c (loaded p) sent).Covered := by
  obtain ⟨hframe, hdisk⟩ := loaded_frame hd
  have hstate : (loaded p).statePath = ownPath c.2 :=
    (hframe.statePath.trans (statePathOf_take _)).trans hpath
  have hload : ∀ v, recorded p.node.disk (ownPath c.2) c = some v →
      entryValue ((loaded p).ctrTable c) = some v := by
    intro v hv
    rw [← hpath, recorded_fileEntry] at hv
    obtain ⟨e, he, hv⟩ := Option.bind_eq_some_iff.mp hv
    rw [loaded_entry hd, he]
    exact hv
  rw [ledger_own hstate, hdisk, hstate]
  refine ⟨h.load hload, fun hsome => ?_⟩
  obtain ⟨v, hv⟩ := Option.isSome_iff_exists.mp hsome
  rw [hload v hv]
  rfl

theorem sound_exchange (hd : p.node.disk.Reliable) (port : SerialPort)
    (h : (ledger c p.node sent).Sound) : (ledger c (doRunExchange P port p).2.node
      (sent ++ (doRunExchange P port p).1.sent.toList)).Sound := by
  obtain ⟨hframe, hdisk⟩ := loaded_frame hd
  have hstate : (loaded p).statePath = statePathOf p.isMaster :=
    hframe.statePath.trans (statePathOf_take _)
  rcases doRunExchange_effects (P := P) hd port with hnone | hrun
  · rw [hnone]
    simpa using h
  · by_cases hown : c.2 = if p.isMaster then 0 else 1
    · have hpath : statePathOf p.isMaster = ownPath c.2 := by rw [hown, ownPath_of_mode]
      obtain ⟨h', hcov'⟩ := sound_loaded hd hpath h
      exact sound_effects hrun hframe.reliable hown (hstate.trans hpath) h' hcov'
    · have hpath : (loaded p).statePath ≠ ownPath c.2 := hstate ▸ ownPath_ne _ _ hown
      rw [ledger_effects hrun hframe.reliable hown hpath, ledger_other hpath, hdisk]
      exact h.forget

/-- A self-test writes the memory down, if the current file is the channel's. -/
theorem sound_selfTest (hd : p.node.disk.Reliable) (hc : channelAddr c ≠ selfTestAddr)
    (h : (ledger c p.node sent).Sound)
    (hcov : (recorded p.node.disk p.node.statePath c).isSome →
      (entryValue (p.node.ctrTable c)).isSome) :
    (ledger c (doSelfTest P p).2.2.node sent).Sound := by
  obtain ⟨hframe, hwritten⟩ := doSelfTest_effects (P := P) p hd
  generalize (doSelfTest P p).2.2.node = n' at hframe hwritten
  by_cases hpath : p.node.statePath = ownPath c.2
  · have hjournal : recorded n'.disk n'.statePath c = entryValue (p.node.ctrTable c) := by
      rw [recorded, hwritten, Option.bind_some, listed_entryValue, hframe.table c hc]
    rw [ledger_own hpath] at h
    rw [ledger_own (hframe.statePath.trans hpath), hjournal, hframe.table c hc]
    exact h.rewrite hcov
  · have hpath' : n'.statePath ≠ ownPath c.2 := hframe.statePath ▸ hpath
    have hfile : recorded n'.disk (ownPath c.2) c = recorded p.node.disk (ownPath c.2) c := by
      rw [recorded, recorded, hframe.files _ (Ne.symm hpath)]
    rw [ledger_other hpath] at h
    rwa [ledger_other hpath', hfile]

theorem inv_exchange (h : Inv ⟨p, sent⟩) (port : SerialPort) :
    Inv (step P ⟨p, sent⟩ (.choose (.runExchange port))) := by
  have hd := h.reliable
  have hstep : step P ⟨p, sent⟩ (.choose (.runExchange port)) =
    ⟨(doRunExchange P port p).2, sent ++ (doRunExchange P port p).1.sent.toList⟩ := rfl
  rw [hstep]
  refine ⟨?_, fun c hc => sound_exchange hd port (h.sound c hc), ?_⟩
  · exact (doRunExchange_frame hd port).2.1
  · intro f hf
    rcases List.mem_append.mp hf with hf | hf
    · exact h.exact f hf
    · rcases doRunExchange_effects (P := P) hd port with hnone | hrun
      · rw [hnone] at hf
        exact absurd hf List.not_mem_nil
      · exact fun _ => exact_effects hrun f hf

theorem step_selfTest (p : Process) (sent : List SentFrame) : ∃ frames : List SentFrame,
    (∀ f ∈ frames, f.addr = selfTestAddr) ∧
      step P ⟨p, sent⟩ (.choose .selfTest) = ⟨(doSelfTest P p).2.2, sent ++ frames⟩ := by
  rw [step, choose]
  generalize doSelfTest P p = r
  obtain ⟨ok, result, q⟩ := r
  refine ⟨(result.map fun r => ⟨selfTestAddr, .masterToSlave, r⟩).toList, fun f hf => ?_, rfl⟩
  obtain ⟨r, -, rfl⟩ := Option.map_eq_some_iff.mp (Option.mem_toList.mp hf)
  rfl

theorem inv_selfTest (h : Inv ⟨p, sent⟩) (hcov : SelfTestCovered ⟨p, sent⟩ (.choose .selfTest)) :
    Inv (step P ⟨p, sent⟩ (.choose .selfTest)) := by
  have hd : p.node.disk.Reliable := h.reliable
  obtain ⟨frames, haddr, hstep⟩ := step_selfTest (P := P) p sent
  rw [hstep]
  refine ⟨(doSelfTest_effects (P := P) p hd).1.reliable, fun c hc => ?_, fun f hf => ?_⟩
  · have hframes : framesOn c (sent ++ frames) = framesOn c sent :=
      framesOn_append_of_addr fun f hf => haddr f hf ▸ hc.symm
    have hsound := sound_selfTest (P := P) hd hc (h.sound c hc) (hcov c hc)
    rw [ledger] at hsound ⊢
    rwa [hframes]
  · rcases List.mem_append.mp hf with hf | hf
    · exact h.exact f hf
    · exact fun hne => absurd (haddr f hf) hne

/-- Every menu option and every restart keep the invariant, a self-test if it is covered. -/
theorem inv_step (h : History) (e : Event) (hinv : Inv h) (hcov : SelfTestCovered h e) :
    Inv (step P h e) := by
  obtain ⟨p, sent⟩ := h
  -- three options neither touch a counter nor encrypt a frame
  have hkept : ∀ q : Process, q.node.disk.Reliable → q.node.statePath = p.node.statePath →
      q.node.ctrTable = p.node.ctrTable → q.node.disk = p.node.disk → Inv ⟨q, sent ++ []⟩ := by
    intro q hd hpath htable hdisk
    rw [List.append_nil]
    refine ⟨hd, fun c hc => ?_, hinv.exact⟩
    have hsound := hinv.sound c hc
    rw [ledger] at hsound ⊢
    rwa [hpath, htable, hdisk]
  cases e with
  | choose o =>
    cases o with
    | switchMode => exact hkept { p with isMaster := !p.isMaster } hinv.reliable rfl rfl rfl
    | keyInit =>
      obtain ⟨keyTable, hnode, -⟩ := doKeyInit_frame p hinv.reliable
      refine hkept (doKeyInit p) ?_ ?_ ?_ ?_
      all_goals rw [hnode]
      exact hinv.reliable
    | selfTest => exact inv_selfTest hinv hcov
    | envConfig input => exact hkept (doEnvConfig input p) hinv.reliable rfl rfl rfl
    | runExchange port => exact inv_exchange hinv port
  | restart argv0 =>
    refine ⟨hinv.reliable, fun c hc => ?_, hinv.exact⟩
    rw [step, ledger_newProcess]
    exact (hinv.sound c hc).forget

theorem inv_start (argv0 : Option Bytes) (files : Bytes → Option Bytes) :
    Inv ⟨newProcess argv0 ⟨files, []⟩, []⟩ :=
  ⟨(rfl : ([] : List Outcome) = []), fun c _ => sound_nil _ _, by simp⟩

/-- Consecutive ranges that go round at most once have no block in common. -/
theorem fresh_of_inv {h : History} (hinv : Inv h) (hc : channelAddr c ≠ selfTestAddr)
    (hblocks : blocksOn c h ≤ 2 ^ 32) : FreshFrames c h := by
  have hexact : ∀ f ∈ framesOn c h.sent, Exact f := by
    intro f hf
    obtain ⟨hmem, hon⟩ := List.mem_filter.mp hf
    refine hinv.exact f hmem ?_
    rwa [← channelAddr_of_channelIndex (of_decide_eq_true hon)]
  have hapart := apart_of_consecutive (hinv.sound c hc).consecutive hblocks
  exact (List.pairwise_map.mp hapart).imp_of_mem fun hf hg =>
    disjoint_of_apart (hexact _ hf) (hexact _ hg)

theorem upToDate_of_inv {h : History} (hinv : Inv h) (hc : channelAddr c ≠ selfTestAddr) :
    FileUpToDate c h := by
  intro f hf
  refine (hinv.sound c hc).recorded _ ?_
  rw [Ledger.stop, ledger, List.getLast?_map, hf]
  rfl

end Events

/-- If every self-test finds in memory what the state file lists for other addresses, then in
every history no counter block is used twice and every file is up to date. -/
theorem keystream_fresh (P : Primitives) (argv0 : Option Bytes) (files : Bytes → Option Bytes)
    (es : List Event)
    (hcov : Always (step P) SelfTestCovered ⟨newProcess argv0 ⟨files, []⟩, []⟩ es)
    (c : Channel) (hc : channelAddr c ≠ selfTestAddr)
    (hblocks : blocksOn c (run (step P) ⟨newProcess argv0 ⟨files, []⟩, []⟩ es) < 2 ^ 32) :
    FreshFrames c (run (step P) ⟨newProcess argv0 ⟨files, []⟩, []⟩ es) ∧
      FileUpToDate c (run (step P) ⟨newProcess argv0 ⟨files, []⟩, []⟩ es) := by
  have hinv := invariant_run inv_step (inv_start argv0 files) hcov
  exact ⟨fresh_of_inv hinv hc hblocks.le, upToDate_of_inv hinv hc⟩

/-! ### The same session in two processes -/

/-- One key, for the frames of the master to slave 1. -/
def keyText : Bytes :=
  ascii ['1', ' ', 'm', '2', 's', ' ', '1', '2', '3', '4', '5', '6', '7', '8', '9', '0', '1', '2', '3',
    '4', '5', '6', ' ', 'a', 'b', 'c', 'd', 'e', 'f', 'g', 'h', 'i', 'j', 'k', 'l', 'm', 'n', 'o', 'p',
    ' ', '0', '0', '0', '0', '0', '0', '0', '0', '\n']

def demoArgv0 : Option Bytes := some (ascii ['.', '/', 'd', 'e', 'm', 'o'])

/-- A port that is not configured. -/
def noPort : SerialPort := ⟨false, false, fun _ => none⟩

/-- Only the start address is answered. -/
def addrInput (startAddr : Option ℤ) : ConfigInput := ⟨none, none, none, startAddr, none⟩

/-- A self-test, the keys, a start address, and one exchange. -/
def session (startAddr : Option ℤ) : List Event :=
  [.choose .selfTest, .choose .keyInit, .choose (.envConfig (addrInput startAddr)),
    .choose (.runExchange noPort)]

/-- A request of ten bytes, encrypted under counter 0. -/
def seedFrame (wire : Bytes) : SentFrame := ⟨1, .masterToSlave, ⟨wire, blocksUsed 0 13⟩⟩

/-- A request of ten bytes to slave 1, encrypted under a counter. -/
def sentRequest (wire : Bytes) (v : BitVec 32) : SentFrame :=
  ⟨1, .masterToSlave, ⟨wire, blocksUsed v 13⟩⟩

/-- A directory with a key file and nothing else. -/
def keyDirectory : Bytes → Option Bytes := Function.update (fun _ => none) keysFile (some keyText)

section Session
variable {P : Primitives} {p : Process}

private theorem doKeyInit_keyText (hd : p.node.disk.Reliable)
    (hfile : p.node.disk.files keysFile = some keyText) : ∃ keys, doKeyInit p =
      { p with
        keysLoaded := true
        node := { p.node with
          keyTable := Function.update p.node.keyTable (1, 0) ⟨true, keys, 0⟩ } } := by
  obtain ⟨keys, hentries⟩ : ∃ keys, keyFileEntries keyText = [((1, 0), ⟨true, keys, 0⟩)] := ⟨_, rfl⟩
  refine ⟨keys, ?_⟩
  have hfirst : keyStoreLoadFile p.node.keyTable (p.node.disk.files keysFile) =
      (some 1, Function.update p.node.keyTable (1, 0) ⟨true, keys, 0⟩) := by
    rw [hfile, keyStoreLoadFile, hentries]
    rfl
  have hcount : 0 < (keyStoreLoadFile p.node.keyTable (p.node.disk.files keysFile)).1.getD 0 := by
    rw [hfirst]
    exact Nat.one_pos
  have hload : demoLoadKeys p.argv0 p.node = (some 1, { p.node with
      keyTable := Function.update p.node.keyTable (1, 0) ⟨true, keys, 0⟩ }) := by
    rw [demoLoadKeys, keyPaths, List.cons_append, loadFirst_hit hd hcount, hfirst]
  rw [doKeyInit, hload]
  rfl

/-- An exchange without a port: the frame goes to a file. -/
private theorem runAsMaster_unsent {config : Config} {n n₁ : Node} {req : Bytes} {result : BuildResult}
    (hport : config.hasPort = false)
    (hbuild : modbusBuildRequest config.funcCode config.startAddr config.valueOrQty = some req)
    (hsend : secureFrameEncryptAndBuild P n config.slaveAddr req .masterToSlave = (some result, n₁)) :
    (runAsMaster P config noPort n).1.sent = some ⟨config.slaveAddr, .masterToSlave, result⟩ := by
  simp [runAsMaster, hbuild, hsend, hport]

/-- A channel that neither the memory nor the file has starts at its seed. -/
private theorem nextValue_loaded (hd : p.node.disk.Reliable) {c : Channel} {keys : DirectionalKeys}
    (hkey : p.node.keyTable c = ⟨true, keys, 0⟩) (hunlisted : fileEntry p c = none)
    (htable : p.node.ctrTable c = emptyCtrTable c) : nextValue (loaded p) c = 0 := by
  have hkey' : (loaded p).keyTable c = ⟨true, keys, 0⟩ := by
    rw [(loaded_frame hd).1.keyTable]
    exact hkey
  have hentry : (loaded p).ctrTable c = emptyCtrTable c := by
    rw [loaded_entry hd, hunlisted]
    exact htable
  rw [nextValue, hentry, seed, hkey']
  rfl

/-- The request of a master without a port, under the next counter of its channel. -/
theorem exchange_sent (hd : p.node.disk.Reliable) (hkeys : p.keysLoaded = true)
    (hmode : p.isMaster = true) {start : Word}
    (hconfig : p.config = ⟨false, 0x01, funcWriteMultipleRegisters, start, 2⟩) {keys : DirectionalKeys}
    (hkey : p.node.keyTable (1, 0) = ⟨true, keys, 0⟩) :
    ∃ wire, (doRunExchange P noPort p).1.sent =
      some (sentRequest wire (nextValue (loaded p) (1, 0))) := by
  obtain ⟨req, hreq, hlen⟩ : ∃ req, modbusBuildRequest funcWriteMultipleRegisters start 2 = some req ∧
      req.length = 10 := ⟨_, rfl, rfl⟩
  have hkey' : (loaded p).keyTable (1, 0) = ⟨true, keys, 0⟩ := by
    rw [(loaded_frame hd).1.keyTable]
    exact hkey
  have hsend := secureFrameEncryptAndBuild_eq (P := P) (n := loaded p)
    (show req.length ≤ maxPdu by rw [hlen]; decide)
    (show channelIndex 1 .masterToSlave = some (1, 0) from rfl) (by rw [hkey'])
  rw [hlen] at hsend
  rw [doRunExchange_master hkeys hmode, hconfig]
  exact ⟨_, runAsMaster_unsent rfl hreq hsend⟩

theorem exchange_at_seed (hd : p.node.disk.Reliable) (hkeys : p.keysLoaded = true)
    (hmode : p.isMaster = true) {start : Word}
    (hconfig : p.config = ⟨false, 0x01, funcWriteMultipleRegisters, start, 2⟩) {keys : DirectionalKeys}
    (hkey : p.node.keyTable (1, 0) = ⟨true, keys, 0⟩) (hunlisted : fileEntry p (1, 0) = none)
    (htable : p.node.ctrTable (1, 0) = emptyCtrTable (1, 0)) :
    ∃ wire, (doRunExchange P noPort p).1.sent = some (seedFrame wire) := by
  obtain ⟨wire, hsent⟩ := exchange_sent (P := P) hd hkeys hmode hconfig hkey
  rw [nextValue_loaded hd hkey hunlisted htable] at hsent
  exact ⟨wire, hsent⟩

/-- A self-test in a new process leaves a file that lists no channel of slave 1. -/
private theorem selfTest_unlists {disk : Disk} (hd : disk.Reliable) (argv0 : Option Bytes) :
    fileEntry (doSelfTest P (newProcess argv0 disk)).2.2 (1, 0) = none ∧
      (doSelfTest P (newProcess argv0 disk)).2.2.node.ctrTable (1, 0) = emptyCtrTable (1, 0) := by
  obtain ⟨htest, hwritten⟩ := doSelfTest_effects (P := P) (newProcess argv0 disk) hd
  have htable := htest.table (1, 0) (by decide)
  have hmode : (doSelfTest P (newProcess argv0 disk)).2.2.isMaster = true := rfl
  generalize (doSelfTest P (newProcess argv0 disk)).2.2 = q at *
  have hpath : statePathOf q.isMaster = q.node.statePath := by
    rw [hmode, htest.statePath]
    rfl
  refine ⟨?_, htable⟩
  rw [fileEntry, hpath, hwritten, Option.bind_some, listed_persistText, htable]
  rfl

private theorem doEnvConfig_addr (hmode : p.isMaster = true)
    (hconfig : p.config = ⟨false, 0x01, funcWriteMultipleRegisters, 1, 2⟩) (startAddr : Option ℤ) :
    (doEnvConfig (addrInput startAddr) p).config = ⟨false, 0x01, funcWriteMultipleRegisters,
      prompt 0 65535 (fun _ => true) 1 startAddr, 2⟩ := by
  simp only [doEnvConfig, addrInput, hmode, hconfig, if_true]
  rfl

/-- An exchange of the master keeps the key file. -/
private theorem keysFile_exchange (hd : p.node.disk.Reliable) (hmode : p.isMaster = true)
    (port : SerialPort) : (doRunExchange P port p).2.node.disk.files keysFile =
      p.node.disk.files keysFile := by
  obtain ⟨-, -, hfiles⟩ := doRunExchange_frame (P := P) hd port
  have hpath : keysFile ≠ statePathOf p.isMaster := by
    rw [hmode]
    decide
  exact hfiles keysFile hpath (by decide)

/-- The keys and an exchange, with the channel in neither memory nor file. -/
private theorem keyInit_exchange (hd : p.node.disk.Reliable)
    (hfile : p.node.disk.files keysFile = some keyText) (hmode : p.isMaster = true)
    (hconfig : p.config = ⟨false, 0x01, funcWriteMultipleRegisters, 1, 2⟩)
    (hunlisted : fileEntry p (1, 0) = none) (htable : p.node.ctrTable (1, 0) = emptyCtrTable (1, 0))
    (startAddr : Option ℤ) :
    let r := doRunExchange P noPort (doEnvConfig (addrInput startAddr) (doKeyInit p))
    r.2.node.disk.Reliable ∧ r.2.node.disk.files keysFile = some keyText ∧
      ∃ wire, r.1.sent = some (seedFrame wire) := by
  obtain ⟨keys, hinit⟩ := doKeyInit_keyText hd hfile
  have hconfig' := doEnvConfig_addr (p := doKeyInit p) hmode hconfig startAddr
  have hloaded : (doKeyInit p).keysLoaded = true := by rw [hinit]
  have hnode : (doEnvConfig (addrInput startAddr) (doKeyInit p)).node = { p.node with
      keyTable := Function.update p.node.keyTable (1, 0) ⟨true, keys, 0⟩ } := by
    rw [hinit]
    rfl
  have hmode' : (doEnvConfig (addrInput startAddr) (doKeyInit p)).isMaster = p.isMaster := rfl
  have hloaded' : (doEnvConfig (addrInput startAddr) (doKeyInit p)).keysLoaded = true := hloaded
  generalize doEnvConfig (addrInput startAddr) (doKeyInit p) = q at *
  have hd' : q.node.disk.Reliable := by rw [hnode]; exact hd
  have hkey : q.node.keyTable (1, 0) = ⟨true, keys, 0⟩ := by simp [hnode]
  have hunlisted' : fileEntry q (1, 0) = none := by
    rw [fileEntry, hnode, hmode']
    exact hunlisted
  obtain ⟨-, hreliable, -⟩ := doRunExchange_frame (P := P) hd' noPort
  refine ⟨hreliable, ?_,
    exchange_at_seed hd' hloaded' (hmode'.trans hmode) hconfig' hkey hunlisted' ?_⟩
  · rw [keysFile_exchange hd' (hmode'.trans hmode), hnode, hfile]
  · rw [hnode]
    exact htable

/-- In a new process the session uses counter 0, whatever the state file of the directory
lists: the self-test has written the empty table over it. -/
theorem session_at_seed {disk : Disk} (hd : disk.Reliable) (hfile : disk.files keysFile = some keyText)
    (argv0 : Option Bytes) (sent : List SentFrame) (startAddr : Option ℤ) :
    let h := run (step P) ⟨newProcess argv0 disk, sent⟩ (session startAddr)
    h.process.node.disk.Reliable ∧ h.process.node.disk.files keysFile = some keyText ∧
      ∃ wire, framesOn (1, 0) h.sent = framesOn (1, 0) sent ++ [seedFrame wire] := by
  obtain ⟨htest, -⟩ := doSelfTest_effects (P := P) (newProcess argv0 disk) hd
  obtain ⟨hunlisted, htable⟩ := selfTest_unlists (P := P) hd argv0
  obtain ⟨frames, haddr, hstep⟩ := step_selfTest (P := P) (newProcess argv0 disk) sent
  have hfile' := (htest.files keysFile (show keysFile ≠ ctrStateDefaultPath by decide)).trans hfile
  obtain ⟨hreliable, hkeys, wire, hsent⟩ :=
    keyInit_exchange (P := P) htest.reliable hfile' rfl rfl hunlisted htable startAddr
  have htestframes : framesOn (1, 0) (sent ++ frames) = framesOn (1, 0) sent :=
    framesOn_append_of_addr fun f hf => haddr f hf ▸ by decide
  rw [session, run_cons, hstep]
  generalize (doSelfTest P (newProcess argv0 disk)).2.2 = q at *
  have hrun : ∀ input, run (step P) ⟨q, sent ++ frames⟩
      [.choose .keyInit, .choose (.envConfig input), .choose (.runExchange noPort)] =
      ⟨(doRunExchange P noPort (doEnvConfig input (doKeyInit q))).2, sent ++ frames ++ [] ++ [] ++
        (doRunExchange P noPort (doEnvConfig input (doKeyInit q))).1.sent.toList⟩ := fun _ => rfl
  rw [hrun, hsent, List.append_nil, List.append_nil]
  refine ⟨hreliable, hkeys, wire, ?_⟩
  rw [framesOn_append, htestframes]
  rfl

private theorem keyDirectory_keysFile : keyDirectory keysFile = some keyText := Function.update_self ..

/-- With LEA and any MAC: the self-test of the second process empties the state file, and its
exchange takes the counter block of the first one. -/
theorem selfTest_reuses_block : ¬ ∃ mac, KeystreamFresh (leaPrimitives mac) := by
  rintro ⟨mac, h⟩
  let P := leaPrimitives mac
  have hd : (⟨keyDirectory, []⟩ : Disk).Reliable := (rfl : ([] : List Outcome) = [])
  let es := session none ++ .restart demoArgv0 :: session (some 2)
  obtain ⟨hd₁, hfile₁, wire, hfirst⟩ :=
    session_at_seed (P := P) hd keyDirectory_keysFile demoArgv0 [] none
  obtain ⟨-, -, wire', hsecond⟩ := session_at_seed (P := P) hd₁ hfile₁ demoArgv0
    (run (step P) ⟨newProcess demoArgv0 ⟨keyDirectory, []⟩, []⟩ (session none)).sent (some 2)
  have hframes : framesOn (1, 0) (run (step P) ⟨newProcess demoArgv0 ⟨keyDirectory, []⟩, []⟩ es).sent =
      [seedFrame wire, seedFrame wire'] := by
    rw [run_append, run_cons]
    exact hsecond.trans (congrArg (· ++ [seedFrame wire']) hfirst)
  obtain ⟨hfresh, -⟩ := h demoArgv0 keyDirectory es (1, 0) (by decide)
    (by rw [blocksOn, hframes]; exact (by decide : 2 < 2 ^ 32))
  rw [FreshFrames, hframes] at hfresh
  have hblock : counterBlock 0 ∈ blocksUsed 0 13 := mem_counterBlocks.mpr ⟨0, le_rfl, by decide, rfl⟩
  exact List.rel_of_pairwise_cons hfresh List.mem_cons_self hblock hblock

/-- A master in a directory with the key of slave 1, which it has once keys are loaded. -/
structure Keyed (p : Process) : Prop where
  reliable : p.node.disk.Reliable
  isMaster : p.isMaster = true
  config : p.config = ⟨false, 0x01, funcWriteMultipleRegisters, 1, 2⟩
  file : p.node.disk.files keysFile = some keyText
  statePath : keysFile ≠ p.node.statePath
  key : p.keysLoaded = true → ∃ keys, p.node.keyTable (1, 0) = ⟨true, keys, 0⟩

theorem keyed_start {disk : Disk} (hd : disk.Reliable) (hfile : disk.files keysFile = some keyText)
    (argv0 : Option Bytes) : Keyed (newProcess argv0 disk) :=
  ⟨hd, rfl, rfl, hfile, (by decide : keysFile ≠ ctrStateDefaultPath), fun hkeys => by cases hkeys⟩

theorem keyInit_step (h : Keyed p) (sent : List SentFrame) : ∃ q,
    step P ⟨p, sent⟩ (.choose .keyInit) = ⟨q, sent⟩ ∧ Keyed q ∧ q.keysLoaded = true := by
  obtain ⟨keys, hinit⟩ := doKeyInit_keyText h.reliable h.file
  have hkeyed : Keyed (doKeyInit p) ∧ (doKeyInit p).keysLoaded = true := by
    rw [hinit]
    refine ⟨⟨h.reliable, h.isMaster, h.config, h.file, h.statePath, fun _ => ⟨keys, ?_⟩⟩, rfl⟩
    exact Function.update_self (1, 0) _ p.node.keyTable
  refine ⟨doKeyInit p, ?_, hkeyed⟩
  rw [step, choose, Option.toList_none, List.append_nil]

theorem selfTest_step (h : Keyed p) (hkeys : p.keysLoaded = true) (sent : List SentFrame) :
    ∃ q frames, step P ⟨p, sent⟩ (.choose .selfTest) = ⟨q, sent ++ frames⟩ ∧
      (∀ f ∈ frames, f.addr = selfTestAddr) ∧ Keyed q ∧ q.keysLoaded = true := by
  obtain ⟨htest, -⟩ := doSelfTest_effects (P := P) p h.reliable
  have hkey := doSelfTest_keys (P := P) p (show channelAddr (1, 0) ≠ selfTestAddr by decide)
  obtain ⟨frames, haddr, hstep⟩ := step_selfTest (P := P) p sent
  refine ⟨_, frames, hstep, haddr, ⟨htest.reliable, h.isMaster, h.config, ?_, ?_, fun hkeys => ?_⟩,
    hkeys⟩
  · rw [htest.files keysFile h.statePath, h.file]
  · rw [htest.statePath]
    exact h.statePath
  · rw [hkey]
    exact h.key hkeys

theorem usedRange_sentRequest (wire : Bytes) (v : BitVec 32) :
    usedRange (sentRequest wire v) = (v, 1) :=
  usedRange_sealed 1 .masterToSlave wire v (List.replicate 10 0)

theorem request_step (h : Keyed p) (hkeys : p.keysLoaded = true) (sent : List SentFrame) :
    ∃ q wire v, step P ⟨p, sent⟩ (.choose (.runExchange noPort)) =
        ⟨q, sent ++ [sentRequest wire v]⟩ ∧
      Keyed q ∧ q.keysLoaded = true ∧ Covers q.node := by
  obtain ⟨keys, hkey⟩ := h.key hkeys
  obtain ⟨wire, hsent⟩ := exchange_sent (P := P) h.reliable hkeys h.isMaster h.config hkey
  obtain ⟨hmode, hloaded, hconfig, -⟩ := doRunExchange_settings (P := P) (p := p) noPort
  obtain ⟨hkept, hreliable, -⟩ := doRunExchange_frame (P := P) h.reliable noPort
  refine ⟨(doRunExchange P noPort p).2, wire, nextValue (loaded p) (1, 0), ?_, ⟨hreliable,
    hmode.trans h.isMaster, hconfig.trans h.config, ?_, ?_, fun _ => ⟨keys, ?_⟩⟩,
    hloaded.trans hkeys, covers_doRunExchange hkeys h.reliable noPort⟩
  · have hstep : step P ⟨p, sent⟩ (.choose (.runExchange noPort)) =
        ⟨(doRunExchange P noPort p).2, sent ++ (doRunExchange P noPort p).1.sent.toList⟩ := rfl
    rw [hstep, hsent]
    rfl
  · rw [keysFile_exchange h.reliable h.isMaster, h.file]
  · rw [doRunExchange_statePath hkeys h.reliable, h.isMaster]
    decide
  · rw [hkept, hkey]

/-- A request in one process; in the next one a request, a self-test and another request. -/
def twoProcesses : List Event :=
  [.choose .keyInit, .choose (.runExchange noPort), .restart demoArgv0, .choose .keyInit,
    .choose (.runExchange noPort), .choose .selfTest, .choose (.runExchange noPort)]

/-- The three requests take three blocks, and the self-test finds in memory what the file lists
of the first two. -/
theorem keystream_fresh_two_processes :
    let P := leaPrimitives fun _ _ => ⟨List.replicate 32 0, rfl⟩
    let h := run (step P) ⟨newProcess demoArgv0 ⟨keyDirectory, []⟩, []⟩ twoProcesses
    (framesOn (1, 0) h.sent).length = 3 ∧ FreshFrames (1, 0) h ∧ FileUpToDate (1, 0) h := by
  intro P h
  have hd : (⟨keyDirectory, []⟩ : Disk).Reliable := (rfl : ([] : List Outcome) = [])
  have hstart := keyed_start hd keyDirectory_keysFile demoArgv0
  obtain ⟨p₁, h₁, hkeyed₁, hkeys₁⟩ := keyInit_step (P := P) hstart []
  obtain ⟨p₂, wire, v, h₂, hkeyed₂, -, -⟩ := request_step (P := P) hkeyed₁ hkeys₁ []
  have hrestart := keyed_start hkeyed₂.reliable hkeyed₂.file demoArgv0
  obtain ⟨p₃, h₃, hkeyed₃, hkeys₃⟩ := keyInit_step (P := P) hrestart ([] ++ [sentRequest wire v])
  obtain ⟨p₄, wire', v', h₄, hkeyed₄, hkeys₄, hcovers⟩ :=
    request_step (P := P) hkeyed₃ hkeys₃ ([] ++ [sentRequest wire v])
  obtain ⟨p₅, frames, h₅, haddr, hkeyed₅, hkeys₅⟩ := selfTest_step (P := P) hkeyed₄ hkeys₄
    ([] ++ [sentRequest wire v] ++ [sentRequest wire' v'])
  obtain ⟨p₆, wire'', v'', h₆, -⟩ := request_step (P := P) hkeyed₅ hkeys₅
    ([] ++ [sentRequest wire v] ++ [sentRequest wire' v'] ++ frames)
  have h₀ : ∀ p sent, step P ⟨p, sent⟩ (.restart demoArgv0) =
      ⟨newProcess demoArgv0 p.node.disk, sent⟩ := fun _ _ => rfl
  have hrun : h = ⟨p₆, [] ++ [sentRequest wire v] ++ [sentRequest wire' v'] ++ frames ++
      [sentRequest wire'' v'']⟩ := by
    simp only [h, twoProcesses, run_cons, run_nil, h₀, h₁, h₂, h₃, h₄, h₅, h₆]
  have hcov : Always (step P) SelfTestCovered ⟨newProcess demoArgv0 ⟨keyDirectory, []⟩, []⟩
      twoProcesses := by
    simp only [twoProcesses, Always, h₀, h₁, h₂, h₃, h₄, h₅]
    exact ⟨trivial, trivial, trivial, trivial, trivial, fun c _ => hcovers c, trivial, trivial⟩
  have hframes : framesOn (1, 0) h.sent =
      [sentRequest wire v, sentRequest wire' v', sentRequest wire'' v''] := by
    have htest : framesOn (1, 0) ([] ++ frames) = [] :=
      framesOn_append_of_addr fun f hf => haddr f hf ▸ by decide
    rw [List.nil_append] at htest
    rw [hrun]
    simp only [framesOn_append, htest]
    rfl
  have hblocks : blocksOn (1, 0) h = 3 := by
    rw [blocksOn, hframes]
    simp only [List.map_cons, List.map_nil, usedRange_sentRequest]
    rfl
  refine ⟨by rw [hframes]; rfl, keystream_fresh P demoArgv0 keyDirectory twoProcesses hcov (1, 0)
    (by decide) ?_⟩
  rw [hblocks]
  decide

end Session
end ModbusSecurity.RestartHistory
