import ModbusSecurity.CounterRecords
import ModbusSecurity.SecureDemo

/-! # What an exchange does to a process

One exchange is a short sequence of reservations, some of them for frames that are sent,
and perhaps a write of `sent_frame.bin`. -/
namespace ModbusSecurity.ExchangeEffects
open ByteStrings KeyStore CounterFile CounterRecords CounterState SecureFraming FrameRejection ModbusPdu SecureDemo

/-- The steps of an exchange, with the frames it encrypts: those go out on channels of the
direction `own`, and what is received comes in on others. -/
inductive Effects (own : Fin 3) : Node → List SentFrame → Node → Prop
  | done (n : Node) : Effects own n [] n
  | received (n : Node) (c : Channel) (len : ℕ) (hc : c.2 ≠ own) {frames : List SentFrame} {n' : Node}
      (rest : Effects own (storeEntry n c (reserve (n.ctrTable c) (nextValue n c) len)) frames n') :
      Effects own n frames n'
  | sent (n : Node) (addr : Byte) (dir : KeyDirection) (c : Channel)
      (hc : channelIndex addr dir = some c) (hown : c.2 = own) (pdu wire : Bytes)
      (hlen : pdu.length ≤ maxPdu) {frames : List SentFrame} {n' : Node}
      (rest : Effects own (storeEntry n c
        (reserve (n.ctrTable c) (nextValue n c) (pdu.length + 3))) frames n') :
      Effects own n (⟨addr, dir, ⟨wire, blocksUsed (nextValue n c) (pdu.length + 3)⟩⟩ :: frames) n'
  | stored (n : Node) (wire : Bytes) {frames : List SentFrame} {n' : Node}
      (rest : Effects own { n with disk := (n.disk.write sentFramePath wire).2 } frames n') :
      Effects own n frames n'

section Modes
variable {P : Primitives} {own : Fin 3}

theorem direction_of_channelIndex {addr : Byte} {dir : KeyDirection} {c : Channel} {di : Fin 3}
    (hc : channelIndex addr dir = some c) (hdir : keyDirectionIndex dir = some di) : c.2 = di :=
  Option.some.inj ((channelIndex_eq_some hc).2.symm.trans hdir)

/-- A verification that comes before `rest`. -/
theorem effects_verify {n n' : Node} {rx : Bytes} {expected_addr : Byte} {dir : KeyDirection}
    {di : Fin 3} (hdir : keyDirectionIndex dir = some di) (hown : di ≠ own) {frames : List SentFrame}
    (rest : Effects own (secureFrameVerifyAndDecrypt P n rx expected_addr dir).2 frames n') :
    Effects own n frames n' := by
  rcases verify_cases P n rx expected_addr dir with ⟨-, -, hn⟩ | ⟨frame, c, -, hc, -, -, -, hn⟩
  · rwa [hn] at rest
  · rw [hn] at rest
    refine .received n c _ (fun h => hown ?_) rest
    exact (direction_of_channelIndex hc hdir).symm.trans h

/-- An encryption that comes before `rest`, if it succeeds. -/
theorem effects_encrypt {n n₁ n' : Node} {addr : Byte} {pdu : Bytes} {dir : KeyDirection}
    {result : BuildResult} (hdir : keyDirectionIndex dir = some own) {frames : List SentFrame}
    (hsend : secureFrameEncryptAndBuild P n addr pdu dir = (some result, n₁))
    (rest : Effects own n₁ frames n') : Effects own n (⟨addr, dir, result⟩ :: frames) n' := by
  rcases secureFrameEncryptAndBuild_cases P n addr pdu dir with h | ⟨hlen, c, hc, hkey⟩
  · rw [h] at hsend
    cases hsend
  · rw [secureFrameEncryptAndBuild_eq hlen hc hkey] at hsend
    cases hsend
    exact .sent n addr dir c hc (direction_of_channelIndex hc hdir) pdu _ hlen rest

theorem runAsMaster_effects (config : Config) (port : SerialPort) (n : Node) :
    Effects 0 n (runAsMaster P config port n).1.sent.toList (runAsMaster P config port n).2 := by
  unfold runAsMaster
  split
  · exact .done n
  · rename_i pdu _
    split
    · rename_i n₁ hfail
      have hn := encrypt_failure_keeps_state P n _ _ _ (congrArg Prod.fst hfail)
      rw [hfail] at hn
      obtain rfl : n₁ = n := hn
      exact .done n₁
    · rename_i result n₁ hsend
      simp only
      split
      · exact effects_encrypt rfl hsend (.stored n₁ result.wire (.done _))
      split
      · exact effects_encrypt rfl hsend (.done n₁)
      split
      · exact effects_encrypt rfl hsend (.done n₁)
      · exact effects_encrypt rfl hsend (.done n₁)
      · rename_i rx _
        exact effects_encrypt rfl hsend
          (effects_verify (show keyDirectionIndex _ = some 1 from rfl) (by decide) (.done _))

theorem processIncomingFrame_effects (config : Config) (port : Option SerialPort) (rx : Bytes)
    (n : Node) (tables : DataModel) :
    Effects 1 n (processIncomingFrame P config port rx n tables).1.sent.toList
      (processIncomingFrame P config port rx n tables).2.1 := by
  have hdir : keyDirectionIndex .masterToSlave = some 0 := rfl
  unfold processIncomingFrame
  simp only
  split
  · split
    · exact effects_verify hdir (by decide) (.done _)
    · split
      · rename_i n₁ hfail
        have hn := encrypt_failure_keeps_state P _ _ _ _ (congrArg Prod.fst hfail)
        rw [hfail] at hn
        obtain rfl : n₁ = _ := hn
        exact effects_verify hdir (by decide) (.done _)
      · rename_i hsend
        exact effects_verify hdir (by decide) (effects_encrypt rfl hsend (.done _))
  · exact effects_verify hdir (by decide) (.done _)

/-- What is received is the decoder's answer, whatever comes behind it. -/
theorem processIncomingFrame_received (config : Config) (port : Option SerialPort) (rx : Bytes)
    (n : Node) (tables : DataModel) :
    (processIncomingFrame P config port rx n tables).1.received =
      some (secureFrameVerifyAndDecrypt P n rx config.slaveAddr .masterToSlave).1 := by
  unfold processIncomingFrame
  simp only
  split
  · split
    · rfl
    · split <;> rfl
  · rfl

theorem runAsSlave_effects (config : Config) (port : SerialPort) {n : Node} (hd : n.disk.Reliable)
    (tables : DataModel) :
    Effects 1 n (runAsSlave P config port n tables).1.sent.toList
      (runAsSlave P config port n tables).2.1 := by
  unfold runAsSlave
  rw [Disk.read_reliable hd]
  split
  · split
    · rename_i disk hread
      obtain rfl : n.disk = disk := (Prod.mk.inj hread).2
      exact .done n
    · rename_i disk hread
      obtain rfl : n.disk = disk := (Prod.mk.inj hread).2
      exact processIncomingFrame_effects _ _ _ _ _
  split
  · exact .done n
  split
  · exact .done n
  · exact .done n
  · exact processIncomingFrame_effects _ _ _ _ _

end Modes

/-- Keys, state path and the files other than these two stay, and the disk does not begin to fail. -/
structure Frame (n n' : Node) : Prop where
  keyTable : n'.keyTable = n.keyTable
  statePath : n'.statePath = n.statePath
  reliable : n'.disk.Reliable
  files : ∀ path, path ≠ n.statePath → path ≠ sentFramePath →
    n'.disk.files path = n.disk.files path

theorem Frame.trans {n n₁ n₂ : Node} (h : Frame n n₁) (h' : Frame n₁ n₂) : Frame n n₂ where
  keyTable := h'.keyTable.trans h.keyTable
  statePath := h'.statePath.trans h.statePath
  reliable := h'.reliable
  files path hp hs := (h'.files path (h.statePath ▸ hp) hs).trans (h.files path hp hs)

theorem frame_storeEntry {n : Node} (hd : n.disk.Reliable) (c : Channel) (e : CtrEntry) :
    Frame n (storeEntry n c e) where
  keyTable := rfl
  statePath := rfl
  reliable := by rw [storeEntry_reliable n c e hd, Disk.Reliable]
  files path hp _ := by
    rw [storeEntry_reliable n c e hd]
    exact Function.update_of_ne hp _ _

theorem frame_stored {n : Node} (hd : n.disk.Reliable) (wire : Bytes) :
    Frame n { n with disk := (n.disk.write sentFramePath wire).2 } where
  keyTable := rfl
  statePath := rfl
  reliable := by rw [Disk.write_reliable hd, Disk.Reliable]
  files path _ hs := by
    rw [Disk.write_reliable hd]
    exact Function.update_of_ne hs _ _

theorem Effects.frame {own : Fin 3} {n n' : Node} {frames : List SentFrame}
    (h : Effects own n frames n') (hd : n.disk.Reliable) : Frame n n' := by
  induction h with
  | done n => exact ⟨rfl, rfl, hd, fun _ _ _ => rfl⟩
  | received n c len hc rest ih =>
    have hstep := frame_storeEntry hd c (reserve (n.ctrTable c) (nextValue n c) len)
    exact hstep.trans (ih hstep.reliable)
  | sent n addr dir c hc hown pdu wire hlen rest ih =>
    have hstep := frame_storeEntry hd c (reserve (n.ctrTable c) (nextValue n c) (pdu.length + 3))
    exact hstep.trans (ih hstep.reliable)
  | stored n wire rest ih =>
    have hstep := frame_stored hd wire
    exact hstep.trans (ih hstep.reliable)

/-- Nothing moved since `n`, or the file is the table as it was written out. -/
def KeptOrWritten (file : Bytes) (n n' : Node) : Prop :=
  (n'.ctrTable = n.ctrTable ∧ n'.disk.files file = n.disk.files file) ∨
    n'.disk.files file = some (persistText n'.ctrTable)

theorem Effects.keptOrWritten {own : Fin 3} {n n' : Node} {frames : List SentFrame}
    (h : Effects own n frames n') (hd : n.disk.Reliable) (hpath : n.statePath ≠ sentFramePath) :
    KeptOrWritten n.statePath n n' := by
  have hstored : ∀ (n : Node) (c : Channel) (e : CtrEntry), n.disk.Reliable →
      (storeEntry n c e).disk.files n.statePath = some (persistText (storeEntry n c e).ctrTable) := by
    intro n c e hd
    rw [storeEntry_reliable n c e hd]
    exact Function.update_self ..
  have hlater : ∀ {n n₁ n' : Node}, n₁.disk.files n.statePath = some (persistText n₁.ctrTable) →
      KeptOrWritten n.statePath n₁ n' → KeptOrWritten n.statePath n n' := by
    rintro n n₁ n' hwritten (⟨htable, hfile⟩ | hwritten')
    · exact .inr (by rw [hfile, hwritten, htable])
    · exact .inr hwritten'
  induction h with
  | done n => exact .inl ⟨rfl, rfl⟩
  | received n c len hc rest ih =>
    exact hlater (hstored n c _ hd) (ih (frame_storeEntry hd c _).reliable hpath)
  | sent n addr dir c hc hown pdu wire hlen rest ih =>
    exact hlater (hstored n c _ hd) (ih (frame_storeEntry hd c _).reliable hpath)
  | stored n wire rest ih =>
    have hframe := frame_stored hd wire
    refine (ih hframe.reliable hpath).imp (fun ⟨htable, hfile⟩ => ⟨htable, ?_⟩) id
    rw [hfile, Disk.write_reliable hd]
    exact Function.update_of_ne hpath _ _

section Option
variable {P : Primitives} {p : Process}

/-- The entry of a channel in the file of the current mode. -/
def fileEntry (p : Process) (c : Channel) : Option CtrEntry :=
  (p.node.disk.files (statePathOf p.isMaster)).bind fun text => listed text c

/-- The node of an exchange behind its load. -/
def loaded (p : Process) : Node := (ctrStateLoad (ctrStateSetPath p.node (statePathOf p.isMaster))).2

theorem statePathOf_take (isMaster : Bool) : (statePathOf isMaster).take 511 = statePathOf isMaster := by
  cases isMaster <;> rfl

theorem statePathOf_ne_sent (isMaster : Bool) : statePathOf isMaster ≠ sentFramePath := by
  cases isMaster <;> decide

/-- Each mode has a file of its own. -/
theorem statePathOf_ne {a b : Bool} (h : a ≠ b) : statePathOf a ≠ statePathOf b := by
  cases a <;> cases b
  · exact absurd rfl h
  · decide
  · decide
  · exact absurd rfl h

theorem loaded_frame (hd : p.node.disk.Reliable) :
    Frame (ctrStateSetPath p.node (statePathOf p.isMaster)) (loaded p) ∧
      (loaded p).disk = p.node.disk := by
  have hpath : (ctrStateSetPath p.node (statePathOf p.isMaster)).disk.Reliable := hd
  rw [loaded, ctrStateLoad_reliable _ hpath]
  exact ⟨⟨rfl, rfl, hd, fun _ _ _ => rfl⟩, rfl⟩

theorem loaded_entry (hd : p.node.disk.Reliable) (c : Channel) :
    (loaded p).ctrTable c = (fileEntry p c).getD (p.node.ctrTable c) := by
  have hpath : (ctrStateSetPath p.node (statePathOf p.isMaster)).disk.Reliable := hd
  rw [loaded, ctrStateLoad_reliable _ hpath, fileEntry]
  simp only [ctrStateSetPath, statePathOf_take]
  cases p.node.disk.files (statePathOf p.isMaster) with
  | none => rfl
  | some text => exact loadText_apply text _ c

theorem doRunExchange_unloaded (hkeys : p.keysLoaded = false) (port : SerialPort) :
    doRunExchange P port p = ({}, p) := by
  simp [doRunExchange, hkeys]

theorem doRunExchange_master (hkeys : p.keysLoaded = true) (hmode : p.isMaster = true)
    (port : SerialPort) : doRunExchange P port p =
      ((runAsMaster P p.config port (loaded p)).1,
        { p with node := (runAsMaster P p.config port (loaded p)).2 }) := by
  simp [doRunExchange, hkeys, hmode, loaded]

theorem doRunExchange_slave (hkeys : p.keysLoaded = true) (hmode : p.isMaster = false)
    (port : SerialPort) : doRunExchange P port p =
      ((runAsSlave P p.config port (loaded p) p.tables).1,
        { p with
          node := (runAsSlave P p.config port (loaded p) p.tables).2.1
          tables := (runAsSlave P p.config port (loaded p) p.tables).2.2 }) := by
  simp [doRunExchange, hkeys, hmode, loaded]

/-- With keys, one exchange is the steps of its mode behind the load. -/
theorem doRunExchange_loaded_effects (hkeys : p.keysLoaded = true) (hd : p.node.disk.Reliable)
    (port : SerialPort) : Effects (if p.isMaster then 0 else 1) (loaded p)
      (doRunExchange P port p).1.sent.toList (doRunExchange P port p).2.node := by
  cases hmode : p.isMaster with
  | true =>
    rw [doRunExchange_master hkeys hmode]
    exact runAsMaster_effects _ _ _
  | false =>
    rw [doRunExchange_slave hkeys hmode]
    exact runAsSlave_effects _ _ (loaded_frame hd).1.reliable _

/-- One exchange is nothing, or the steps of its mode behind the load. -/
theorem doRunExchange_effects (hd : p.node.disk.Reliable) (port : SerialPort) :
    doRunExchange P port p = ({}, p) ∨
      Effects (if p.isMaster then 0 else 1) (loaded p) (doRunExchange P port p).1.sent.toList
        (doRunExchange P port p).2.node := by
  cases hkeys : p.keysLoaded with
  | false => exact .inl (doRunExchange_unloaded hkeys port)
  | true => exact .inr (doRunExchange_loaded_effects hkeys hd port)

/-- Mode, keys and configuration stay, and so do the tables while the master runs. -/
theorem doRunExchange_settings (port : SerialPort) :
    (doRunExchange P port p).2.isMaster = p.isMaster ∧
    (doRunExchange P port p).2.keysLoaded = p.keysLoaded ∧
    (doRunExchange P port p).2.config = p.config ∧
    (p.isMaster = true → (doRunExchange P port p).2.tables = p.tables) := by
  cases hkeys : p.keysLoaded with
  | false =>
    rw [doRunExchange_unloaded hkeys]
    exact ⟨rfl, hkeys, rfl, fun _ => rfl⟩
  | true =>
    cases hmode : p.isMaster with
    | true =>
      rw [doRunExchange_master hkeys hmode]
      exact ⟨hmode, hkeys, rfl, fun _ => rfl⟩
    | false =>
      rw [doRunExchange_slave hkeys hmode]
      exact ⟨hmode, hkeys, rfl, nofun⟩

/-- The key table and the files other than its own two outlive an exchange. -/
theorem doRunExchange_frame (hd : p.node.disk.Reliable) (port : SerialPort) :
    (doRunExchange P port p).2.node.keyTable = p.node.keyTable ∧
    (doRunExchange P port p).2.node.disk.Reliable ∧
    ∀ path, path ≠ statePathOf p.isMaster → path ≠ sentFramePath →
      (doRunExchange P port p).2.node.disk.files path = p.node.disk.files path := by
  obtain ⟨hload, hdisk⟩ := loaded_frame hd
  rcases doRunExchange_effects (P := P) hd port with hnone | hrun
  · rw [hnone]
    exact ⟨rfl, hd, fun _ _ _ => rfl⟩
  · have hframe := hrun.frame hload.reliable
    have hpath : (loaded p).statePath = statePathOf p.isMaster :=
      hload.statePath.trans (statePathOf_take _)
    refine ⟨hframe.keyTable.trans hload.keyTable, hframe.reliable, fun path hp hs => ?_⟩
    rw [hframe.files path (hpath ▸ hp) hs, hdisk]

theorem doRunExchange_argv0 (p : Process) (port : SerialPort) :
    (doRunExchange P port p).2.argv0 = p.argv0 := by
  cases hkeys : p.keysLoaded with
  | false => rw [doRunExchange_unloaded hkeys]
  | true =>
    cases hmode : p.isMaster with
    | true => rw [doRunExchange_master hkeys hmode]
    | false => rw [doRunExchange_slave hkeys hmode]

/-- With keys, an exchange leaves table and state file as the load left them, or persists. -/
theorem doRunExchange_keptOrWritten (hkeys : p.keysLoaded = true) (hd : p.node.disk.Reliable)
    (port : SerialPort) : KeptOrWritten (statePathOf p.isMaster) (loaded p)
      (doRunExchange P port p).2.node := by
  have hload := (loaded_frame hd).1
  have hpath : (loaded p).statePath = statePathOf p.isMaster :=
    hload.statePath.trans (statePathOf_take _)
  rw [← hpath]
  exact Effects.keptOrWritten (doRunExchange_loaded_effects (P := P) hkeys hd port) hload.reliable
    (hpath ▸ statePathOf_ne_sent _)

/-- Behind an exchange the state path is that of its mode. -/
theorem doRunExchange_statePath (hkeys : p.keysLoaded = true) (hd : p.node.disk.Reliable)
    (port : SerialPort) :
    (doRunExchange P port p).2.node.statePath = statePathOf p.isMaster := by
  have hload := (loaded_frame hd).1
  have hrun := (doRunExchange_loaded_effects (P := P) hkeys hd port).frame hload.reliable
  rw [hrun.statePath, hload.statePath, ctrStateSetPath, statePathOf_take]

/-- Behind an exchange the memory has what the state file lists. -/
theorem covers_doRunExchange (hkeys : p.keysLoaded = true) (hd : p.node.disk.Reliable)
    (port : SerialPort) : Covers (doRunExchange P port p).2.node := by
  have hkept := doRunExchange_keptOrWritten (P := P) hkeys hd port
  have hdisk := (loaded_frame hd).2
  intro c hrecorded
  rw [recorded, doRunExchange_statePath hkeys hd] at hrecorded
  rcases hkept with ⟨htable, hfile⟩ | hwritten
  · rw [hfile, hdisk, ← Option.bind_assoc] at hrecorded
    rw [htable, loaded_entry hd, fileEntry]
    generalize (p.node.disk.files (statePathOf p.isMaster)).bind (fun text => listed text c) = e at *
    cases e with
    | none => cases hrecorded
    | some e => exact hrecorded
  · rw [hwritten, Option.bind_some, listed_persistText] at hrecorded
    split at hrecorded
    · cases hrecorded
    · exact hrecorded

end Option
end ModbusSecurity.ExchangeEffects
