import ModbusSecurity.ExchangeEffects

/-! # What the self-test and the key options do to a process

The self-test writes entries of its own address only, but it writes the whole table out. -/
namespace ModbusSecurity.SelfTestEffects
open ByteStrings KeyStore CounterFile CounterState SecureFraming FrameRejection SecureDemo
open ExchangeEffects

/-- Only entries of the self-test's address and the state file may differ. -/
structure TestOnly (n n' : Node) : Prop where
  statePath : n'.statePath = n.statePath
  reliable : n'.disk.Reliable
  table : ∀ c, channelAddr c ≠ selfTestAddr → n'.ctrTable c = n.ctrTable c
  files : ∀ path, path ≠ n.statePath → n'.disk.files path = n.disk.files path

/-- The state file is the table as it was written out. -/
def Written (n : Node) : Prop := n.disk.files n.statePath = some (persistText n.ctrTable)

theorem TestOnly.trans {n n₁ n₂ : Node} (h : TestOnly n n₁) (h' : TestOnly n₁ n₂) : TestOnly n n₂ where
  statePath := h'.statePath.trans h.statePath
  reliable := h'.reliable
  table c hc := (h'.table c hc).trans (h.table c hc)
  files path hp := (h'.files path (h.statePath ▸ hp)).trans (h.files path hp)

section Steps
variable {P : Primitives} {n : Node}

theorem testOnly_storeEntry (hd : n.disk.Reliable) {c : Channel} (hc : channelAddr c = selfTestAddr)
    (e : CtrEntry) : TestOnly n (storeEntry n c e) ∧ Written (storeEntry n c e) := by
  have hframe := frame_storeEntry hd c e
  refine ⟨⟨rfl, hframe.reliable, fun d hdc => ?_, fun path hp => ?_⟩, ?_⟩
  · have hne : d ≠ c := by
      rintro rfl
      exact hdc hc
    rw [storeEntry_ctrTable, Function.update_of_ne hne]
  · rw [storeEntry_reliable n c e hd]
    exact Function.update_of_ne hp _ _
  · rw [Written, storeEntry_reliable n c e hd]
    exact Function.update_self ..

theorem testOnly_keyTable (hd : n.disk.Reliable) (keyTable : KeyTable) :
    TestOnly n { n with keyTable := keyTable } :=
  ⟨rfl, hd, fun _ _ => rfl, fun _ _ => rfl⟩

theorem testOnly_reset (hd : n.disk.Reliable) {dir : KeyDirection} {c : Channel}
    (hc : channelIndex selfTestAddr dir = some c) :
    TestOnly n (ctrStateReset n selfTestAddr dir) ∧ Written (ctrStateReset n selfTestAddr dir) := by
  rw [ctrStateReset_eq hc]
  exact testOnly_storeEntry hd (channelAddr_of_channelIndex hc) _

theorem testOnly_encrypt (hd : n.disk.Reliable) (hw : Written n) (pdu : Bytes) (dir : KeyDirection) :
    TestOnly n (secureFrameEncryptAndBuild P n selfTestAddr pdu dir).2 ∧
      Written (secureFrameEncryptAndBuild P n selfTestAddr pdu dir).2 := by
  rcases secureFrameEncryptAndBuild_cases P n selfTestAddr pdu dir with h | ⟨hlen, c, hc, hkey⟩
  · rw [h]
    exact ⟨testOnly_keyTable hd n.keyTable, hw⟩
  · rw [secureFrameEncryptAndBuild_eq hlen hc hkey]
    exact testOnly_storeEntry hd (channelAddr_of_channelIndex hc) _

theorem testOnly_verify (hd : n.disk.Reliable) (hw : Written n) (wire : Bytes) (dir : KeyDirection) :
    TestOnly n (secureFrameVerifyAndDecrypt P n wire selfTestAddr dir).2 ∧
      Written (secureFrameVerifyAndDecrypt P n wire selfTestAddr dir).2 := by
  cases ha : authenticate P n.keyTable wire selfTestAddr dir with
  | error s =>
    rw [(verify_of_error ha).2.2.2.2]
    exact ⟨testOnly_keyTable hd n.keyTable, hw⟩
  | ok f =>
    obtain ⟨frame, keys⟩ := f
    obtain ⟨-, hex, hk, -⟩ := authenticate_ok ha
    obtain ⟨c, hc, -, -⟩ := keyStoreLookup_eq_some hk
    have haddr : frame.addr = selfTestAddr := hex.resolve_left (by decide)
    rw [(verify_of_ok ha hc).2.2.2.2]
    exact testOnly_storeEntry hd ((channelAddr_of_channelIndex hc).trans haddr) _

theorem encryptPathCheck_effects (hd : n.disk.Reliable) :
    TestOnly n (encryptPathCheck P n).2.2 ∧ Written (encryptPathCheck P n).2.2 := by
  obtain ⟨hreset, hw⟩ := testOnly_reset hd (show channelIndex selfTestAddr .masterToSlave = _ from rfl)
  unfold encryptPathCheck
  simp only
  split
  · exact ⟨hreset, hw⟩
  · rename_i keyTable _
    have hkeys := testOnly_keyTable hreset.reliable keyTable
    obtain ⟨hrun, hw'⟩ := testOnly_encrypt (P := P) hkeys.reliable hw
      [0x03, 0x00, 0x00, 0x00, 0x02] .masterToSlave
    have hall := (hreset.trans hkeys).trans hrun
    split
    · rename_i h
      rw [h] at hall hw'
      exact ⟨hall, hw'⟩
    · rename_i h
      rw [h] at hall hw'
      split
      · exact ⟨hall, hw'⟩
      · exact ⟨hall, hw'⟩

theorem decryptPathCheck_effects (hd : n.disk.Reliable) :
    TestOnly n (decryptPathCheck P n).2 ∧ Written (decryptPathCheck P n).2 := by
  obtain ⟨hreset, hw⟩ := testOnly_reset hd (show channelIndex selfTestAddr .slaveToMaster = _ from rfl)
  unfold decryptPathCheck
  simp only
  generalize secureFrameBuild _ = wire
  split
  · exact ⟨hreset, hw⟩
  · rename_i keyTable _
    have hkeys := testOnly_keyTable hreset.reliable keyTable
    obtain ⟨hrun, hw'⟩ := testOnly_verify (P := P) hkeys.reliable hw wire .slaveToMaster
    exact ⟨(hreset.trans hkeys).trans hrun, hw'⟩

/-- The self-test leaves the counters of all other addresses, and a file of the whole table. -/
theorem doSelfTest_effects (p : Process) (hd : p.node.disk.Reliable) :
    TestOnly p.node (doSelfTest P p).2.2.node ∧ Written (doSelfTest P p).2.2.node := by
  obtain ⟨henc, -⟩ := encryptPathCheck_effects (P := P) hd
  obtain ⟨hdec, hw⟩ := decryptPathCheck_effects (P := P) henc.reliable
  unfold doSelfTest
  simp only
  exact ⟨henc.trans hdec, hw⟩

/-! Keys are provisioned for its own address only. -/

theorem provision_keys {keyTable keyTable' : KeyTable} {dir : KeyDirection} {keys : DirectionalKeys}
    (h : keyStoreProvision keyTable selfTestAddr dir keys = some keyTable') {c : Channel}
    (hc : channelAddr c ≠ selfTestAddr) : keyTable' c = keyTable c := by
  obtain ⟨d, hd, rfl⟩ := Option.map_eq_some_iff.mp h
  refine Function.update_of_ne (fun hcd => hc ?_) _ _
  rw [hcd, channelAddr_of_channelIndex hd]

theorem reset_keyTable (dir : KeyDirection) :
    (ctrStateReset n selfTestAddr dir).keyTable = n.keyTable := by
  cases hc : channelIndex selfTestAddr dir with
  | none => simp only [ctrStateReset, hc]
  | some c => rw [ctrStateReset_eq hc, storeEntry_keyTable]

theorem encrypt_keyTable (addr : Byte) (pdu : Bytes) (dir : KeyDirection) :
    (secureFrameEncryptAndBuild P n addr pdu dir).2.keyTable = n.keyTable := by
  rcases secureFrameEncryptAndBuild_cases P n addr pdu dir with h | ⟨hlen, c, hc, hkey⟩
  · rw [h]
  · rw [secureFrameEncryptAndBuild_eq hlen hc hkey, storeEntry_keyTable]

theorem verify_keyTable (wire : Bytes) (expected_addr : Byte) (dir : KeyDirection) :
    (secureFrameVerifyAndDecrypt P n wire expected_addr dir).2.keyTable = n.keyTable := by
  rcases verify_cases P n wire expected_addr dir with ⟨-, -, hn⟩ | ⟨_, _, -, -, -, -, -, hn⟩
  · rw [hn]
  · rw [hn, storeEntry_keyTable]

theorem encryptPathCheck_keys {c : Channel} (hc : channelAddr c ≠ selfTestAddr) :
    (encryptPathCheck P n).2.2.keyTable c = n.keyTable c := by
  have hreset := reset_keyTable (n := n) .masterToSlave
  unfold encryptPathCheck
  simp only
  split
  · rw [hreset]
  · rename_i keyTable hprovision
    have hkeys : keyTable c = n.keyTable c := by rw [provision_keys hprovision hc, hreset]
    have hrun := encrypt_keyTable (P := P)
      (n := { ctrStateReset n selfTestAddr .masterToSlave with keyTable := keyTable }) selfTestAddr
      [0x03, 0x00, 0x00, 0x00, 0x02] .masterToSlave
    split
    · rename_i h
      rw [h] at hrun
      exact (congrFun hrun c).trans hkeys
    · rename_i h
      rw [h] at hrun
      split <;> exact (congrFun hrun c).trans hkeys

theorem decryptPathCheck_keys {c : Channel} (hc : channelAddr c ≠ selfTestAddr) :
    (decryptPathCheck P n).2.keyTable c = n.keyTable c := by
  have hreset := reset_keyTable (n := n) .slaveToMaster
  unfold decryptPathCheck
  simp only
  generalize secureFrameBuild _ = wire
  split
  · rw [hreset]
  · rename_i keyTable hprovision
    have hkeys : keyTable c = n.keyTable c := by rw [provision_keys hprovision hc, hreset]
    rw [verify_keyTable]
    exact hkeys

theorem doSelfTest_keys (p : Process) {c : Channel} (hc : channelAddr c ≠ selfTestAddr) :
    (doSelfTest P p).2.2.node.keyTable c = p.node.keyTable c := by
  unfold doSelfTest
  simp only
  rw [decryptPathCheck_keys hc, encryptPathCheck_keys hc]

end Steps

/-- A file without entries. -/
theorem keyStoreLoadFile_none {t : KeyTable} {file : Option Bytes}
    (h : (keyStoreLoadFile t file).1.getD 0 = 0) : (keyStoreLoadFile t file).2 = t := by
  cases file with
  | none => rfl
  | some text =>
    have hentries : keyFileEntries text = [] := List.length_eq_zero_iff.mp h
    simp only [keyStoreLoadFile, hentries, List.foldl_nil]

theorem loadFirst_miss {n : Node} (hd : n.disk.Reliable) {path : Bytes} {rest : List Bytes}
    (hrest : rest ≠ []) (h : (keyStoreLoadFile n.keyTable (n.disk.files path)).1.getD 0 = 0) :
    loadFirst n (path :: rest) = loadFirst n rest := by
  rw [loadFirst, Disk.read_reliable hd]
  simp only [h, keyStoreLoadFile_none h, Nat.lt_irrefl, hrest, or_self, if_false]

theorem loadFirst_hit {n : Node} (hd : n.disk.Reliable) {path : Bytes} {rest : List Bytes}
    (h : 0 < (keyStoreLoadFile n.keyTable (n.disk.files path)).1.getD 0) :
    loadFirst n (path :: rest) = ((keyStoreLoadFile n.keyTable (n.disk.files path)).1,
      { n with keyTable := (keyStoreLoadFile n.keyTable (n.disk.files path)).2 }) := by
  rw [loadFirst, Disk.read_reliable hd]
  simp only [h, true_or, if_true]

theorem loadFirst_frame (n : Node) (hd : n.disk.Reliable) (paths : List Bytes) :
    ∃ keyTable, (loadFirst n paths).2 = { n with keyTable := keyTable } := by
  induction paths generalizing n with
  | nil => exact ⟨n.keyTable, rfl⟩
  | cons path rest ih =>
    rw [loadFirst, Disk.read_reliable hd]
    simp only
    split
    · exact ⟨_, rfl⟩
    · obtain ⟨keyTable, h⟩ := ih { n with
        keyTable := (keyStoreLoadFile n.keyTable (n.disk.files path)).2 } hd
      exact ⟨keyTable, h⟩

/-- Loading keys changes nothing but the keys. -/
theorem doKeyInit_frame (p : Process) (hd : p.node.disk.Reliable) :
    ∃ keyTable, (doKeyInit p).node = { p.node with keyTable := keyTable } ∧
      (doKeyInit p).isMaster = p.isMaster :=
  let ⟨keyTable, h⟩ := loadFirst_frame p.node hd (keyPaths p.argv0)
  ⟨keyTable, h, rfl⟩

end ModbusSecurity.SelfTestEffects
