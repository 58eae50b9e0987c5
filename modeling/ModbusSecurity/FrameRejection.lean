import ModbusSecurity.SecureFraming

/-! # What a rejected frame leaves behind

The first four checks of the decoder and every failure of the encoder leave the process
as it was. The CRC check comes after the counter has moved. -/
namespace ModbusSecurity.FrameRejection
open ByteStrings CounterMode LeaOnline KeyStore CounterFile CounterState SecureFraming

/-- No rejection touches the counter table or the counter file. -/
def RejectionKeepsCounters (P : Primitives) : Prop :=
  (∀ n wire expected_addr dir,
    (secureFrameVerifyAndDecrypt P n wire expected_addr dir).1.status ≠ .ok →
      (secureFrameVerifyAndDecrypt P n wire expected_addr dir).2.ctrTable = n.ctrTable ∧
      (secureFrameVerifyAndDecrypt P n wire expected_addr dir).2.disk.files n.statePath =
        n.disk.files n.statePath) ∧
  ∀ n slave_addr pdu dir, (secureFrameEncryptAndBuild P n slave_addr pdu dir).1 = none →
    (secureFrameEncryptAndBuild P n slave_addr pdu dir).2.ctrTable = n.ctrTable ∧
    (secureFrameEncryptAndBuild P n slave_addr pdu dir).2.disk.files n.statePath =
      n.disk.files n.statePath

/-- `1234567890123456` and `abcdefghijklmnop`. -/
def sampleKeys : DirectionalKeys :=
  ⟨⟨[0x31, 0x32, 0x33, 0x34, 0x35, 0x36, 0x37, 0x38, 0x39, 0x30, 0x31, 0x32, 0x33, 0x34, 0x35, 0x36],
      rfl⟩,
    ⟨[0x61, 0x62, 0x63, 0x64, 0x65, 0x66, 0x67, 0x68, 0x69, 0x6A, 0x6B, 0x6C, 0x6D, 0x6E, 0x6F, 0x70],
      rfl⟩⟩

/-- A receiver that has accepted one block on every channel. -/
def sampleReceiver : Node :=
  { startProcess ⟨fun _ => none, []⟩ with
    keyTable := fun _ => ⟨true, sampleKeys, 0⟩
    ctrTable := fun _ => ⟨1, 1, 0, 0⟩ }

def readRequest : Bytes := [0x03, 0x00, 0x00, 0x00, 0x02]

private theorem replay_fails_crc : aduIntact (ctrMode 16
    (keyBlock (LeaCipher.leaEncrypt sampleKeys.encKey)) (1 : BitVec 32).toNat
    (ctrMode 16 (keyBlock (LeaCipher.leaEncrypt sampleKeys.encKey)) (0 : BitVec 32).toNat
      (plaintextAdu 1 readRequest))) = false := by
  decide +kernel

/-- The replay of the frame of counter 0 passes the HMAC and fails the CRC under counter 1. -/
private theorem replay_status (mac : KeyBytes → Bytes → Hmac) :
    let P := leaPrimitives mac
    let r := secureFrameVerifyAndDecrypt P sampleReceiver
      (secureFrameBuild (sealFrame P sampleKeys 1 0 readRequest)) 1 .masterToSlave
    r.1.status = .crc ∧ r.2 = storeEntry sampleReceiver (1, 0) (reserve ⟨1, 1, 0, 0⟩ 1 8) := by
  intro P r
  have hlen : readRequest.length ≤ maxPdu := by decide
  have hc : channelIndex 1 .masterToSlave = some (1, 0) := rfl
  have hkey : (sampleReceiver.keyTable (1, 0)).valid = true := rfl
  obtain ⟨hstatus, -, -, hnode⟩ :=
    verify_sealFrame_any (P := P) hlen hc hkey (.inl (rfl : (1 : Byte) = 1)) 0
  exact ⟨hstatus.trans (if_neg (Bool.eq_false_iff.mp replay_fails_crc)), hnode⟩

/-- With LEA and any MAC: the replay takes the counter of the channel away. -/
theorem replay_moves_counter : ¬ ∃ mac, RejectionKeepsCounters (leaPrimitives mac) := by
  rintro ⟨mac, h, -⟩
  obtain ⟨hcrc, hnode⟩ := replay_status mac
  have hkept := (h _ _ _ _ (by rw [hcrc]; decide)).1
  rw [hnode, storeEntry_ctrTable] at hkept
  have hentry := congrFun hkept (1, 0)
  rw [Function.update_self] at hentry
  exact absurd (congrArg CtrEntry.nextOut hentry) (by decide)

section Rejections
variable (P : Primitives) (n : Node)

theorem encrypt_failure_keeps_state (slave_addr : Byte) (pdu : Bytes) (dir : KeyDirection)
    (h : (secureFrameEncryptAndBuild P n slave_addr pdu dir).1 = none) :
    (secureFrameEncryptAndBuild P n slave_addr pdu dir).2 = n := by
  rcases secureFrameEncryptAndBuild_cases P n slave_addr pdu dir with hc | ⟨hlen, c, hc, hkey⟩
  · rw [hc]
  · rw [secureFrameEncryptAndBuild_eq hlen hc hkey] at h
    cases h

/-- Every call either keeps the whole process or is the reservation of one channel. -/
theorem verify_cases (wire : Bytes) (expected_addr : Byte) (dir : KeyDirection) :
    let r := secureFrameVerifyAndDecrypt P n wire expected_addr dir
    (r.1.status ≠ .ok ∧ r.1.status ≠ .crc ∧ r.2 = n) ∨
    ∃ frame c, secureFrameParse wire = some frame ∧ channelIndex frame.addr dir = some c ∧
      (n.keyTable c).valid = true ∧
      (r.1.status = .ok ∨ r.1.status = .crc) ∧ r.1.outAddr = some frame.addr ∧
      r.2 = storeEntry n c (reserve (n.ctrTable c) (nextValue n c) frame.ciphertext.length) := by
  intro r
  cases ha : authenticate P n.keyTable wire expected_addr dir with
  | error s =>
    obtain ⟨hok, hcrc, hs, -, hn⟩ := verify_of_error ha
    exact .inl ⟨hs ▸ hok, hs ▸ hcrc, hn⟩
  | ok f =>
    obtain ⟨frame, keys⟩ := f
    obtain ⟨hp, -, hk, -⟩ := authenticate_ok ha
    obtain ⟨c, hc, hvalid, -⟩ := keyStoreLookup_eq_some hk
    obtain ⟨hs, haddr, -, -, hn⟩ := verify_of_ok ha hc
    refine .inr ⟨frame, c, hp, hc, hvalid, ?_, haddr, hn⟩
    by_cases hadu : aduIntact (crypt P keys (nextValue n c) frame.ciphertext) = true
    · exact .inl (hs.trans (if_pos hadu))
    · exact .inr (hs.trans (if_neg hadu))

/-- After a rejection a channel still opens the frame it was waiting for, unless the
rejected frame was one of that channel with a CRC error. -/
theorem honest_frame_after_rejection {wire : Bytes} {expected_addr : Byte} {dir : KeyDirection}
    (hrej : (secureFrameVerifyAndDecrypt P n wire expected_addr dir).1.status ≠ .ok)
    {addr : Byte} {dir' : KeyDirection} {d : Channel} (hd : channelIndex addr dir' = some d)
    (hkey : (n.keyTable d).valid = true)
    (hother : (secureFrameVerifyAndDecrypt P n wire expected_addr dir).1.status = .crc →
      ¬ ((secureFrameVerifyAndDecrypt P n wire expected_addr dir).1.outAddr = some addr ∧
        dir = dir'))
    {pdu : Bytes} (hlen : pdu.length ≤ maxPdu) {expected : Byte}
    (hex : expected = addr ∨ expected = anyAddr) :
    let wire' := secureFrameBuild (sealFrame P (n.keyTable d).keys addr (nextValue n d) pdu)
    let r := secureFrameVerifyAndDecrypt P
      (secureFrameVerifyAndDecrypt P n wire expected_addr dir).2 wire' expected dir'
    r.1.status = .ok ∧ r.1.outPdu = some pdu := by
  rcases verify_cases P n wire expected_addr dir with
    ⟨-, -, hn⟩ | ⟨frame, c, -, hc, -, hs, ha, hn⟩
  · obtain ⟨hok, -, hpdu, -⟩ := verify_sealFrame (P := P) hlen hd hkey hex
    rw [hn]
    exact ⟨hok, hpdu⟩
  · have hcrc := hs.resolve_left hrej
    have hdc : d ≠ c := by
      rintro rfl
      obtain ⟨rfl, rfl⟩ := channelIndex_injective hc hd
      exact hother hcrc ⟨ha, rfl⟩
    have hnext := nextValue_storeEntry_ne n hdc
      (reserve (n.ctrTable c) (nextValue n c) frame.ciphertext.length)
    rw [hn, ← hnext]
    obtain ⟨hok, -, hpdu, -⟩ := verify_sealFrame (P := P)
      (n := storeEntry n c (reserve (n.ctrTable c) (nextValue n c) frame.ciphertext.length))
      hlen hd hkey hex
    exact ⟨hok, hpdu⟩

/-- Failed encryptions and all rejections before the CRC keep the process as it was; a CRC
error takes the frame's blocks from its own channel and touches nothing else, so every
other channel still accepts its next honest frame. -/
theorem rejection_keeps_state :
    (∀ slave_addr pdu dir, (secureFrameEncryptAndBuild P n slave_addr pdu dir).1 = none →
      (secureFrameEncryptAndBuild P n slave_addr pdu dir).2 = n) ∧
    ∀ wire expected_addr dir,
      let r := secureFrameVerifyAndDecrypt P n wire expected_addr dir
      r.1.status ≠ .ok →
        (r.1.status ≠ .crc → r.2 = n) ∧
        (r.1.status = .crc → ∃ frame c, secureFrameParse wire = some frame ∧
          channelIndex frame.addr dir = some c ∧
          r.2 = storeEntry n c
            (reserve (n.ctrTable c) (nextValue n c) frame.ciphertext.length)) ∧
        ∀ addr dir' d pdu, channelIndex addr dir' = some d → (n.keyTable d).valid = true →
          (r.1.status = .crc → ¬ (r.1.outAddr = some addr ∧ dir = dir')) →
          pdu.length ≤ maxPdu → ∀ expected, (expected = addr ∨ expected = anyAddr) →
          let wire' := secureFrameBuild (sealFrame P (n.keyTable d).keys addr (nextValue n d) pdu)
          let r' := secureFrameVerifyAndDecrypt P r.2 wire' expected dir'
          r'.1.status = .ok ∧ r'.1.outPdu = some pdu := by
  refine ⟨encrypt_failure_keeps_state P n, ?_⟩
  intro wire expected_addr dir r hrej
  refine ⟨?_, ?_, ?_⟩
  · intro hcrc
    rcases verify_cases P n wire expected_addr dir with ⟨-, -, hn⟩ | ⟨_, _, -, -, -, hs, -⟩
    · exact hn
    · exact absurd (hs.resolve_left hrej) hcrc
  · intro hcrc
    rcases verify_cases P n wire expected_addr dir with ⟨-, hs, -⟩ | ⟨frame, c, hp, hc, -, -, -, hn⟩
    · exact absurd hcrc hs
    · exact ⟨frame, c, hp, hc, hn⟩
  · intro addr dir' d pdu hd hkey hother hlen expected hex
    exact honest_frame_after_rejection P n hrej hd hkey hother hlen hex

end Rejections

/-- The replay on one channel, and the next frame on another one. -/
theorem rejection_keeps_state_replay :
    let P := leaPrimitives fun _ _ => ⟨List.replicate 32 0, rfl⟩
    let replay := secureFrameBuild (sealFrame P sampleKeys 1 0 readRequest)
    let next := secureFrameBuild (sealFrame P sampleKeys 1 1 readRequest)
    let r := secureFrameVerifyAndDecrypt P
      (secureFrameVerifyAndDecrypt P sampleReceiver replay 1 .masterToSlave).2 next 1 .slaveToMaster
    r.1.status = .ok ∧ r.1.outPdu = some readRequest := by
  intro P replay next r
  obtain ⟨hcrc, -⟩ := replay_status fun _ _ => ⟨List.replicate 32 0, rfl⟩
  have hrej : (secureFrameVerifyAndDecrypt P sampleReceiver replay 1 .masterToSlave).1.status ≠ .ok := by
    rw [hcrc]
    decide
  clear_value P
  have hs2m : channelIndex 1 .slaveToMaster = some (1, 1) := rfl
  have hkey : sampleReceiver.keyTable (1, 1) = ⟨true, sampleKeys, 0⟩ := rfl
  have hv : nextValue sampleReceiver (1, 1) = 1 := rfl
  have hnext := ((rejection_keeps_state P sampleReceiver).2 replay 1 .masterToSlave hrej).2.2 1
    .slaveToMaster (1, 1) readRequest hs2m (by rw [hkey]) (fun _ h => by cases h.2) (by decide) 1
    (.inl rfl)
  rw [hkey, hv] at hnext
  exact hnext

end ModbusSecurity.FrameRejection
