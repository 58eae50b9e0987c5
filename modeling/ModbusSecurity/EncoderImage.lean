import ModbusSecurity.FrameLengths

/-! # Frames that the encoder would have sent

What the decoder accepts, encoded again from the same state. The address travels twice in a
frame, and only the copy in clear is looked at. -/
namespace ModbusSecurity.EncoderImage
open ByteStrings KeyStore CounterState SecureFraming FrameRejection FrameLengths

/-- Encoding what was decoded brings the same bytes and the same state. -/
def Reencodes (P : Primitives) (n : Node) (wire : Bytes) (expected_addr : Byte) (dir : KeyDirection) :
    Prop :=
  (secureFrameVerifyAndDecrypt P n wire expected_addr dir).1.status = .ok →
    ∃ a p result, (secureFrameVerifyAndDecrypt P n wire expected_addr dir).1.outAddr = some a ∧
      (secureFrameVerifyAndDecrypt P n wire expected_addr dir).1.outPdu = some p ∧
      secureFrameEncryptAndBuild P n a p dir =
        (some result, (secureFrameVerifyAndDecrypt P n wire expected_addr dir).2) ∧
      result.wire = wire

/-- A frame that a holder of the channel's keys has sealed, under the next counter, around
the ADU of another address. -/
def CarriesOtherAddress (P : Primitives) (n : Node) (wire : Bytes) (expected_addr : Byte)
    (dir : KeyDirection) : Prop :=
  ∃ addr inner c pdu, inner ≠ addr ∧ pdu.length ≤ maxPdu ∧
    (expected_addr = addr ∨ expected_addr = anyAddr) ∧ channelIndex addr dir = some c ∧
    (n.keyTable c).valid = true ∧
    let keys := (n.keyTable c).keys
    let ciphertext := crypt P keys (nextValue n c) (plaintextAdu inner pdu)
    wire = secureFrameBuild ⟨addr, ciphertext, P.hmacLsh256 keys.macKey (addr :: ciphertext)⟩

/-- An ADU that passes the CRC check is the one of some address and PDU. -/
theorem plaintextAdu_of_intact {adu : Bytes} (hlen : 3 ≤ adu.length) (h : aduIntact adu = true) :
    ∃ inner pdu, adu = plaintextAdu inner pdu := by
  obtain ⟨inner, rest, rfl⟩ := List.exists_cons_of_length_pos (show 0 < adu.length by omega)
  simp only [List.length_cons] at hlen
  have hdrop : (rest.drop (rest.length - 2)).length = 2 := by
    rw [List.length_drop]
    omega
  obtain ⟨low, high, hcrc⟩ := List.length_eq_two.mp hdrop
  obtain ⟨pdu, rfl⟩ : ∃ pdu, rest = pdu ++ [low, high] :=
    ⟨_, by rw [← hcrc, List.take_append_drop]⟩
  refine ⟨inner, pdu, ?_⟩
  have hcalc : secureFrameCrc16 (inner :: pdu) = low.setWidth 16 ||| high.setWidth 16 <<< 8 := by
    simpa [aduIntact, crcLen, crcCalc, crcRecv, List.getD_eq_getElem?_getD] using h
  obtain ⟨hlow, hhigh⟩ := crc_of_bytes low high
  simp only [plaintextAdu, hcalc, hlow, hhigh]

section Accepted
variable {P : Primitives} {n : Node} {addr expected_addr : Byte} {dir : KeyDirection} {c : Channel}
  {pdu : Bytes}

/-- The decoder opens a sealed ADU of any address, as a frame of the outer one. -/
theorem verify_inner (inner : Byte) (hlen : pdu.length ≤ maxPdu)
    (hex : expected_addr = addr ∨ expected_addr = anyAddr) (hc : channelIndex addr dir = some c)
    (hkey : (n.keyTable c).valid = true) :
    let keys := (n.keyTable c).keys
    let ciphertext := crypt P keys (nextValue n c) (plaintextAdu inner pdu)
    let r := secureFrameVerifyAndDecrypt P n
      (secureFrameBuild ⟨addr, ciphertext, P.hmacLsh256 keys.macKey (addr :: ciphertext)⟩)
      expected_addr dir
    r.1.status = .ok ∧ r.1.outAddr = some addr ∧ r.1.outPdu = some pdu ∧
      r.2 = storeEntry n c (reserve (n.ctrTable c) (nextValue n c) (pdu.length + 3)) := by
  intro keys ciphertext r
  have hct : ciphertext.length = pdu.length + 3 := by
    rw [length_crypt, length_plaintextAdu]
  have hfits : ciphertext.length ≤ maxAdu := by
    simp only [maxPdu] at hlen
    simp only [hct, maxAdu, addrLen, maxPdu, crcLen]
    omega
  have ha := authenticate_build (P := P) hfits hc hkey hex
  obtain ⟨hstatus, haddr, hpdu, -, hn⟩ := verify_of_ok ha hc
  have hadu : crypt P keys (nextValue n c) ciphertext = plaintextAdu inner pdu := crypt_crypt ..
  rw [hadu, aduIntact_plaintextAdu, if_pos rfl] at hstatus
  rw [hadu, hct, pduLength_add _ hlen] at hpdu
  refine ⟨hstatus, haddr, ?_, hct ▸ hn⟩
  rw [(hpdu hstatus).2]
  simp [plaintextAdu, addrLen]

/-- The encoder brings the frame back exactly if the ADU has the frame's own address. -/
theorem reencodes_inner (inner : Byte) (hlen : pdu.length ≤ maxPdu)
    (hex : expected_addr = addr ∨ expected_addr = anyAddr) (hc : channelIndex addr dir = some c)
    (hkey : (n.keyTable c).valid = true) :
    let keys := (n.keyTable c).keys
    let ciphertext := crypt P keys (nextValue n c) (plaintextAdu inner pdu)
    Reencodes P n
      (secureFrameBuild ⟨addr, ciphertext, P.hmacLsh256 keys.macKey (addr :: ciphertext)⟩)
      expected_addr dir ↔ inner = addr := by
  intro keys ciphertext
  obtain ⟨hok, haddr, hpdu, hn⟩ := verify_inner (P := P) inner hlen hex hc hkey
  have hsend := secureFrameEncryptAndBuild_eq (P := P) (n := n) hlen hc hkey
  constructor
  · intro h
    obtain ⟨a, p, result, ha, hp, hresult, hwire⟩ := h hok
    obtain rfl := Option.some.inj (haddr.symm.trans ha)
    obtain rfl := Option.some.inj (hpdu.symm.trans hp)
    rw [hsend] at hresult
    obtain rfl := Option.some.inj (Prod.mk.inj hresult).1
    have hparse := congrArg secureFrameParse hwire
    have hfits : (plaintextAdu inner pdu).length ≤ maxAdu := by
      simp only [maxPdu] at hlen
      simp only [length_plaintextAdu, maxAdu, addrLen, maxPdu, crcLen]
      omega
    rw [parse_build _ (by simpa [sealFrame] using hfits), parse_build _ (by simpa [ciphertext] using hfits)]
      at hparse
    have hct := congrArg SecureFrame.ciphertext (Option.some.inj hparse)
    have hadu := congrArg (crypt P keys (nextValue n c)) hct
    simp only [sealFrame, ciphertext, keys, crypt_crypt] at hadu
    exact (List.cons.inj hadu).1.symm
  · rintro rfl
    exact fun _ => ⟨inner, pdu, _, haddr, hpdu, hn ▸ hsend, rfl⟩

end Accepted

/-- The decoder accepts only what the encoder sends, exactly where no frame carries the ADU
of another address. -/
theorem reencodes_iff (P : Primitives) (n : Node) (wire : Bytes) (expected_addr : Byte)
    (dir : KeyDirection) (hlen : addrLen + 3 + hmacLen ≤ wire.length) :
    Reencodes P n wire expected_addr dir ↔ ¬ CarriesOtherAddress P n wire expected_addr dir := by
  constructor
  · rintro h ⟨addr, inner, c, pdu, hne, hfits, hex, hc, hkey, rfl⟩
    exact hne ((reencodes_inner inner hfits hex hc hkey).mp h)
  · intro h hok
    obtain ⟨frame, c, hex, hc, hkey, hwire, hle, hmac, hadu, -⟩ := accepted_frame hok
    have hlong := congrArg List.length hwire
    simp only [secureFrameBuild, List.length_cons, List.length_append, frame.hmac.property] at hlong
    have hthree : 3 ≤ (crypt P (n.keyTable c).keys (nextValue n c) frame.ciphertext).length := by
      rw [length_crypt]
      simp only [addrLen] at hlen
      omega
    obtain ⟨inner, pdu, hplain⟩ := plaintextAdu_of_intact hthree hadu
    have hct := congrArg (crypt P (n.keyTable c).keys (nextValue n c)) hplain
    rw [crypt_crypt] at hct
    have hfits : pdu.length ≤ maxPdu := by
      have hsame := congrArg List.length hct
      simp only [length_crypt, length_plaintextAdu] at hsame
      simp only [maxAdu, addrLen, maxPdu, crcLen] at hle ⊢
      omega
    have hbuilt : wire = secureFrameBuild ⟨frame.addr,
        crypt P (n.keyTable c).keys (nextValue n c) (plaintextAdu inner pdu),
        P.hmacLsh256 (n.keyTable c).keys.macKey
          (frame.addr :: crypt P (n.keyTable c).keys (nextValue n c) (plaintextAdu inner pdu))⟩ := by
      simp only [← hct, ← hmac]
      exact hwire
    by_cases hsame : inner = frame.addr
    · have hback := (reencodes_inner (P := P) inner hfits hex hc hkey).mpr hsame
      rw [← hbuilt] at hback
      exact hback hok
    · exact absurd ⟨frame.addr, inner, c, pdu, hsame, hfits, hex, hc, hkey, hbuilt⟩ h

/-- A frame of address 1 around an ADU of address 2. -/
def misaddressed (P : Primitives) : Bytes :=
  let ciphertext := crypt P sampleKeys (nextValue sampleReceiver (1, 0)) (plaintextAdu 2 readRequest)
  secureFrameBuild ⟨1, ciphertext, P.hmacLsh256 sampleKeys.macKey (1 :: ciphertext)⟩

theorem length_misaddressed (P : Primitives) : (misaddressed P).length = 41 := by
  have hmac := (P.hmacLsh256 sampleKeys.macKey
    (1 :: crypt P sampleKeys (nextValue sampleReceiver (1, 0)) (plaintextAdu 2 readRequest))).property
  have hpdu : readRequest.length = 5 := rfl
  simp only [misaddressed, secureFrameBuild, List.length_cons, List.length_append, hmac, hmacLen,
    length_crypt, length_plaintextAdu, hpdu]

theorem reencodes_iff_misaddressed :
    let P := leaPrimitives fun _ _ => ⟨List.replicate 32 0, rfl⟩
    ¬ Reencodes P sampleReceiver (misaddressed P) 1 .masterToSlave := by
  intro P h
  have hlen : addrLen + 3 + hmacLen ≤ (misaddressed P).length := by
    rw [length_misaddressed]
    decide
  exact (reencodes_iff P sampleReceiver (misaddressed P) 1 .masterToSlave hlen).mp h
    ⟨1, 2, (1, 0), readRequest, by decide, by decide, .inl rfl, rfl, rfl, rfl⟩

/-- With LEA and any MAC: the frame is accepted as one of address 1. -/
theorem misaddressed_accepted : ¬ ∃ mac, ∀ n wire expected_addr dir,
    addrLen + 3 + hmacLen ≤ wire.length →
      Reencodes (leaPrimitives mac) n wire expected_addr dir := by
  rintro ⟨mac, h⟩
  let P := leaPrimitives mac
  have hfits : readRequest.length ≤ maxPdu := by decide
  have hlen : addrLen + 3 + hmacLen ≤ (misaddressed P).length := by
    rw [length_misaddressed]
    decide
  have hsame := (reencodes_inner (P := P) (n := sampleReceiver) 2 hfits
    (.inl (rfl : (1 : Byte) = 1)) (rfl : channelIndex 1 .masterToSlave = some (1, 0)) rfl).mp
    (h _ (misaddressed P) 1 _ hlen)
  exact absurd hsame (by decide)

end ModbusSecurity.EncoderImage
