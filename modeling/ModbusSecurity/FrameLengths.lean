import ModbusSecurity.AccessTraces
import ModbusSecurity.FrameRejection

/-! # Lengths in the decoder

`secure_frame_verify_and_decrypt` again, as a program that reports its subtractions in
`size_t` and its accesses to buffers. -/
namespace ModbusSecurity.FrameLengths
open ByteStrings CounterMode LeaOnline KeyStore CounterState SecureFraming FrameRejection AccessTraces

inductive Event where
  | sub (minuend subtrahend : ℕ)
  /-- An access to `count` bytes of a buffer of `size`, from `pos` on. -/
  | access (size pos count : ℕ)

/-- The subtraction does not wrap, and the access stays within its buffer. -/
def Event.InRange : Event → Prop
  | .sub minuend subtrahend => subtrahend ≤ minuend
  | .access size pos count => pos + count ≤ size

abbrev Decoder := Program Event Node

/-- A subtraction of two values of type `size_t`. -/
def sizeSub (minuend subtrahend : ℕ) : Decoder ℕ := do
  Program.report (.sub minuend subtrahend)
  return if subtrahend ≤ minuend then minuend - subtrahend else 2 ^ 64 + minuend - subtrahend

/-- `memcpy` of `count` bytes from one buffer to another. -/
def memcpy (dstSize dstPos srcSize srcPos count : ℕ) : Decoder Unit := do
  Program.report (.access srcSize srcPos count)
  Program.report (.access dstSize dstPos count)

def parseSteps (inp : Bytes) : Decoder (Option SecureFrame) := do
  if inp.length < addrLen + hmacLen then return none
  else
    let ciphertextLen ← sizeSub inp.length (addrLen + hmacLen)
    if ciphertextLen > maxAdu then return none
    else
      Program.report (.access inp.length 0 1)
      memcpy maxAdu 0 inp.length addrLen ciphertextLen
      memcpy hmacLen 0 inp.length (addrLen + ciphertextLen) hmacLen
      return secureFrameParse inp

/-- Behind the HMAC: the counter, the keystream and the CRC. -/
def openSteps (P : Primitives) (frame : SecureFrame) (keys : DirectionalKeys) (dir : KeyDirection) :
    Decoder VerifyResult := do
  let len := frame.ciphertext.length
  let parsed : VerifyResult :=
    { status := .crc, outAddr := some frame.addr, outCiphertextLen := some len }
  let n ← Program.state
  let (ctrLow, n) := ctrStateNextOutgoing n frame.addr dir len
  Program.update fun _ => n
  memcpy maxAdu 0 maxAdu 0 len
  let crypt := leaCtrCrypt (fun b => P.leaEncrypt keys.encKey b) ctrHigh ctrLow false
    frame.ciphertext
  let parsed := { parsed with used := crypt.used }
  if len < crcLen then return parsed
  else
    let covered ← sizeSub len crcLen
    Program.report (.access maxAdu 0 covered)
    let low ← sizeSub len 2
    Program.report (.access maxAdu low 1)
    let high ← sizeSub len 1
    Program.report (.access maxAdu high 1)
    let checked := { parsed with
      outCrcCalc := some (crcCalc crypt.out)
      outCrcRecv := some (crcRecv crypt.out) }
    if crcCalc crypt.out ≠ crcRecv crypt.out then return checked
    else
      let withCrc ← sizeSub len addrLen
      let pduLen ← sizeSub withCrc crcLen
      memcpy maxPdu 0 maxAdu addrLen pduLen
      return { checked with
        status := .ok
        outPdu := some ((crypt.out.drop addrLen).take pduLen)
        outPduLen := some pduLen }

def verifySteps (P : Primitives) (wire : Bytes) (expected_addr : Byte) (dir : KeyDirection) :
    Decoder VerifyResult := do
  match ← parseSteps wire with
  | none => return { status := .malformed }
  | some frame =>
    let len := frame.ciphertext.length
    let parsed : VerifyResult :=
      { status := .wrongAddr, outAddr := some frame.addr, outCiphertextLen := some len }
    if expected_addr ≠ anyAddr ∧ frame.addr ≠ expected_addr then return parsed
    else
      let n ← Program.state
      match keyStoreLookup n.keyTable frame.addr dir with
      | none => return { parsed with status := .noKey }
      | some keys =>
        memcpy (addrLen + maxAdu) addrLen maxAdu 0 len
        Program.report (.access hmacLen 0 hmacLen)
        if P.hmacLsh256 keys.macKey (frame.addr :: frame.ciphertext) ≠ frame.hmac then
          return { parsed with status := .hmac }
        else openSteps P frame keys dir

section Steps
variable {admitted : Event → Prop} {n : Node}

theorem runs_sizeSub {minuend subtrahend : ℕ} (he : admitted (.sub minuend subtrahend)) :
    Runs admitted (sizeSub minuend subtrahend) n fun d s =>
      (d = if subtrahend ≤ minuend then minuend - subtrahend else 2 ^ 64 + minuend - subtrahend) ∧
        s = n :=
  runs_skip (runs_report he) (runs_pure ⟨rfl, rfl⟩)

/-- The subtractions of the function that are guarded. -/
theorem runs_sizeSub_le {minuend subtrahend : ℕ} (hle : subtrahend ≤ minuend)
    (he : admitted (.sub minuend subtrahend)) :
    Runs admitted (sizeSub minuend subtrahend) n fun d s => d = minuend - subtrahend ∧ s = n :=
  runs_mono (runs_sizeSub he) fun _ _ ⟨hd, hs⟩ => ⟨hd.trans (if_pos hle), hs⟩

theorem runs_memcpy {dstSize dstPos srcSize srcPos count : ℕ}
    (hsrc : admitted (.access srcSize srcPos count)) (hdst : admitted (.access dstSize dstPos count)) :
    Runs admitted (memcpy dstSize dstPos srcSize srcPos count) n fun _ s => s = n :=
  runs_skip (runs_report hsrc) (runs_report hdst)

end Steps

/-- Every event stays in range, or the ciphertext has just two bytes. -/
def Admitted (wire : Bytes) (e : Event) : Prop := e.InRange ∨ wire.length = addrLen + crcLen + hmacLen

section Program
variable {P : Primitives} {n : Node} {wire : Bytes} {expected_addr : Byte} {dir : KeyDirection}

theorem runs_parseSteps : Runs (Admitted wire) (parseSteps wire) n fun f s =>
    f = secureFrameParse wire ∧ s = n := by
  unfold parseSteps
  split
  · rename_i hshort
    apply runs_pure
    exact ⟨by rw [secureFrameParse, dif_pos hshort], rfl⟩
  · rename_i hlen
    refine runs_read (runs_sizeSub_le (Nat.not_lt.mp hlen) (.inl (Nat.not_lt.mp hlen))) ?_
    split
    · rename_i hlong
      apply runs_pure
      refine ⟨?_, rfl⟩
      rw [secureFrameParse, dif_neg hlen]
      exact (if_pos hlong).symm
    · rename_i hfits
      simp only [addrLen, hmacLen] at hlen
      simp only [addrLen, hmacLen, maxAdu, maxPdu, crcLen] at hfits
      refine runs_skip (runs_report (.inl ?_)) ?_
      · simp only [Event.InRange]
        omega
      refine runs_skip (runs_memcpy (.inl ?_) (.inl ?_)) ?_
      · simp only [Event.InRange, addrLen, hmacLen]
        omega
      · simp only [Event.InRange, addrLen, hmacLen, maxAdu, maxPdu, crcLen]
        omega
      refine runs_skip (runs_memcpy (.inl ?_) (.inl ?_)) ?_
      · simp only [Event.InRange, addrLen, hmacLen]
        omega
      · simp only [Event.InRange, Nat.zero_add, le_refl]
      exact runs_pure ⟨rfl, rfl⟩

/-- The last subtraction wraps for a ciphertext of two bytes, and for no longer one. -/
private theorem pduLength_steps {len : ℕ} (hcrc : crcLen ≤ len) (hle : len ≤ maxAdu) :
    (if crcLen ≤ len - addrLen then len - addrLen - crcLen else 2 ^ 64 + (len - addrLen) - crcLen) =
      pduLength len := by
  simp only [maxAdu] at hle
  by_cases h : crcLen ≤ len - addrLen
  · rw [if_pos h]
    simp only [pduLength, addrLen, maxPdu, crcLen] at *
    omega
  · rw [if_neg h]
    simp only [pduLength, addrLen, maxPdu, crcLen] at *
    omega

theorem runs_openSteps {frame : SecureFrame} {keys : DirectionalKeys}
    (hp : secureFrameParse wire = some frame)
    (hex : ¬ (expected_addr ≠ anyAddr ∧ frame.addr ≠ expected_addr))
    (hk : keyStoreLookup n.keyTable frame.addr dir = some keys)
    (hmac : ¬ P.hmacLsh256 keys.macKey (frame.addr :: frame.ciphertext) ≠ frame.hmac) :
    Runs (Admitted wire) (openSteps P frame keys dir) n fun r s =>
      (r, s) = secureFrameVerifyAndDecrypt P n wire expected_addr dir := by
  have hle := parse_ciphertext_le hp
  have hwire := congrArg List.length (build_of_parse hp)
  simp only [secureFrameBuild, List.length_cons, List.length_append, frame.hmac.property] at hwire
  simp only [secureFrameVerifyAndDecrypt, hp, if_neg hex, hk, if_neg hmac, openSteps]
  apply runs_read runs_state
  generalize ctrStateNextOutgoing n frame.addr dir frame.ciphertext.length = reserved
  obtain ⟨ctrLow, n₁⟩ := reserved
  apply runs_bind runs_update
  rintro _ n₁ rfl
  refine runs_skip (runs_memcpy (.inl ?_) (.inl ?_)) ?_
  · simpa only [Event.InRange, Nat.zero_add] using hle
  · simpa only [Event.InRange, Nat.zero_add] using hle
  by_cases hshort : frame.ciphertext.length < crcLen
  · rw [if_pos hshort]
    rw [if_pos hshort]
    exact runs_pure rfl
  have hcrc : crcLen ≤ frame.ciphertext.length := Nat.not_lt.mp hshort
  rw [if_neg hshort, if_neg hshort]
  refine runs_read (runs_sizeSub_le hcrc (.inl hcrc)) ?_
  refine runs_skip (runs_report (.inl ?_)) ?_
  · simp only [Event.InRange]
    omega
  simp only [maxAdu, addrLen, maxPdu, crcLen] at hle hcrc
  have hlow : 2 ≤ frame.ciphertext.length := hcrc
  have hhigh : 1 ≤ frame.ciphertext.length := by omega
  refine runs_read (runs_sizeSub_le hlow (.inl hlow)) ?_
  refine runs_skip (runs_report (.inl ?_)) ?_
  · simp only [Event.InRange, maxAdu, addrLen, maxPdu, crcLen]
    omega
  refine runs_read (runs_sizeSub_le hhigh (.inl hhigh)) ?_
  refine runs_skip (runs_report (.inl ?_)) ?_
  · simp only [Event.InRange, maxAdu, addrLen, maxPdu, crcLen]
    omega
  split
  · exact runs_pure rfl
  have haddr : addrLen ≤ frame.ciphertext.length := hhigh
  refine runs_read (runs_sizeSub_le haddr (.inl haddr)) ?_
  have hcases : 3 ≤ frame.ciphertext.length ∨ wire.length = addrLen + crcLen + hmacLen := by
    simp only [addrLen, crcLen, hmacLen]
    simp only [hmacLen] at hwire
    omega
  refine runs_read (runs_sizeSub (hcases.imp_left fun h => ?_)) ?_
  · simp only [Event.InRange, addrLen, crcLen]
    omega
  rw [pduLength_steps hcrc hle]
  have hpdu : 3 ≤ frame.ciphertext.length →
      pduLength frame.ciphertext.length = frame.ciphertext.length - 3 := by
    intro h
    obtain ⟨len, hlen⟩ := Nat.exists_eq_add_of_le' h
    rw [hlen, pduLength_add len (by simp only [maxPdu]; omega), Nat.add_sub_cancel]
  refine runs_skip (runs_memcpy (hcases.imp_left fun h => ?_) (hcases.imp_left fun h => ?_)) ?_
  · rw [hpdu h]
    simp only [Event.InRange, maxAdu, addrLen, maxPdu, crcLen]
    omega
  · rw [hpdu h]
    simp only [Event.InRange, maxPdu]
    omega
  exact runs_pure rfl

/-- The program computes the function, and reports nothing out of range unless the
ciphertext has two bytes. -/
theorem runs_verifySteps : Runs (Admitted wire) (verifySteps P wire expected_addr dir) n fun r s =>
    (r, s) = secureFrameVerifyAndDecrypt P n wire expected_addr dir := by
  refine runs_read runs_parseSteps ?_
  cases hp : secureFrameParse wire with
  | none =>
    apply runs_pure
    simp only [secureFrameVerifyAndDecrypt, hp]
  | some frame =>
    have hle := parse_ciphertext_le hp
    simp only
    split
    · rename_i hex
      apply runs_pure
      simp only [secureFrameVerifyAndDecrypt, hp, if_pos hex]
    · rename_i hex
      apply runs_read runs_state
      cases hk : keyStoreLookup n.keyTable frame.addr dir with
      | none =>
        apply runs_pure
        simp only [secureFrameVerifyAndDecrypt, hp, if_neg hex, hk]
      | some keys =>
        refine runs_skip (runs_memcpy (.inl ?_) (.inl ?_)) ?_
        · simpa only [Event.InRange, Nat.zero_add] using hle
        · exact Nat.add_le_add_left hle addrLen
        refine runs_skip (runs_report (.inl ?_)) ?_
        · simp only [Event.InRange, Nat.zero_add, le_refl]
        split
        · rename_i hmac
          apply runs_pure
          simp only [secureFrameVerifyAndDecrypt, hp, if_neg hex, hk, if_pos hmac]
        · rename_i hmac
          exact runs_openSteps hp hex hk hmac

end Program

/-- The ciphertext has room for address and CRC, `out_pdu_len` is the rest of the frame,
and nothing wraps or leaves a buffer. -/
structure LengthsSound (P : Primitives) (n : Node) (wire : Bytes) (expected_addr : Byte)
    (dir : KeyDirection) : Prop where
  ciphertext : ∃ len,
    (secureFrameVerifyAndDecrypt P n wire expected_addr dir).1.outCiphertextLen = some len ∧ 3 ≤ len
  pduLen : 36 ≤ wire.length ∧ wire.length - 36 ≤ maxPdu ∧
    (secureFrameVerifyAndDecrypt P n wire expected_addr dir).1.outPduLen = some (wire.length - 36)
  events : ∀ e ∈ (verifySteps P wire expected_addr dir n).2.1, e.InRange

/-- A frame that authenticates around the encryption of `FF FF`, the CRC16 of nothing,
under the next counter of its channel. -/
def CarriesEmptyCrc (P : Primitives) (n : Node) (wire : Bytes) (expected_addr : Byte)
    (dir : KeyDirection) : Prop :=
  ∃ addr c, (expected_addr = addr ∨ expected_addr = anyAddr) ∧ channelIndex addr dir = some c ∧
    (n.keyTable c).valid = true ∧
    let keys := (n.keyTable c).keys
    let ciphertext := crypt P keys (nextValue n c) [0xFF, 0xFF]
    wire = secureFrameBuild ⟨addr, ciphertext, P.hmacLsh256 keys.macKey (addr :: ciphertext)⟩

section Accepted
variable {P : Primitives} {n : Node} {wire : Bytes} {expected_addr : Byte} {dir : KeyDirection}

/-- An accepted frame is authentic, and its ADU passes the CRC check. -/
theorem accepted_frame (hok : (secureFrameVerifyAndDecrypt P n wire expected_addr dir).1.status = .ok) :
    ∃ frame c, (expected_addr = frame.addr ∨ expected_addr = anyAddr) ∧
      channelIndex frame.addr dir = some c ∧ (n.keyTable c).valid = true ∧
      wire = secureFrameBuild frame ∧ frame.ciphertext.length ≤ maxAdu ∧
      frame.hmac = P.hmacLsh256 (n.keyTable c).keys.macKey (frame.addr :: frame.ciphertext) ∧
      aduIntact (crypt P (n.keyTable c).keys (nextValue n c) frame.ciphertext) = true ∧
      authenticate P n.keyTable wire expected_addr dir = .ok (frame, (n.keyTable c).keys) := by
  cases ha : authenticate P n.keyTable wire expected_addr dir with
  | error s =>
    obtain ⟨hne, -, hs, -, -⟩ := verify_of_error ha
    exact absurd (hs.symm.trans hok) hne
  | ok f =>
    obtain ⟨frame, keys⟩ := f
    obtain ⟨hp, hex, hk, hmac⟩ := authenticate_ok ha
    obtain ⟨c, hc, hvalid, rfl⟩ := keyStoreLookup_eq_some hk
    have hstatus := (verify_of_ok ha hc).1
    refine ⟨frame, c, hex.symm.imp_left Eq.symm, hc, hvalid, (build_of_parse hp).symm,
      parse_ciphertext_le hp, hmac.symm, ?_, rfl⟩
    by_contra hadu
    rw [if_neg hadu] at hstatus
    exact absurd (hok.symm.trans hstatus) (by decide)

private theorem emptyCrc_of_intact {adu : Bytes} (hlen : adu.length = 2) (h : aduIntact adu = true) :
    adu = [0xFF, 0xFF] := by
  obtain ⟨low, high, rfl⟩ := List.length_eq_two.mp hlen
  have hcrc : (0xFFFF : BitVec 16) = low.setWidth 16 ||| high.setWidth 16 <<< 8 := by
    simpa [aduIntact, crcLen, crcCalc, crcRecv, secureFrameCrc16, ReflectedCrc.crcBytes] using h
  obtain ⟨hlow, hhigh⟩ := crc_of_bytes low high
  rw [← hcrc] at hlow hhigh
  rw [← hlow, ← hhigh]
  decide

/-- It is accepted, and the length of its PDU wraps. -/
theorem emptyCrc_accepted (h : CarriesEmptyCrc P n wire expected_addr dir) :
    (secureFrameVerifyAndDecrypt P n wire expected_addr dir).1.status = .ok ∧
      (secureFrameVerifyAndDecrypt P n wire expected_addr dir).1.outPduLen = some (2 ^ 64 - 1) ∧
      wire.length = 35 := by
  obtain ⟨addr, c, hex, hc, hkey, rfl⟩ := h
  have hshort : (crypt P (n.keyTable c).keys (nextValue n c) [0xFF, 0xFF]).length = 2 := length_crypt ..
  have ha := authenticate_build (P := P) (show _ ≤ maxAdu by rw [hshort]; decide) hc hkey hex
  have hintact : aduIntact [0xFF, 0xFF] = true := by decide
  have hok := (verify_of_ok ha hc).1
  rw [crypt_crypt, if_pos hintact] at hok
  refine ⟨hok, ?_, ?_⟩
  · rw [((verify_of_ok ha hc).2.2.1 hok).1, hshort]
    rfl
  · have hmac := (P.hmacLsh256 (n.keyTable c).keys.macKey
      (addr :: crypt P (n.keyTable c).keys (nextValue n c) [0xFF, 0xFF])).property
    simp only [secureFrameBuild, List.length_cons, List.length_append, hshort, hmac, hmacLen]

theorem outCiphertextLen_of_parse {frame : SecureFrame} (hp : secureFrameParse wire = some frame) :
    (secureFrameVerifyAndDecrypt P n wire expected_addr dir).1.outCiphertextLen =
      some frame.ciphertext.length := by
  simp only [secureFrameVerifyAndDecrypt, hp]
  split
  · rfl
  split
  · rfl
  split
  · rfl
  split
  · rfl
  split <;> rfl

theorem lengthsSound_of_three {frame : SecureFrame} {keys : DirectionalKeys} {c : Channel}
    (ha : authenticate P n.keyTable wire expected_addr dir = .ok (frame, keys))
    (hc : channelIndex frame.addr dir = some c)
    (hok : (secureFrameVerifyAndDecrypt P n wire expected_addr dir).1.status = .ok)
    (hthree : 3 ≤ frame.ciphertext.length) : LengthsSound P n wire expected_addr dir := by
  have hp := (authenticate_ok ha).1
  have hle := parse_ciphertext_le hp
  have hwire := congrArg List.length (build_of_parse hp)
  simp only [secureFrameBuild, List.length_cons, List.length_append, frame.hmac.property, hmacLen]
    at hwire
  simp only [maxAdu, addrLen, maxPdu, crcLen] at hle
  have hpdu := ((verify_of_ok ha hc).2.2.1 hok).1
  obtain ⟨len, hlen⟩ := Nat.exists_eq_add_of_le' hthree
  rw [hlen, pduLength_add len (by simp only [maxPdu]; omega)] at hpdu
  refine ⟨⟨_, outCiphertextLen_of_parse hp, hthree⟩, ⟨?_, ?_, ?_⟩, fun e he => ?_⟩
  · omega
  · simp only [maxPdu]
    omega
  · rw [hpdu, ← hwire, hlen]
    rfl
  · rcases runs_verifySteps.events e he with hrange | hlength
    · exact hrange
    · simp only [addrLen, crcLen, hmacLen] at hlength
      omega

/-- An accepted frame has sound lengths, or is one around `FF FF`. -/
theorem accepted_cases
    (hok : (secureFrameVerifyAndDecrypt P n wire expected_addr dir).1.status = .ok) :
    LengthsSound P n wire expected_addr dir ∨ CarriesEmptyCrc P n wire expected_addr dir := by
  obtain ⟨frame, c, hex, hc, hkey, hwire, hle, hmac, hadu, ha⟩ := accepted_frame hok
  by_cases hthree : 3 ≤ frame.ciphertext.length
  · exact .inl (lengthsSound_of_three ha hc hok hthree)
  · right
    have hlen : (crypt P (n.keyTable c).keys (nextValue n c) frame.ciphertext).length = 2 := by
      have hcrc := hadu
      simp only [aduIntact, length_crypt, crcLen, Bool.and_eq_true, decide_eq_true_eq] at hcrc
      rw [length_crypt]
      omega
    have hplain := congrArg (crypt P (n.keyTable c).keys (nextValue n c))
      (emptyCrc_of_intact hlen hadu)
    rw [crypt_crypt] at hplain
    refine ⟨frame.addr, c, hex, hc, hkey, ?_⟩
    simp only [← hplain, ← hmac]
    exact hwire

/-- `SECURE_FRAME_OK` means sound lengths exactly if the frame is not one around `FF FF`. -/
theorem lengths_sound_iff (P : Primitives) (n : Node) (wire : Bytes) (expected_addr : Byte)
    (dir : KeyDirection) :
    ((secureFrameVerifyAndDecrypt P n wire expected_addr dir).1.status = .ok →
        LengthsSound P n wire expected_addr dir) ↔
      ¬ CarriesEmptyCrc P n wire expected_addr dir := by
  constructor
  · intro h hempty
    obtain ⟨hok, -, hlen⟩ := emptyCrc_accepted hempty
    have hlong := (h hok).pduLen.1
    omega
  · intro h hok
    exact (accepted_cases hok).resolve_right h

end Accepted

/-- With LEA and any MAC: a frame of 35 bytes is accepted, and `out_pdu_len` wraps. -/
theorem empty_crc_underflows : ¬ ∃ mac, ∀ n wire expected_addr dir,
    (secureFrameVerifyAndDecrypt (leaPrimitives mac) n wire expected_addr dir).1.status = .ok →
      LengthsSound (leaPrimitives mac) n wire expected_addr dir := by
  rintro ⟨mac, h⟩
  let P := leaPrimitives mac
  let ciphertext := crypt P sampleKeys (nextValue sampleReceiver (1, 0)) [0xFF, 0xFF]
  let wire := secureFrameBuild ⟨1, ciphertext, P.hmacLsh256 sampleKeys.macKey (1 :: ciphertext)⟩
  have hempty : CarriesEmptyCrc P sampleReceiver wire 1 .masterToSlave :=
    ⟨1, (1, 0), .inl rfl, rfl, rfl, rfl⟩
  obtain ⟨hok, -, hlen⟩ := emptyCrc_accepted hempty
  have hlong := (h _ _ _ _ hok).pduLen.1
  omega

end ModbusSecurity.FrameLengths
