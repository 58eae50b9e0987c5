import ModbusSecurity.AccessTraces
import ModbusSecurity.FrameRejection

/-! # What the decoder writes to its output parameters

`secure_frame_verify_and_decrypt` with the pointers of its caller, as a program that reports
every value it stores through one of them, and the callers that print these values. -/
namespace ModbusSecurity.OutputWrites
open ByteStrings KeyStore CounterState LeaOnline SecureFraming FrameRejection AccessTraces

/-- Which of the pointers that may be `NULL` are not. -/
structure Pointers where
  outAddr : Bool
  outCiphertextLen : Bool
  outCrcCalc : Bool
  outCrcRecv : Bool

/-- A value that is stored through a pointer. -/
inductive Write where
  | addr (value : Byte)
  | ciphertextLen (value : ℕ)
  | crcCalc (value : BitVec 16)
  | crcRecv (value : BitVec 16)
  | pduLen (value : ℕ)
  | pdu (bytes : Bytes)

/-- `if (p != NULL) { *p = … }` -/
def writeIf (given : Bool) (w : Write) : Program Write Node Unit :=
  if given then Program.report w else pure ()

def verifyWrites (P : Primitives) (ptrs : Pointers) (wire : Bytes) (expected_addr : Byte)
    (dir : KeyDirection) : Program Write Node SecureFrameStatus := do
  match secureFrameParse wire with
  | none => return .malformed
  | some frame =>
    let len := frame.ciphertext.length
    writeIf ptrs.outAddr (.addr frame.addr)
    writeIf ptrs.outCiphertextLen (.ciphertextLen len)
    if expected_addr ≠ anyAddr ∧ frame.addr ≠ expected_addr then return .wrongAddr
    else
      let n ← Program.state
      match keyStoreLookup n.keyTable frame.addr dir with
      | none => return .noKey
      | some keys =>
        if P.hmacLsh256 keys.macKey (frame.addr :: frame.ciphertext) ≠ frame.hmac then return .hmac
        else
          let (ctrLow, n) := ctrStateNextOutgoing n frame.addr dir len
          Program.update fun _ => n
          let crypt := leaCtrCrypt (fun b => P.leaEncrypt keys.encKey b) ctrHigh ctrLow false
            frame.ciphertext
          if len < crcLen then return .crc
          else
            writeIf ptrs.outCrcCalc (.crcCalc (crcCalc crypt.out))
            writeIf ptrs.outCrcRecv (.crcRecv (crcRecv crypt.out))
            if crcCalc crypt.out ≠ crcRecv crypt.out then return .crc
            else
              Program.report (.pduLen (pduLength len))
              Program.report (.pdu ((crypt.out.drop addrLen).take (pduLength len)))
              return .ok

/-- The writes behind a result, in their order. -/
def writesOf (ptrs : Pointers) (r : VerifyResult) : List Write :=
  (if ptrs.outAddr then (r.outAddr.map Write.addr).toList else []) ++
  (if ptrs.outCiphertextLen then (r.outCiphertextLen.map Write.ciphertextLen).toList else []) ++
  (if ptrs.outCrcCalc then (r.outCrcCalc.map Write.crcCalc).toList else []) ++
  (if ptrs.outCrcRecv then (r.outCrcRecv.map Write.crcRecv).toList else []) ++
  (r.outPduLen.map Write.pduLen).toList ++ (r.outPdu.map Write.pdu).toList

section Writes
variable {P : Primitives} {ptrs : Pointers} {n : Node} {wire : Bytes} {expected_addr : Byte}
  {dir : KeyDirection}

theorem writeIf_apply (given : Bool) (w : Write) :
    writeIf given w n = ((), if given then [w] else [], n) := by
  cases given <;> rfl

/-- The program computes the function, whatever the pointers, and writes its outputs. -/
theorem verifyWrites_eq : verifyWrites P ptrs wire expected_addr dir n =
    ((secureFrameVerifyAndDecrypt P n wire expected_addr dir).1.status,
      writesOf ptrs (secureFrameVerifyAndDecrypt P n wire expected_addr dir).1,
      (secureFrameVerifyAndDecrypt P n wire expected_addr dir).2) := by
  rw [verifyWrites, secureFrameVerifyAndDecrypt]
  cases hp : secureFrameParse wire with
  | none => simp [Program.pure_apply, writesOf]
  | some frame =>
    simp only [Program.bind_apply, writeIf_apply]
    by_cases hex : expected_addr ≠ anyAddr ∧ frame.addr ≠ expected_addr
    · simp only [if_pos hex]
      simp [Program.pure_apply, writesOf]
    simp only [if_neg hex, Program.bind_apply, Program.state_apply]
    cases hk : keyStoreLookup n.keyTable frame.addr dir with
    | none => simp [Program.pure_apply, writesOf]
    | some keys =>
      simp only
      by_cases hmac : P.hmacLsh256 keys.macKey (frame.addr :: frame.ciphertext) ≠ frame.hmac
      · simp only [if_pos hmac]
        simp [Program.pure_apply, writesOf]
      obtain ⟨c, hc, -⟩ := keyStoreLookup_eq_some hk
      have hlong := (parse_ciphertext_le hp).trans_lt (show maxAdu < 2 ^ 31 by decide)
      simp only [if_neg hmac, ctrStateNextOutgoing_eq hc, leaCtrCrypt_frame _ _ _ _ _ hlong,
        Program.bind_apply, Program.update_apply]
      by_cases hshort : frame.ciphertext.length < crcLen
      · simp only [if_pos hshort]
        simp [Program.pure_apply, writesOf]
      simp only [if_neg hshort, Program.bind_apply, writeIf_apply]
      generalize crypt P keys (nextValue n c) frame.ciphertext = adu
      by_cases hcrc : crcCalc adu ≠ crcRecv adu
      · simp only [if_pos hcrc]
        simp [Program.pure_apply, writesOf]
      · simp only [if_neg hcrc]
        simp [Program.pure_apply, Program.bind_apply, Program.report_apply, writesOf]

end Writes

/-- The exits, in their order, with all that the call has written by then. -/
inductive Exit (P : Primitives) (n : Node) (wire : Bytes) (expected_addr : Byte)
    (dir : KeyDirection) : VerifyResult → Prop
  | malformed : secureFrameParse wire = none →
      Exit P n wire expected_addr dir { status := .malformed }
  /-- Another slave's frame, no key, or the wrong HMAC. -/
  | unauthentic (frame : SecureFrame) (s : SecureFrameStatus) : secureFrameParse wire = some frame →
      authenticate P n.keyTable wire expected_addr dir = .error s → s ≠ .malformed →
      Exit P n wire expected_addr dir
        { status := s, outAddr := some frame.addr, outCiphertextLen := some frame.ciphertext.length }
  | noRoomForCrc (frame : SecureFrame) (keys : DirectionalKeys) (used : List Bytes) :
      authenticate P n.keyTable wire expected_addr dir = .ok (frame, keys) →
      frame.ciphertext.length < crcLen →
      Exit P n wire expected_addr dir
        { status := .crc, outAddr := some frame.addr
          outCiphertextLen := some frame.ciphertext.length, used }
  | wrongCrc (frame : SecureFrame) (keys : DirectionalKeys) (used : List Bytes) (adu : Bytes) :
      authenticate P n.keyTable wire expected_addr dir = .ok (frame, keys) →
      crcLen ≤ frame.ciphertext.length → crcCalc adu ≠ crcRecv adu →
      Exit P n wire expected_addr dir
        { status := .crc, outAddr := some frame.addr
          outCiphertextLen := some frame.ciphertext.length
          outCrcCalc := some (crcCalc adu), outCrcRecv := some (crcRecv adu), used }
  | opened (frame : SecureFrame) (keys : DirectionalKeys) (used : List Bytes) (adu : Bytes)
      (pdu : Bytes) (pduLen : ℕ) :
      authenticate P n.keyTable wire expected_addr dir = .ok (frame, keys) →
      crcLen ≤ frame.ciphertext.length → crcCalc adu = crcRecv adu →
      Exit P n wire expected_addr dir
        { status := .ok, outAddr := some frame.addr
          outCiphertextLen := some frame.ciphertext.length
          outPdu := some pdu, outPduLen := some pduLen
          outCrcCalc := some (crcCalc adu), outCrcRecv := some (crcRecv adu), used }

section Exits
variable (P : Primitives) (n : Node) (wire : Bytes) (expected_addr : Byte) (dir : KeyDirection)

theorem exit_verify : Exit P n wire expected_addr dir
    (secureFrameVerifyAndDecrypt P n wire expected_addr dir).1 := by
  rw [secureFrameVerifyAndDecrypt]
  cases hp : secureFrameParse wire with
  | none => exact .malformed hp
  | some frame =>
    simp only
    by_cases hex : expected_addr ≠ anyAddr ∧ frame.addr ≠ expected_addr
    · rw [if_pos hex]
      exact .unauthentic frame .wrongAddr hp (by simp only [authenticate, hp, if_pos hex]) (by decide)
    rw [if_neg hex]
    cases hk : keyStoreLookup n.keyTable frame.addr dir with
    | none =>
      exact .unauthentic frame .noKey hp (by simp only [authenticate, hp, if_neg hex, hk]) (by decide)
    | some keys =>
      simp only
      by_cases hmac : P.hmacLsh256 keys.macKey (frame.addr :: frame.ciphertext) ≠ frame.hmac
      · rw [if_pos hmac]
        exact .unauthentic frame .hmac hp
          (by simp only [authenticate, hp, if_neg hex, hk, if_pos hmac]) (by decide)
      rw [if_neg hmac]
      have ha : authenticate P n.keyTable wire expected_addr dir = .ok (frame, keys) := by
        simp only [authenticate, hp, if_neg hex, hk, if_neg hmac]
      by_cases hshort : frame.ciphertext.length < crcLen
      · simp only [if_pos hshort]
        exact .noRoomForCrc frame keys _ ha hshort
      simp only [if_neg hshort]
      split
      · exact .wrongCrc frame keys _ _ ha (Nat.not_lt.mp hshort) ‹_›
      · exact .opened frame keys _ _ _ _ ha (Nat.not_lt.mp hshort) (not_not.mp ‹_›)

end Exits

/-- Through each of the two CRC pointers that is given, its value and no other. -/
def CrcWritten (ptrs : Pointers) (writes : List Write) (computed received : BitVec 16) : Prop :=
  (∀ v, .crcCalc v ∈ writes ↔ ptrs.outCrcCalc = true ∧ v = computed) ∧
    ∀ v, .crcRecv v ∈ writes ↔ ptrs.outCrcRecv = true ∧ v = received

/-- What a call has written, against what it returns. -/
structure OutputsMatch (ptrs : Pointers) (wire : Bytes) (status : SecureFrameStatus)
    (writes : List Write) : Prop where
  addr : ∀ v, .addr v ∈ writes ↔
    ptrs.outAddr = true ∧ status ≠ .malformed ∧ wire.head? = some v
  ciphertextLen : ∀ len, .ciphertextLen len ∈ writes ↔
    ptrs.outCiphertextLen = true ∧ status ≠ .malformed ∧ len = wire.length - 33
  crc : status = .crc → ∃ computed received, computed ≠ received ∧ CrcWritten ptrs writes computed received
  ok : status = .ok → ∃ crc, CrcWritten ptrs writes crc crc
  pduLen : ∀ len, .pduLen len ∈ writes → status = .ok
  pdu : ∀ bytes, .pdu bytes ∈ writes → status = .ok

inductive Output | addr | ciphertextLen | crcCalc | crcRecv | pduLen | pdu
  deriving DecidableEq

def Write.output : Write → Output
  | .addr _ => .addr
  | .ciphertextLen _ => .ciphertextLen
  | .crcCalc _ => .crcCalc
  | .crcRecv _ => .crcRecv
  | .pduLen _ => .pduLen
  | .pdu _ => .pdu

/-- The callers that hand the outputs on to `printf` by status. The self-test is not one of them:
it opens a frame of its own. -/
inductive Caller | processIncomingFrame | receiveOneFrame | runAsMaster | sendRequestAndVerifyReply

def Caller.pointers : Caller → Pointers
  | .processIncomingFrame | .receiveOneFrame => ⟨true, true, true, true⟩
  | .runAsMaster | .sendRequestAndVerifyReply => ⟨true, false, true, true⟩

/-- The variables that a caller prints after a status. -/
def Caller.prints : Caller → SecureFrameStatus → List Output
  | .processIncomingFrame, status | .receiveOneFrame, status => match status with
    | .malformed => []
    | .wrongAddr | .noKey | .hmac => [.addr, .ciphertextLen]
    | .crc => [.addr, .ciphertextLen, .crcCalc, .crcRecv]
    | .ok => [.addr, .ciphertextLen, .pdu, .pduLen]
  | .runAsMaster, status | .sendRequestAndVerifyReply, status => match status with
    | .malformed | .noKey | .hmac => []
    | .wrongAddr => [.addr]
    | .crc => [.crcCalc, .crcRecv]
    | .ok => [.pdu, .pduLen]

/-- Every variable that is printed has been written by the call. -/
def NeverUnset (P : Primitives) (n : Node) (wire : Bytes) (expected_addr : Byte)
    (dir : KeyDirection) (caller : Caller) : Prop :=
  let (status, writes, _) := verifyWrites P caller.pointers wire expected_addr dir n
  ∀ o ∈ caller.prints status, o ∈ writes.map Write.output

/-- A frame that passes the HMAC and has no room for a CRC. -/
def ShortAuthentic (P : Primitives) (n : Node) (wire : Bytes) (expected_addr : Byte)
    (dir : KeyDirection) : Prop :=
  ∃ addr ciphertext c, ciphertext.length < crcLen ∧
    (expected_addr = addr ∨ expected_addr = anyAddr) ∧ channelIndex addr dir = some c ∧
    (n.keyTable c).valid = true ∧
    wire = secureFrameBuild
      ⟨addr, ciphertext, P.hmacLsh256 (n.keyTable c).keys.macKey (addr :: ciphertext)⟩

section Membership
variable {ptrs : Pointers} {r : VerifyResult}

theorem addr_mem_writesOf {v : Byte} :
    .addr v ∈ writesOf ptrs r ↔ ptrs.outAddr = true ∧ r.outAddr = some v := by
  simp [writesOf]

theorem ciphertextLen_mem_writesOf {len : ℕ} : .ciphertextLen len ∈ writesOf ptrs r ↔
    ptrs.outCiphertextLen = true ∧ r.outCiphertextLen = some len := by
  simp [writesOf]

theorem crcCalc_mem_writesOf {v : BitVec 16} :
    .crcCalc v ∈ writesOf ptrs r ↔ ptrs.outCrcCalc = true ∧ r.outCrcCalc = some v := by
  simp [writesOf]

theorem crcRecv_mem_writesOf {v : BitVec 16} :
    .crcRecv v ∈ writesOf ptrs r ↔ ptrs.outCrcRecv = true ∧ r.outCrcRecv = some v := by
  simp [writesOf]

theorem pduLen_mem_writesOf {len : ℕ} : .pduLen len ∈ writesOf ptrs r ↔ r.outPduLen = some len := by
  simp [writesOf]

theorem pdu_mem_writesOf {bytes : Bytes} : .pdu bytes ∈ writesOf ptrs r ↔ r.outPdu = some bytes := by
  simp [writesOf]

end Membership

section Match
variable {P : Primitives} {n : Node} {wire : Bytes} {expected_addr : Byte} {dir : KeyDirection}
  {ptrs : Pointers} {r : VerifyResult}

theorem head_of_parse {frame : SecureFrame} (hp : secureFrameParse wire = some frame) :
    wire.head? = some frame.addr ∧ frame.ciphertext.length = wire.length - 33 := by
  obtain rfl := build_of_parse hp
  refine ⟨rfl, ?_⟩
  simp only [secureFrameBuild, List.length_cons, List.length_append, frame.hmac.property, hmacLen]
  omega

theorem crcWritten_writesOf {computed received : BitVec 16} (hcalc : r.outCrcCalc = some computed)
    (hrecv : r.outCrcRecv = some received) : CrcWritten ptrs (writesOf ptrs r) computed received := by
  constructor
  · intro v
    rw [crcCalc_mem_writesOf, hcalc, Option.some.injEq, eq_comm (a := v)]
  · intro v
    rw [crcRecv_mem_writesOf, hrecv, Option.some.injEq, eq_comm (a := v)]

/-- The address and the length are right at every exit behind the parser. -/
theorem outputsMatch_of_parsed {frame : SecureFrame} (hp : secureFrameParse wire = some frame)
    (hstatus : r.status ≠ .malformed) (haddr : r.outAddr = some frame.addr)
    (hlen : r.outCiphertextLen = some frame.ciphertext.length)
    (hcrc : r.status = .crc →
      ∃ computed received, computed ≠ received ∧ CrcWritten ptrs (writesOf ptrs r) computed received)
    (hok : r.status = .ok → ∃ crc, CrcWritten ptrs (writesOf ptrs r) crc crc)
    (hpdu : r.status ≠ .ok → r.outPduLen = none ∧ r.outPdu = none) :
    OutputsMatch ptrs wire r.status (writesOf ptrs r) := by
  obtain ⟨hhead, hlength⟩ := head_of_parse hp
  refine ⟨fun v => ?_, fun len => ?_, hcrc, hok, fun len h => ?_, fun bytes h => ?_⟩
  · rw [addr_mem_writesOf, haddr, hhead]
    simp [hstatus]
  · rw [ciphertextLen_mem_writesOf, hlen, hlength, Option.some.injEq, eq_comm (a := len)]
    simp [hstatus]
  · by_contra hne
    rw [pduLen_mem_writesOf, (hpdu hne).1] at h
    cases h
  · by_contra hne
    rw [pdu_mem_writesOf, (hpdu hne).2] at h
    cases h

theorem shortAuthentic_of_authenticate {frame : SecureFrame} {keys : DirectionalKeys}
    (ha : authenticate P n.keyTable wire expected_addr dir = .ok (frame, keys))
    (hshort : frame.ciphertext.length < crcLen) : ShortAuthentic P n wire expected_addr dir := by
  obtain ⟨hp, hex, hk, hmac⟩ := authenticate_ok ha
  obtain ⟨c, hc, hvalid, rfl⟩ := keyStoreLookup_eq_some hk
  refine ⟨frame.addr, frame.ciphertext, c, hshort, hex.symm.imp_left Eq.symm, hc, hvalid, ?_⟩
  rw [hmac]
  exact (build_of_parse hp).symm

/-- The exit of a short authentic frame. -/
theorem result_of_shortAuthentic (h : ShortAuthentic P n wire expected_addr dir)
    (hexit : Exit P n wire expected_addr dir r) :
    r.status = .crc ∧ r.outCrcCalc = none ∧ r.outCrcRecv = none := by
  obtain ⟨addr, ciphertext, c, hshort, hex, hc, hvalid, rfl⟩ := h
  have hfits : ciphertext.length ≤ maxAdu := hshort.le.trans (by decide)
  have ha := authenticate_build (P := P) hfits hc hvalid hex
  cases hexit with
  | malformed hp => cases (authenticate_ok ha).1.symm.trans hp
  | unauthentic frame s hp hs => cases ha.symm.trans hs
  | noRoomForCrc => exact ⟨rfl, rfl, rfl⟩
  | wrongCrc frame keys used adu ha' hlong =>
    cases ha.symm.trans ha'
    exact absurd hshort (Nat.not_lt.mpr hlong)
  | opened frame keys used adu pdu pduLen ha' hlong =>
    cases ha.symm.trans ha'
    exact absurd hshort (Nat.not_lt.mpr hlong)

theorem outputsMatch_of_exit (hexit : Exit P n wire expected_addr dir r)
    (h : ¬ (ShortAuthentic P n wire expected_addr dir ∧
      (ptrs.outCrcCalc = true ∨ ptrs.outCrcRecv = true))) :
    OutputsMatch ptrs wire r.status (writesOf ptrs r) := by
  cases hexit with
  | malformed hp =>
    constructor <;> simp [writesOf]
  | unauthentic frame s hp hs hmalformed =>
    obtain ⟨hok, hcrc, -⟩ := verify_of_error hs
    exact outputsMatch_of_parsed hp hmalformed rfl rfl (fun h => absurd h hcrc) (fun h => absurd h hok)
      fun _ => ⟨rfl, rfl⟩
  | noRoomForCrc frame keys used ha hshort =>
    have hnone : ¬ (ptrs.outCrcCalc = true ∨ ptrs.outCrcRecv = true) := fun hptr =>
      h ⟨shortAuthentic_of_authenticate ha hshort, hptr⟩
    rw [not_or] at hnone
    refine outputsMatch_of_parsed (authenticate_ok ha).1 nofun rfl rfl (fun _ => ?_)
      nofun fun _ => ⟨rfl, rfl⟩
    refine ⟨0, 1, by decide, fun v => ?_, fun v => ?_⟩
    · rw [crcCalc_mem_writesOf]
      simp [hnone.1]
    · rw [crcRecv_mem_writesOf]
      simp [hnone.2]
  | wrongCrc frame keys used adu ha hlong hcrc =>
    exact outputsMatch_of_parsed (authenticate_ok ha).1 nofun rfl rfl
      (fun _ => ⟨_, _, hcrc, crcWritten_writesOf rfl rfl⟩) nofun fun _ => ⟨rfl, rfl⟩
  | opened frame keys used adu pdu pduLen ha hlong hcrc =>
    exact outputsMatch_of_parsed (authenticate_ok ha).1 nofun rfl rfl nofun
      (fun _ => ⟨crcCalc adu, crcWritten_writesOf rfl (congrArg some hcrc.symm)⟩)
      fun h => absurd rfl h

theorem not_outputsMatch_of_short (hexit : Exit P n wire expected_addr dir r)
    (h : ShortAuthentic P n wire expected_addr dir)
    (hptr : ptrs.outCrcCalc = true ∨ ptrs.outCrcRecv = true) :
    ¬ OutputsMatch ptrs wire r.status (writesOf ptrs r) := by
  intro hmatch
  obtain ⟨hcrc, hcalc, hrecv⟩ := result_of_shortAuthentic h hexit
  obtain ⟨computed, received, -, hwritten⟩ := hmatch.crc hcrc
  rcases hptr with hptr | hptr
  · have hmem := (hwritten.1 computed).mpr ⟨hptr, rfl⟩
    rw [crcCalc_mem_writesOf, hcalc] at hmem
    cases hmem.2
  · have hmem := (hwritten.2 received).mpr ⟨hptr, rfl⟩
    rw [crcRecv_mem_writesOf, hrecv] at hmem
    cases hmem.2

/-- At every exit but one a caller prints only what has been written there. -/
theorem printed_of_exit (hexit : Exit P n wire expected_addr dir r)
    (h : ¬ ShortAuthentic P n wire expected_addr dir) (caller : Caller) :
    ∀ o ∈ caller.prints r.status, o ∈ (writesOf caller.pointers r).map Write.output := by
  cases hexit with
  | malformed hp => cases caller <;> exact fun _ ho => absurd ho List.not_mem_nil
  | unauthentic frame s hp hs hmalformed =>
    obtain ⟨hok, hcrc, -⟩ := verify_of_error hs
    cases s with
    | ok => exact absurd rfl hok
    | crc => exact absurd rfl hcrc
    | malformed => exact absurd rfl hmalformed
    | _ => cases caller <;> simp [Caller.prints, Caller.pointers, writesOf, Write.output]
  | noRoomForCrc frame keys used ha hshort =>
    exact absurd (shortAuthentic_of_authenticate ha hshort) h
  | wrongCrc frame keys used adu ha hlong hcrc =>
    cases caller <;> simp [Caller.prints, Caller.pointers, writesOf, Write.output]
  | opened frame keys used adu pdu pduLen ha hlong hcrc =>
    cases caller <;> simp [Caller.prints, Caller.pointers, writesOf, Write.output]

theorem unset_of_short (hexit : Exit P n wire expected_addr dir r)
    (h : ShortAuthentic P n wire expected_addr dir) (caller : Caller) :
    .crcCalc ∈ caller.prints r.status ∧
      .crcCalc ∉ (writesOf caller.pointers r).map Write.output := by
  obtain ⟨hcrc, hcalc, -⟩ := result_of_shortAuthentic h hexit
  constructor
  · rw [hcrc]
    cases caller <;> decide
  · intro hmem
    obtain ⟨w, hw, hout⟩ := List.mem_map.mp hmem
    cases w with
    | crcCalc v =>
      rw [crcCalc_mem_writesOf, hcalc] at hw
      cases hw.2
    | _ => cases hout

end Match

/-- The outputs match the status, and no caller prints a variable that was not set, unless the
frame is authentic and too short for a CRC: its exit reports a CRC error and writes no CRC. -/
theorem outputs_match_iff (P : Primitives) (n : Node) (wire : Bytes) (expected_addr : Byte)
    (dir : KeyDirection) :
    (∀ ptrs, OutputsMatch ptrs wire (verifyWrites P ptrs wire expected_addr dir n).1
        (verifyWrites P ptrs wire expected_addr dir n).2.1 ↔
      ¬ (ShortAuthentic P n wire expected_addr dir ∧
        (ptrs.outCrcCalc = true ∨ ptrs.outCrcRecv = true))) ∧
    ∀ caller, NeverUnset P n wire expected_addr dir caller ↔
      ¬ ShortAuthentic P n wire expected_addr dir := by
  have hexit := exit_verify P n wire expected_addr dir
  constructor
  · intro ptrs
    rw [verifyWrites_eq]
    exact ⟨fun hmatch h => not_outputsMatch_of_short hexit h.1 h.2 hmatch, outputsMatch_of_exit hexit⟩
  · intro caller
    rw [NeverUnset, verifyWrites_eq]
    refine ⟨fun hset h => ?_, fun h => printed_of_exit hexit h caller⟩
    obtain ⟨hprinted, hunset⟩ := unset_of_short hexit h caller
    exact hunset (hset _ hprinted)

/-- With LEA and any MAC: address 1 and the HMAC of it, 33 bytes in all. -/
theorem short_frame_leaves_crc_unset : ¬ ∃ mac, ∀ ptrs n wire expected_addr dir,
    OutputsMatch ptrs wire (verifyWrites (leaPrimitives mac) ptrs wire expected_addr dir n).1
      (verifyWrites (leaPrimitives mac) ptrs wire expected_addr dir n).2.1 := by
  rintro ⟨mac, h⟩
  let P := leaPrimitives mac
  let wire := secureFrameBuild ⟨1, [], P.hmacLsh256 sampleKeys.macKey [1]⟩
  have hshort : ShortAuthentic P sampleReceiver wire 1 .masterToSlave :=
    ⟨1, [], (1, 0), by decide, .inl rfl, rfl, rfl, rfl⟩
  have hmatch := h ⟨true, true, true, true⟩ sampleReceiver wire 1 .masterToSlave
  rw [verifyWrites_eq] at hmatch
  exact not_outputsMatch_of_short (exit_verify _ _ _ _ _) hshort (.inl rfl) hmatch

end ModbusSecurity.OutputWrites
