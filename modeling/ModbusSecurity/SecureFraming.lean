import ModbusSecurity.CounterState
import ModbusSecurity.LeaOnline
import ModbusSecurity.LeaCipher
import ModbusSecurity.ReflectedCrc

/-! # Secure frames

`[addr][ciphertext][hmac]`, where the ciphertext is the whole Modbus ADU in counter mode.
The block cipher and the MAC are parameters; the counter never travels on the wire. -/
namespace ModbusSecurity.SecureFraming
open ByteStrings CounterMode LeaOnline KeyStore CounterFile CounterState ReflectedCrc

def addrLen : ℕ := 1
def hmacLen : ℕ := 32
def crcLen : ℕ := 2
def maxPdu : ℕ := 253
def maxAdu : ℕ := addrLen + maxPdu + crcLen
def maxWireLen : ℕ := addrLen + maxAdu + hmacLen
def anyAddr : Byte := 0xFF

abbrev Block := { b : Bytes // b.length = 16 }
abbrev Hmac := { b : Bytes // b.length = hmacLen }

/-- Any block function and any MAC. -/
structure Primitives where
  leaEncrypt : KeyBytes → Bytes → Block
  hmacLsh256 : KeyBytes → Bytes → Hmac

/-- LEA as the repository computes it, with any MAC. -/
def leaPrimitives (mac : KeyBytes → Bytes → Hmac) : Primitives :=
  ⟨fun key b => ⟨LeaCipher.leaEncrypt key b, LeaCipher.length_leaEncrypt key b⟩, mac⟩

def secureFrameCrc16 (buf : Bytes) : BitVec 16 := crcBytes 0xA001 0xFFFF buf

structure SecureFrame where
  addr : Byte
  ciphertext : Bytes
  hmac : Hmac

def secureFrameBuild (frame : SecureFrame) : Bytes :=
  frame.addr :: (frame.ciphertext ++ frame.hmac)

def secureFrameParse (inp : Bytes) : Option SecureFrame :=
  if h : inp.length < addrLen + hmacLen then none
  else
    let ciphertextLen := inp.length - (addrLen + hmacLen)
    if ciphertextLen > maxAdu then none
    else
      have hpos : 0 < inp.length := by simp only [addrLen] at h; omega
      some
        { addr := inp[0]
          ciphertext := (inp.drop addrLen).take ciphertextLen
          hmac := ⟨(inp.drop (addrLen + ciphertextLen)).take hmacLen, by
            simp only [List.length_take, List.length_drop]
            omega⟩ }

/-- The nonce extension, all zero on both ends. -/
def ctrHigh : Bytes := List.replicate 12 0

/-- `addr + PDU + CRC16`, the CRC low byte first. -/
def plaintextAdu (slave_addr : Byte) (pdu : Bytes) : Bytes :=
  let crc := secureFrameCrc16 (slave_addr :: pdu)
  slave_addr :: (pdu ++ [crc.setWidth 8, (crc >>> 8).setWidth 8])

/-- A successful call: the bytes written to `out`, and the counter blocks that were
encrypted on the way. -/
structure BuildResult where
  wire : Bytes
  used : List Bytes

/-- `none` is the result `-1`. -/
def secureFrameEncryptAndBuild (P : Primitives) (n : Node) (slave_addr : Byte) (pdu : Bytes)
    (dir : KeyDirection) : Option BuildResult × Node :=
  if pdu.length > maxPdu then (none, n)
  else match keyStoreLookup n.keyTable slave_addr dir with
    | none => (none, n)
    | some keys =>
      let adu := plaintextAdu slave_addr pdu
      let (ctrLow, n) := ctrStateNextOutgoing n slave_addr dir adu.length
      let crypt := leaCtrCrypt (fun b => P.leaEncrypt keys.encKey b) ctrHigh ctrLow true adu
      let hmac := P.hmacLsh256 keys.macKey (slave_addr :: crypt.out)
      (some ⟨secureFrameBuild ⟨slave_addr, crypt.out, hmac⟩, crypt.used⟩, n)

inductive SecureFrameStatus where
  | ok
  | malformed
  | wrongAddr
  | noKey
  | hmac
  | crc
  deriving DecidableEq, Repr

/-- An output is `none` where the call writes nothing to it. -/
structure VerifyResult where
  status : SecureFrameStatus
  outAddr : Option Byte := none
  outCiphertextLen : Option ℕ := none
  outPdu : Option Bytes := none
  outPduLen : Option ℕ := none
  outCrcCalc : Option (BitVec 16) := none
  outCrcRecv : Option (BitVec 16) := none
  used : List Bytes := []

/-- The last two bytes of an ADU, low byte first. -/
def crcRecv (adu : Bytes) : BitVec 16 :=
  (adu.getD (adu.length - 2) 0).setWidth 16 ||| (adu.getD (adu.length - 1) 0).setWidth 16 <<< 8

def crcCalc (adu : Bytes) : BitVec 16 := secureFrameCrc16 (adu.take (adu.length - crcLen))

/-- `out_pdu_len` in `size_t`, which wraps for a two-byte ciphertext. -/
def pduLength (ciphertext_len : ℕ) : ℕ := (2 ^ 64 + ciphertext_len - addrLen - crcLen) % 2 ^ 64

def secureFrameVerifyAndDecrypt (P : Primitives) (n : Node) (wire : Bytes) (expected_addr : Byte)
    (dir : KeyDirection) : VerifyResult × Node :=
  match secureFrameParse wire with
  | none => ({ status := .malformed }, n)
  | some frame =>
    let len := frame.ciphertext.length
    let parsed : VerifyResult :=
      { status := .wrongAddr, outAddr := some frame.addr, outCiphertextLen := some len }
    if expected_addr ≠ anyAddr ∧ frame.addr ≠ expected_addr then (parsed, n)
    else match keyStoreLookup n.keyTable frame.addr dir with
      | none => ({ parsed with status := .noKey }, n)
      | some keys =>
        if P.hmacLsh256 keys.macKey (frame.addr :: frame.ciphertext) ≠ frame.hmac then
          ({ parsed with status := .hmac }, n)
        else
          let (ctrLow, n) := ctrStateNextOutgoing n frame.addr dir len
          let crypt := leaCtrCrypt (fun b => P.leaEncrypt keys.encKey b) ctrHigh ctrLow false
            frame.ciphertext
          if len < crcLen then ({ parsed with status := .crc, used := crypt.used }, n)
          else
            let checked := { parsed with
              outCrcCalc := some (crcCalc crypt.out)
              outCrcRecv := some (crcRecv crypt.out)
              used := crypt.used }
            if crcCalc crypt.out ≠ crcRecv crypt.out then ({ checked with status := .crc }, n)
            else
              ({ checked with
                status := .ok
                outPdu := some ((crypt.out.drop addrLen).take (pduLength len))
                outPduLen := some (pduLength len) }, n)

/-- The keystream of a key, by counter. -/
def keyStream (P : Primitives) (keys : DirectionalKeys) : ℕ → Bytes :=
  keyBlock fun b => P.leaEncrypt keys.encKey b

/-- Counter mode from a 32-bit counter, in either direction. -/
def crypt (P : Primitives) (keys : DirectionalKeys) (ctr : BitVec 32) (text : Bytes) : Bytes :=
  ctrMode 16 (keyStream P keys) ctr.toNat text

/-- The counter blocks of a text of `len` bytes. -/
def blocksUsed (ctr : BitVec 32) (len : ℕ) : List Bytes :=
  counterBlocks ctr.toNat (blockCount 16 len)

def sealFrame (P : Primitives) (keys : DirectionalKeys) (addr : Byte) (ctr : BitVec 32)
    (pdu : Bytes) : SecureFrame :=
  let ciphertext := crypt P keys ctr (plaintextAdu addr pdu)
  ⟨addr, ciphertext, P.hmacLsh256 keys.macKey (addr :: ciphertext)⟩

section Crypt
variable (P : Primitives) (keys : DirectionalKeys) (ctr : BitVec 32) (text : Bytes)

theorem length_keyStream (c : ℕ) : (keyStream P keys c).length = 16 :=
  (P.leaEncrypt keys.encKey _).property

@[simp] theorem length_crypt : (crypt P keys ctr text).length = text.length :=
  length_ctrMode (by omega) (length_keyStream P keys) _ _

@[simp] theorem crypt_crypt : crypt P keys ctr (crypt P keys ctr text) = text :=
  ctrMode_ctrMode (by omega) (length_keyStream P keys) _ _

theorem leaCtrCrypt_frame (is_encrypt : Bool) (h : text.length < 2 ^ 31) :
    leaCtrCrypt (fun b => P.leaEncrypt keys.encKey b) ctrHigh ctr is_encrypt text =
      ⟨crypt P keys ctr text, blocksUsed ctr text.length⟩ := by
  have hE : ∀ b, (P.leaEncrypt keys.encKey b).val.length = 16 :=
    fun b => (P.leaEncrypt keys.encKey b).property
  have hhigh : beValue ctrHigh = 0 := by decide
  rw [leaCtrCrypt_eq hE ctrHigh ctr rfl is_encrypt text h, hhigh, Nat.mul_zero, Nat.zero_add]
  rfl

end Crypt

@[simp] theorem length_plaintextAdu (addr : Byte) (pdu : Bytes) :
    (plaintextAdu addr pdu).length = pdu.length + 3 := by simp [plaintextAdu]

/-- The counter blocks that a PDU takes. -/
def aduBlocks (pdu : Bytes) : ℕ := blockCount 16 (pdu.length + 3)

theorem aduBlocks_pos (pdu : Bytes) : 0 < aduBlocks pdu := blockCount_pos (by omega) (by omega)

theorem aduBlocks_le {pdu : Bytes} (h : pdu.length ≤ maxPdu) : aduBlocks pdu ≤ 16 := by
  simp only [maxPdu] at h
  simp only [aduBlocks, blockCount]
  omega

/-- For a PDU of legal size the reservation is exactly what is encrypted. -/
theorem numBlocks_adu {pdu : Bytes} (h : pdu.length ≤ maxPdu) :
    numBlocks (pdu.length + 3) = BitVec.ofNat 32 (aduBlocks pdu) := by
  have hpos := aduBlocks_pos pdu
  have hle := aduBlocks_le h
  simp only [maxPdu] at h
  apply BitVec.eq_of_toNat_eq
  rw [numBlocks_toNat (by omega), BitVec.toNat_ofNat, ← aduBlocks, Nat.mod_eq_of_lt (by omega)]
  omega

theorem length_build_sealFrame (P : Primitives) (keys : DirectionalKeys) (addr : Byte)
    (ctr : BitVec 32) (pdu : Bytes) :
    (secureFrameBuild (sealFrame P keys addr ctr pdu)).length = pdu.length + 36 := by
  have hmac := (P.hmacLsh256 keys.macKey (addr :: crypt P keys ctr (plaintextAdu addr pdu))).property
  simp only [secureFrameBuild, sealFrame, List.length_cons, List.length_append, hmac, length_crypt,
    length_plaintextAdu, hmacLen]

theorem parse_build (frame : SecureFrame) (h : frame.ciphertext.length ≤ maxAdu) :
    secureFrameParse (secureFrameBuild frame) = some frame := by
  obtain ⟨addr, ciphertext, hmac, hlen⟩ := frame
  have hshort : ¬ (addr :: (ciphertext ++ hmac)).length < addrLen + hmacLen := by
    simp only [List.length_cons, List.length_append, hlen, addrLen]
    omega
  have hct : (addr :: (ciphertext ++ hmac)).length - (addrLen + hmacLen) = ciphertext.length := by
    simp only [List.length_cons, List.length_append, hlen, addrLen]
    omega
  have htake : List.take hmacLen hmac = hmac := List.take_of_length_le (by omega)
  simp only [secureFrameParse, secureFrameBuild, dif_neg hshort, hct]
  rw [if_neg (by simpa using h)]
  simp [addrLen, Nat.add_comm 1, htake]

theorem build_of_parse {wire : Bytes} {frame : SecureFrame} (h : secureFrameParse wire = some frame) :
    secureFrameBuild frame = wire := by
  unfold secureFrameParse at h
  split at h
  · cases h
  · rename_i hlen
    simp only at h
    split at h
    · cases h
    · obtain rfl := Option.some.inj h
      simp only [addrLen, hmacLen] at hlen
      obtain ⟨b, bs, rfl⟩ := List.exists_cons_of_length_pos (show 0 < wire.length by omega)
      simp only [List.length_cons] at hlen
      have hmac : (bs.drop (bs.length + 1 - (hmacLen + 1))).take hmacLen =
          bs.drop (bs.length + 1 - (hmacLen + 1)) := by
        apply List.take_of_length_le
        simp only [List.length_drop, hmacLen]
        omega
      simp only [secureFrameBuild, List.length_cons, List.getElem_cons_zero, addrLen,
        Nat.add_comm 1, List.drop_succ_cons, List.drop_zero, hmac]
      exact congrArg _ (List.take_append_drop _ _)

/-- With a key and a PDU of legal size the call succeeds: it seals the PDU under the
channel's next counter and stores the entry behind it. -/
theorem secureFrameEncryptAndBuild_eq {P : Primitives} {n : Node} {slave_addr : Byte} {pdu : Bytes}
    {dir : KeyDirection} {c : Channel} (hlen : pdu.length ≤ maxPdu)
    (hc : channelIndex slave_addr dir = some c) (hkey : (n.keyTable c).valid = true) :
    secureFrameEncryptAndBuild P n slave_addr pdu dir =
      (some ⟨secureFrameBuild (sealFrame P (n.keyTable c).keys slave_addr (nextValue n c) pdu),
          blocksUsed (nextValue n c) (pdu.length + 3)⟩,
        storeEntry n c (reserve (n.ctrTable c) (nextValue n c) (pdu.length + 3))) := by
  have hlong : (plaintextAdu slave_addr pdu).length < 2 ^ 31 := by
    simp only [maxPdu] at hlen
    simp only [length_plaintextAdu]
    omega
  simp only [secureFrameEncryptAndBuild, if_neg (Nat.not_lt.mpr hlen),
    keyStoreLookup_of_channel hc, hkey, if_true, ctrStateNextOutgoing_eq hc,
    leaCtrCrypt_frame _ _ _ _ _ hlong, length_plaintextAdu, sealFrame]

/-- The call fails without a trace, or it succeeds on a valid channel. -/
theorem secureFrameEncryptAndBuild_cases (P : Primitives) (n : Node) (slave_addr : Byte)
    (pdu : Bytes) (dir : KeyDirection) :
    secureFrameEncryptAndBuild P n slave_addr pdu dir = (none, n) ∨
    pdu.length ≤ maxPdu ∧ ∃ c, channelIndex slave_addr dir = some c ∧
      (n.keyTable c).valid = true := by
  by_cases hlen : pdu.length ≤ maxPdu
  · cases hlook : keyStoreLookup n.keyTable slave_addr dir with
    | none =>
      left
      simp [secureFrameEncryptAndBuild, hlook]
    | some keys =>
      obtain ⟨c, hc, hvalid, -⟩ := keyStoreLookup_eq_some hlook
      exact .inr ⟨hlen, c, hc, hvalid⟩
  · left
    simp only [secureFrameEncryptAndBuild, if_pos (Nat.lt_of_not_le hlen)]

/-- The checks in front of the counter: parsing, address, key and HMAC. -/
def authenticate (P : Primitives) (keyTable : KeyTable) (wire : Bytes) (expected_addr : Byte)
    (dir : KeyDirection) : Except SecureFrameStatus (SecureFrame × DirectionalKeys) :=
  match secureFrameParse wire with
  | none => .error .malformed
  | some frame =>
    if expected_addr ≠ anyAddr ∧ frame.addr ≠ expected_addr then .error .wrongAddr
    else match keyStoreLookup keyTable frame.addr dir with
      | none => .error .noKey
      | some keys =>
        if P.hmacLsh256 keys.macKey (frame.addr :: frame.ciphertext) ≠ frame.hmac then .error .hmac
        else .ok (frame, keys)

/-- The check behind the counter. -/
def aduIntact (adu : Bytes) : Bool := crcLen ≤ adu.length && crcCalc adu == crcRecv adu

theorem parse_ciphertext_le {wire : Bytes} {frame : SecureFrame}
    (h : secureFrameParse wire = some frame) : frame.ciphertext.length ≤ maxAdu := by
  unfold secureFrameParse at h
  split at h
  · cases h
  · simp only at h
    split at h
    · cases h
    · rename_i hle
      obtain rfl := Option.some.inj h
      simp only [List.length_take]
      omega

/-- A frame that fails one of the first four checks leaves the process as it was. -/
theorem verify_of_error {P : Primitives} {n : Node} {wire : Bytes} {expected_addr : Byte}
    {dir : KeyDirection} {s : SecureFrameStatus}
    (h : authenticate P n.keyTable wire expected_addr dir = .error s) :
    s ≠ .ok ∧ s ≠ .crc ∧
    (secureFrameVerifyAndDecrypt P n wire expected_addr dir).1.status = s ∧
    (secureFrameVerifyAndDecrypt P n wire expected_addr dir).1.used = [] ∧
    (secureFrameVerifyAndDecrypt P n wire expected_addr dir).2 = n := by
  unfold authenticate at h
  unfold secureFrameVerifyAndDecrypt
  cases hp : secureFrameParse wire with
  | none =>
    rw [hp] at h
    cases h
    exact ⟨by decide, by decide, rfl, rfl, rfl⟩
  | some frame =>
    simp only [hp] at h ⊢
    split at h
    · rename_i hex
      cases h
      rw [if_pos hex]
      exact ⟨by decide, by decide, rfl, rfl, rfl⟩
    · rename_i hex
      rw [if_neg hex]
      cases hk : keyStoreLookup n.keyTable frame.addr dir with
      | none =>
        rw [hk] at h
        cases h
        exact ⟨by decide, by decide, rfl, rfl, rfl⟩
      | some keys =>
        simp only [hk] at h ⊢
        split at h
        · rename_i hmac
          cases h
          rw [if_pos hmac]
          exact ⟨by decide, by decide, rfl, rfl, rfl⟩
        · cases h

theorem authenticate_ok {P : Primitives} {keyTable : KeyTable} {wire : Bytes} {expected_addr : Byte}
    {dir : KeyDirection} {frame : SecureFrame} {keys : DirectionalKeys}
    (h : authenticate P keyTable wire expected_addr dir = .ok (frame, keys)) :
    secureFrameParse wire = some frame ∧
    (expected_addr = anyAddr ∨ frame.addr = expected_addr) ∧
    keyStoreLookup keyTable frame.addr dir = some keys ∧
    P.hmacLsh256 keys.macKey (frame.addr :: frame.ciphertext) = frame.hmac := by
  unfold authenticate at h
  cases hp : secureFrameParse wire with
  | none => simp [hp] at h
  | some f =>
    simp only [hp] at h
    split at h
    · cases h
    · rename_i hex
      cases hk : keyStoreLookup keyTable f.addr dir with
      | none => simp [hk] at h
      | some k =>
        simp only [hk] at h
        split at h
        · cases h
        · rename_i hmac
          cases h
          refine ⟨by rfl, ?_, hk, not_not.mp hmac⟩
          by_contra hcon
          exact hex (not_or.mp hcon)

/-- An authentic frame moves its channel's counter whatever the CRC then says. -/
theorem verify_of_ok {P : Primitives} {n : Node} {wire : Bytes} {expected_addr : Byte}
    {dir : KeyDirection} {frame : SecureFrame} {keys : DirectionalKeys} {c : Channel}
    (h : authenticate P n.keyTable wire expected_addr dir = .ok (frame, keys))
    (hc : channelIndex frame.addr dir = some c) :
    let adu := crypt P keys (nextValue n c) frame.ciphertext
    let r := secureFrameVerifyAndDecrypt P n wire expected_addr dir
    r.1.status = (if aduIntact adu then .ok else .crc) ∧
    r.1.outAddr = some frame.addr ∧
    (r.1.status = .ok → r.1.outPduLen = some (pduLength frame.ciphertext.length) ∧
      r.1.outPdu = some ((adu.drop addrLen).take (pduLength frame.ciphertext.length))) ∧
    r.1.used = blocksUsed (nextValue n c) frame.ciphertext.length ∧
    r.2 = storeEntry n c (reserve (n.ctrTable c) (nextValue n c) frame.ciphertext.length) := by
  intro adu r
  obtain ⟨hp, hex, hk, hmac⟩ := authenticate_ok h
  have hlong : frame.ciphertext.length < 2 ^ 31 := by
    have := parse_ciphertext_le hp
    simp only [maxAdu, addrLen, maxPdu, crcLen] at this
    omega
  have hadu : adu.length = frame.ciphertext.length := length_crypt ..
  have hexp : ¬ (expected_addr ≠ anyAddr ∧ frame.addr ≠ expected_addr) := by tauto
  simp only [r, secureFrameVerifyAndDecrypt, hp, if_neg hexp, hk, if_neg (not_not.mpr hmac),
    ctrStateNextOutgoing_eq hc, leaCtrCrypt_frame _ _ _ _ _ hlong]
  rw [aduIntact, hadu]
  by_cases hshort : frame.ciphertext.length < crcLen
  · have hle : ¬ crcLen ≤ frame.ciphertext.length := by omega
    simp [if_pos hshort, hle]
  · have hle : crcLen ≤ frame.ciphertext.length := by omega
    rw [if_neg hshort]
    by_cases hcrc : crcCalc adu = crcRecv adu
    · simp [adu, hle, hcrc]
    · simp [adu, hle, hcrc]

theorem bytes_of_crc (x : BitVec 16) :
    (x.setWidth 8).setWidth 16 ||| ((x >>> 8).setWidth 8).setWidth 16 <<< 8 = x := by
  apply BitVec.eq_of_getLsbD_eq
  intro i hi
  by_cases h : i < 8
  · simp [h, hi]
  · have : i - 8 < 8 := by omega
    simp [h, hi, this, show 8 + (i - 8) = i by omega]

/-- The two bytes do not overlap, so they may as well be joined by exclusive or. -/
theorem crcRecv_eq_xor (adu : Bytes) : crcRecv adu =
    (adu.getD (adu.length - 2) 0).setWidth 16 ^^^ (adu.getD (adu.length - 1) 0).setWidth 16 <<< 8 := by
  rw [crcRecv]
  generalize adu.getD (adu.length - 2) 0 = lo
  generalize adu.getD (adu.length - 1) 0 = hi
  apply BitVec.eq_of_getLsbD_eq
  intro i h
  by_cases h8 : i < 8
  · simp [h, h8]
  · simp [h, h8, BitVec.getLsbD_of_ge lo i (by omega)]

/-- The two bytes are read back from the value that they were compared as. -/
theorem crc_of_bytes (low high : Byte) :
    (low.setWidth 16 ||| high.setWidth 16 <<< 8).setWidth 8 = low ∧
      ((low.setWidth 16 ||| high.setWidth 16 <<< 8) >>> 8).setWidth 8 = high := by
  constructor
  · apply BitVec.eq_of_getLsbD_eq
    intro i hi
    simp [hi]
  · apply BitVec.eq_of_getLsbD_eq
    intro i hi
    have : 8 + i < 16 := by omega
    simp [hi, this]

theorem aduIntact_plaintextAdu (addr : Byte) (pdu : Bytes) :
    aduIntact (plaintextAdu addr pdu) = true := by
  have hcalc : crcCalc (plaintextAdu addr pdu) = secureFrameCrc16 (addr :: pdu) := by
    rw [crcCalc, length_plaintextAdu]
    simp [plaintextAdu, crcLen]
  have hrecv : crcRecv (plaintextAdu addr pdu) = secureFrameCrc16 (addr :: pdu) := by
    rw [crcRecv, length_plaintextAdu]
    simp [plaintextAdu, List.getD_eq_getElem?_getD, bytes_of_crc]
  simp [aduIntact, hcalc, hrecv, crcLen]

/-- Whoever holds the MAC key of a channel can have any ciphertext accepted by the HMAC. -/
theorem authenticate_build {P : Primitives} {keyTable : KeyTable} {addr expected_addr : Byte}
    {dir : KeyDirection} {c : Channel} {ciphertext : Bytes} (hlen : ciphertext.length ≤ maxAdu)
    (hc : channelIndex addr dir = some c) (hkey : (keyTable c).valid = true)
    (hex : expected_addr = addr ∨ expected_addr = anyAddr) :
    let frame := ⟨addr, ciphertext, P.hmacLsh256 (keyTable c).keys.macKey (addr :: ciphertext)⟩
    authenticate P keyTable (secureFrameBuild frame) expected_addr dir =
      .ok (frame, (keyTable c).keys) := by
  intro frame
  have hexp : ¬ (expected_addr ≠ anyAddr ∧ addr ≠ expected_addr) := by
    rintro ⟨h1, h2⟩
    rcases hex with rfl | rfl
    · exact h2 rfl
    · exact h1 rfl
  rw [authenticate, parse_build frame hlen]
  simp [frame, hexp, keyStoreLookup_of_channel hc, hkey]

theorem authenticate_sealFrame {P : Primitives} {keyTable : KeyTable} {addr expected_addr : Byte}
    {dir : KeyDirection} {c : Channel} {pdu : Bytes} (hlen : pdu.length ≤ maxPdu)
    (hc : channelIndex addr dir = some c) (hkey : (keyTable c).valid = true)
    (hex : expected_addr = addr ∨ expected_addr = anyAddr) (ctr : BitVec 32) :
    authenticate P keyTable (secureFrameBuild (sealFrame P (keyTable c).keys addr ctr pdu))
      expected_addr dir = .ok (sealFrame P (keyTable c).keys addr ctr pdu, (keyTable c).keys) := by
  apply authenticate_build _ hc hkey hex
  simp only [maxPdu] at hlen
  simp only [length_crypt, length_plaintextAdu, maxAdu, addrLen, maxPdu, crcLen]
  omega

theorem pduLength_add (len : ℕ) (h : len ≤ maxPdu) : pduLength (len + 3) = len := by
  simp only [maxPdu] at h
  simp only [pduLength, addrLen, crcLen]
  omega

/-- An honest frame, sealed under any counter: its channel's counter moves by the blocks of
the frame, and the CRC of what the receiver's counter makes of it decides. -/
theorem verify_sealFrame_any {P : Primitives} {n : Node} {addr expected_addr : Byte}
    {dir : KeyDirection} {c : Channel} {pdu : Bytes} (hlen : pdu.length ≤ maxPdu)
    (hc : channelIndex addr dir = some c) (hkey : (n.keyTable c).valid = true)
    (hex : expected_addr = addr ∨ expected_addr = anyAddr) (ctr : BitVec 32) :
    let keys := (n.keyTable c).keys
    let adu := crypt P keys (nextValue n c) (crypt P keys ctr (plaintextAdu addr pdu))
    let r := secureFrameVerifyAndDecrypt P n (secureFrameBuild (sealFrame P keys addr ctr pdu))
      expected_addr dir
    r.1.status = (if aduIntact adu then .ok else .crc) ∧ r.1.outAddr = some addr ∧
    (r.1.status = .ok → r.1.outPduLen = some pdu.length ∧
      r.1.outPdu = some ((adu.drop addrLen).take pdu.length)) ∧
    r.2 = storeEntry n c (reserve (n.ctrTable c) (nextValue n c) (pdu.length + 3)) := by
  obtain ⟨hs, ha, hp, -, hn⟩ := verify_of_ok (authenticate_sealFrame hlen hc hkey hex ctr) hc
  simp only [sealFrame, length_crypt, length_plaintextAdu, pduLength_add _ hlen] at hs ha hp hn
  exact ⟨hs, ha, hp, hn⟩

/-- A frame sealed under the counter the receiver is at is opened to its PDU. -/
theorem verify_sealFrame {P : Primitives} {n : Node} {addr expected_addr : Byte}
    {dir : KeyDirection} {c : Channel} {pdu : Bytes} (hlen : pdu.length ≤ maxPdu)
    (hc : channelIndex addr dir = some c) (hkey : (n.keyTable c).valid = true)
    (hex : expected_addr = addr ∨ expected_addr = anyAddr) :
    let wire := secureFrameBuild (sealFrame P (n.keyTable c).keys addr (nextValue n c) pdu)
    let r := secureFrameVerifyAndDecrypt P n wire expected_addr dir
    r.1.status = .ok ∧ r.1.outAddr = some addr ∧ r.1.outPdu = some pdu ∧
    r.1.outPduLen = some pdu.length ∧
    r.2 = storeEntry n c (reserve (n.ctrTable c) (nextValue n c) (pdu.length + 3)) := by
  intro wire r
  obtain ⟨hs, ha, hp, hn⟩ := verify_sealFrame_any (P := P) hlen hc hkey hex (nextValue n c)
  rw [crypt_crypt] at hs hp
  rw [aduIntact_plaintextAdu, if_pos rfl] at hs
  obtain ⟨hpl, hpdu⟩ := hp hs
  refine ⟨hs, ha, hpdu.trans ?_, hpl, hn⟩
  simp [plaintextAdu, addrLen]

end ModbusSecurity.SecureFraming
