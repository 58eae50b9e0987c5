import ModbusSecurity.CyclicCounters
import ModbusSecurity.SecureFraming
import ModbusSecurity.TransitionRuns

/-! # Frames delivered out of step

The HMAC does not cover the counter, so whether a frame of another counter is accepted is
up to the CRC16. It is linear: the verdict depends on the two keystreams alone. -/
namespace ModbusSecurity.FrameAcceptance
open ByteStrings CounterMode LeaOnline KeyStore CounterFile CounterState ReflectedCrc SecureFraming
  TransitionRuns CyclicCounters

/-- The exclusive or of two keystreams over `len` bytes. -/
def keystreamMask (P : Primitives) (keys : DirectionalKeys) (v w : BitVec 32) (len : ℕ) : Bytes :=
  (xorBytes (stream (keyStream P keys) v.toNat (blockCount 16 len))
    (stream (keyStream P keys) w.toNat (blockCount 16 len))).take len

/-- What the mask does to the CRC check. -/
def keystreamResidue (P : Primitives) (keys : DirectionalKeys) (v w : BitVec 32) (len : ℕ) :
    BitVec 16 :=
  let mask := keystreamMask P keys v w len
  crcBytes 0xA001 0 (mask.take (len - crcLen)) ^^^ crcRecv mask

private theorem getD_xorBytes {a b : Bytes} (h : a.length = b.length) (i : ℕ) :
    (xorBytes a b).getD i 0 = a.getD i 0 ^^^ b.getD i 0 := by
  by_cases hi : i < a.length
  · have hj : i < b.length := h ▸ hi
    rw [List.getD_eq_getElem?_getD, getElem?_xorBytes hi hj]
    simp [hi, hj]
  · have hj : ¬ i < b.length := h ▸ hi
    simp [List.getD_eq_getElem?_getD, xorBytes, hi, hj]

private theorem crcRecv_xorBytes {a b : Bytes} (h : a.length = b.length) :
    crcRecv (xorBytes a b) = crcRecv a ^^^ crcRecv b := by
  have hl : (xorBytes a b).length = a.length := by simp [h]
  rw [crcRecv_eq_xor, crcRecv_eq_xor, crcRecv_eq_xor, hl, ← h]
  simp only [getD_xorBytes h, BitVec.setWidth_xor, BitVec.shiftLeft_xor_distrib]
  ac_rfl

private theorem crcCalc_xorBytes {a b : Bytes} (h : a.length = b.length) :
    crcCalc (xorBytes a b) = crcCalc a ^^^ crcBytes 0xA001 0 (b.take (b.length - crcLen)) := by
  have hl : (xorBytes a b).length = a.length := by simp [h]
  have htake : (xorBytes a b).take (a.length - crcLen) =
      xorBytes (a.take (a.length - crcLen)) (b.take (a.length - crcLen)) := by
    simp [xorBytes, List.take_zipWith]
  rw [crcCalc, hl, htake, secureFrameCrc16, ← h]
  have hlin := crcBytes_xor (0xA001 : BitVec 16) 0xFFFF 0
    (show (a.take (a.length - crcLen)).length = (b.take (a.length - crcLen)).length by simp [h])
  rw [show (0xFFFF : BitVec 16) ^^^ 0 = 0xFFFF from rfl] at hlin
  exact hlin

theorem length_keystreamMask (P : Primitives) (keys : DirectionalKeys) (v w : BitVec 32) (len : ℕ) :
    (keystreamMask P keys v w len).length = len := by
  have := blockCount_le_length (show 0 < 16 by omega) len
  simp only [keystreamMask, List.length_take, length_xorBytes,
    length_stream (length_keyStream P keys)]
  omega

/-- An honest ADU survives the wrong counter exactly if the residue vanishes. -/
theorem aduIntact_mismatch (P : Primitives) (keys : DirectionalKeys) (addr : Byte) (pdu : Bytes)
    (v w : BitVec 32) :
    aduIntact (crypt P keys w (crypt P keys v (plaintextAdu addr pdu))) = true ↔
      keystreamResidue P keys v w (pdu.length + 3) = 0 := by
  have hintact := aduIntact_plaintextAdu addr pdu
  have hlen := length_plaintextAdu addr pdu
  generalize plaintextAdu addr pdu = adu at hintact hlen
  have hmask := length_keystreamMask P keys v w (pdu.length + 3)
  have hmix : crypt P keys w (crypt P keys v adu) =
      xorBytes adu (keystreamMask P keys v w (pdu.length + 3)) := by
    rw [crypt, crypt, ctrMode_mismatch (by omega) (length_keyStream P keys), hlen, keystreamMask,
      ← hlen, xorBytes_take_right]
  simp only [aduIntact, hlen, Bool.and_eq_true, beq_iff_eq] at hintact
  rw [hmix, aduIntact, crcCalc_xorBytes (by omega), crcRecv_xorBytes (by omega), hintact.2, hmask,
    keystreamResidue]
  simp only [length_xorBytes, hlen, hmask, Nat.min_self, hintact.1, Bool.and_eq_true, true_and,
    beq_iff_eq, BitVec.xor_right_inj]
  constructor
  · intro h
    rw [h]
    exact BitVec.xor_self
  · intro h
    exact BitVec.xor_eq_zero_iff.mp h

theorem keystreamResidue_self (P : Primitives) (keys : DirectionalKeys) (v : BitVec 32) (pdu : Bytes) :
    keystreamResidue P keys v v (pdu.length + 3) = 0 := by
  rw [← aduIntact_mismatch P keys 0, crypt_crypt]
  exact aduIntact_plaintextAdu 0 pdu

/-- A frame, what was sent in it, and the counter it was sealed under. -/
structure SentFrame where
  ctr : BitVec 32
  pdu : Bytes
  wire : Bytes

/-- The frames of a sequence of PDUs. -/
def sendAll (P : Primitives) (slave_addr : Byte) (dir : KeyDirection) (c : Channel) :
    Node → List Bytes → List SentFrame
  | _, [] => []
  | n, pdu :: pdus =>
    let r := secureFrameEncryptAndBuild P n slave_addr pdu dir
    match r.1 with
    | none => sendAll P slave_addr dir c r.2 pdus
    | some b => ⟨nextValue n c, pdu, b.wire⟩ :: sendAll P slave_addr dir c r.2 pdus

/-- The receiver takes the next frame. -/
def receive (P : Primitives) (expected_addr : Byte) (dir : KeyDirection) (n : Node) (f : SentFrame) :
    Node := (secureFrameVerifyAndDecrypt P n f.wire expected_addr dir).2

/-- The PDUs of the deliveries that are answered `SECURE_FRAME_OK`. -/
def accepted (P : Primitives) (expected_addr : Byte) (dir : KeyDirection) :
    Node → List SentFrame → List Bytes
  | _, [] => []
  | n, f :: fs =>
    let r := secureFrameVerifyAndDecrypt P n f.wire expected_addr dir
    (if r.1.status = .ok then r.1.outPdu.toList else []) ++ accepted P expected_addr dir r.2 fs

/-- A schedule names the frames to deliver, in order, with repetitions and omissions. -/
def delivered (frames : List SentFrame) (schedule : List ℕ) : List SentFrame :=
  schedule.filterMap (frames[·]?)

/-- Only what was sent is accepted, under every schedule. -/
def OnlySentAccepted (P : Primitives) : Prop :=
  ∀ (sender receiver : Node) (slave_addr : Byte) (dir : KeyDirection) (c : Channel),
    channelIndex slave_addr dir = some c → SameKey sender receiver c → InStep sender receiver c →
    ∀ pdus : List Bytes, (∀ pdu ∈ pdus, pdu.length ≤ maxPdu) → ∀ schedule : List ℕ,
      (accepted P slave_addr dir receiver
        (delivered (sendAll P slave_addr dir c sender pdus) schedule)).Sublist pdus

/-- The frame of a PDU and its place in the counter sequence from `v` on. -/
def frameAt (P : Primitives) (keys : DirectionalKeys) (addr : Byte) (v : BitVec 32)
    (e : ℕ × Bytes) : SentFrame :=
  let ctr := v + BitVec.ofNat 32 e.1
  ⟨ctr, e.2, secureFrameBuild (sealFrame P keys addr ctr e.2)⟩

section Channel
variable {P : Primitives} {slave_addr expected_addr : Byte} {dir : KeyDirection} {c : Channel}

/-- Behind a frame the counter is further by the blocks of the frame. -/
theorem nextValue_behind {n : Node} {pdu : Bytes} {v : BitVec 32} {off : ℕ}
    (hlen : pdu.length ≤ maxPdu) (hv : nextValue n c = v + BitVec.ofNat 32 off) :
    nextValue (storeEntry n c (reserve (n.ctrTable c) (nextValue n c) (pdu.length + 3))) c =
      v + BitVec.ofNat 32 (off + aduBlocks pdu) := by
  rw [nextValue_reserve, hv, numBlocks_adu hlen, BitVec.ofNat_add, BitVec.add_assoc]

theorem sendAll_eq {n : Node} {pdus : List Bytes} {v : BitVec 32} {off : ℕ}
    (hc : channelIndex slave_addr dir = some c) (hkey : (n.keyTable c).valid = true)
    (hlen : ∀ pdu ∈ pdus, pdu.length ≤ maxPdu) (hv : nextValue n c = v + BitVec.ofNat 32 off) :
    sendAll P slave_addr dir c n pdus =
      (places aduBlocks off pdus).map (frameAt P (n.keyTable c).keys slave_addr v) := by
  induction pdus generalizing n off with
  | nil => rfl
  | cons pdu pdus ih =>
    have hfit := hlen pdu (by simp)
    have hbuild := secureFrameEncryptAndBuild_eq (P := P) hfit hc hkey
    rw [sendAll, hbuild]
    simp only [places, List.map_cons]
    rw [ih (by exact hkey) (fun q hq => hlen q (by simp [hq])) (nextValue_behind hfit hv), frameAt, hv]
    rfl

theorem delivered_map (g : ℕ × Bytes → SentFrame) (es : List (ℕ × Bytes)) (schedule : List ℕ) :
    delivered (es.map g) schedule = (schedule.filterMap (es[·]?)).map g := by
  simp [delivered, List.map_filterMap]

/-- The verdict on an honest frame is the residue's, and its blocks are gone either way. -/
theorem verify_frameAt {n : Node} {v : BitVec 32} {e : ℕ × Bytes}
    (hc : channelIndex slave_addr dir = some c) (hkey : (n.keyTable c).valid = true)
    (hex : expected_addr = slave_addr ∨ expected_addr = anyAddr) (hlen : e.2.length ≤ maxPdu) :
    let f := frameAt P (n.keyTable c).keys slave_addr v e
    let r := secureFrameVerifyAndDecrypt P n f.wire expected_addr dir
    r.1.status = (if keystreamResidue P (n.keyTable c).keys f.ctr (nextValue n c)
      (f.pdu.length + 3) = 0 then .ok else .crc) ∧
    (f.ctr = nextValue n c → r.1.outPdu = some e.2) ∧
    r.2 = storeEntry n c (reserve (n.ctrTable c) (nextValue n c) (e.2.length + 3)) := by
  intro f r
  obtain ⟨hs, -, -, hn⟩ := verify_sealFrame_any (P := P) hlen hc hkey hex f.ctr
  refine ⟨hs.trans ?_, fun hctr => ?_, hn⟩
  · exact if_congr (aduIntact_mismatch P _ slave_addr e.2 f.ctr (nextValue n c)) rfl rfl
  · obtain ⟨-, -, hpdu, -⟩ := verify_sealFrame (P := P) hlen hc hkey hex
    have hwire : f.wire = secureFrameBuild (sealFrame P (n.keyTable c).keys slave_addr f.ctr e.2) := rfl
    rw [hctr] at hwire
    simp only [r, hwire]
    exact hpdu

/-- Every frame of a delivery is judged by the residue. -/
theorem judged_by_residue {n : Node} {v : BitVec 32} (hc : channelIndex slave_addr dir = some c)
    (hkey : (n.keyTable c).valid = true) (hex : expected_addr = slave_addr ∨ expected_addr = anyAddr)
    {fs : List (ℕ × Bytes)} (hlen : ∀ e ∈ fs, e.2.length ≤ maxPdu) :
    Always (receive P expected_addr dir) (fun m f =>
      (secureFrameVerifyAndDecrypt P m f.wire expected_addr dir).1.status =
        if keystreamResidue P (n.keyTable c).keys f.ctr (nextValue m c) (f.pdu.length + 3) = 0
        then .ok else .crc) n (fs.map (frameAt P (n.keyTable c).keys slave_addr v)) := by
  induction fs generalizing n with
  | nil => trivial
  | cons e fs ih =>
    obtain ⟨hs, -, hn⟩ := verify_frameAt (P := P) (v := v) hc hkey hex (hlen e (by simp))
    have hrest := ih (n := storeEntry n c (reserve (n.ctrTable c) (nextValue n c) (e.2.length + 3)))
      hkey fun a ha => hlen a (by simp [ha])
    rw [List.map_cons]
    refine And.intro hs ?_
    rw [receive, hn]
    exact hrest

/-- A frame met at the wrong counter leaves a residue. -/
def Detected (P : Primitives) (keys : DirectionalKeys) (c : Channel) (n : Node) (f : SentFrame) :
    Prop :=
  f.ctr ≠ nextValue n c → keystreamResidue P keys f.ctr (nextValue n c) (f.pdu.length + 3) ≠ 0

private theorem position_eq {v : BitVec 32} {a b : ℕ} (ha : a < 2 ^ 32) (hb : b < 2 ^ 32)
    (h : v + BitVec.ofNat 32 a = v + BitVec.ofNat 32 b) : a = b := by
  have := congrArg BitVec.toNat (BitVec.add_right_inj v |>.mp h)
  simp only [BitVec.toNat_ofNat] at this
  rwa [Nat.mod_eq_of_lt ha, Nat.mod_eq_of_lt hb] at this

/-- The receiver's position only grows, so what it accepts lies ahead in sending order. -/
theorem accepted_sublist_ahead {v : BitVec 32} {es : List (ℕ × Bytes)} {keys : DirectionalKeys}
    (hc : channelIndex slave_addr dir = some c)
    (hex : expected_addr = slave_addr ∨ expected_addr = anyAddr)
    (hes : es.Pairwise fun a b => a.1 + aduBlocks a.2 ≤ b.1)
    (hsmall : ∀ e ∈ es, e.1 < 2 ^ 32 ∧ e.2.length ≤ maxPdu) (fs : List (ℕ × Bytes))
    (hfs : ∀ e ∈ fs, e ∈ es) {n : Node} {pos : ℕ} (hkey : (n.keyTable c).valid = true)
    (hkeys : (n.keyTable c).keys = keys) (hpos : nextValue n c = v + BitVec.ofNat 32 pos)
    (htotal : pos + total aduBlocks (fs.map Prod.snd) ≤ 2 ^ 32)
    (hdet : Always (receive P expected_addr dir) (Detected P keys c) n
      (fs.map (frameAt P keys slave_addr v))) :
    (accepted P expected_addr dir n (fs.map (frameAt P keys slave_addr v))).Sublist
      ((es.filter fun a => decide (pos ≤ a.1)).map Prod.snd) := by
  induction fs generalizing n pos with
  | nil => exact List.nil_sublist _
  | cons e fs ih =>
    obtain ⟨hoff, hlen⟩ := hsmall e (hfs e (by simp))
    have hblocks := aduBlocks_pos e.2
    subst hkeys
    obtain ⟨hs, hp, hn⟩ := verify_frameAt (P := P) (v := v) hc hkey hex hlen
    simp only [List.map_cons, total_cons] at htotal hdet
    have htail := hdet.2
    rw [receive, hn] at htail
    have hrest := ih (fun a ha => hfs a (by simp [ha])) (by exact hkey) (by rfl)
      (nextValue_behind hlen hpos) (by omega) htail
    simp only [List.map_cons, accepted, hn]
    by_cases hctr : e.1 = pos
    · have hsame : (frameAt P (n.keyTable c).keys slave_addr v e).ctr = nextValue n c := by
        rw [hpos, ← hctr]
        rfl
      have hok := hs.trans (if_pos (by rw [hsame]; exact keystreamResidue_self P _ _ e.2))
      rw [if_pos hok, hp hsame, ← hctr]
      rw [← hctr] at hrest
      have hfirst := (cons_sublist_places hes aduBlocks_pos (hfs e (by simp))).map Prod.snd
      exact (hrest.cons_cons e.2).trans hfirst
    · have hne : (frameAt P (n.keyTable c).keys slave_addr v e).ctr ≠ nextValue n c := by
        intro h
        rw [hpos] at h
        exact hctr (position_eq hoff (by omega) h)
      have hcrc := hs.trans (if_neg (hdet.1 hne))
      rw [if_neg (by rw [hcrc]; decide), List.nil_append]
      refine hrest.trans (List.Sublist.map _ (List.monotone_filter_right es fun a => ?_))
      simp only [decide_eq_true_eq]
      omega

/-- Every delivery is judged by the residue of the two keystreams alone; while no frame that
is out of step has residue zero and the counter does not come round, what is accepted is a
subsequence of what was sent. -/
theorem accepted_is_subsequence {sender receiver : Node}
    (hc : channelIndex slave_addr dir = some c) (hkey : SameKey sender receiver c)
    (hctr : InStep sender receiver c)
    (hex : expected_addr = slave_addr ∨ expected_addr = anyAddr) {pdus : List Bytes}
    (hlen : ∀ pdu ∈ pdus, pdu.length ≤ maxPdu) (schedule : List ℕ) :
    let fs := delivered (sendAll P slave_addr dir c sender pdus) schedule
    let keys := (receiver.keyTable c).keys
    Always (receive P expected_addr dir) (fun n f =>
      (secureFrameVerifyAndDecrypt P n f.wire expected_addr dir).1.status =
        if keystreamResidue P keys f.ctr (nextValue n c) (f.pdu.length + 3) = 0 then .ok else .crc)
      receiver fs ∧
    (total aduBlocks pdus ≤ 2 ^ 32 → total aduBlocks (fs.map SentFrame.pdu) ≤ 2 ^ 32 →
      Always (receive P expected_addr dir) (Detected P keys c) receiver fs →
      (accepted P expected_addr dir receiver fs).Sublist pdus) := by
  intro fs keys
  obtain ⟨hsender, hreceiver, hsame⟩ := hkey
  have hnext := nextValue_of_inStep ⟨hsender, hreceiver, hsame⟩ hctr
  have hstart : nextValue sender c = nextValue receiver c + BitVec.ofNat 32 0 := by
    rw [hnext]
    exact (BitVec.add_zero _).symm
  let g := frameAt P keys slave_addr (nextValue receiver c)
  let es := places aduBlocks 0 pdus
  let ds := schedule.filterMap (es[·]?)
  have hds : ∀ e ∈ ds, e ∈ es := by
    intro e he
    obtain ⟨i, -, hi⟩ := List.mem_filterMap.mp he
    exact List.mem_of_getElem? hi
  have hfs : fs = ds.map g := by
    simp only [fs, sendAll_eq hc hsender hlen hstart, hsame, delivered_map]
    rfl
  have hfits : ∀ e ∈ es, e.2.length ≤ maxPdu := fun e he => hlen _ (places_bounds he).2.2
  rw [hfs]
  constructor
  · exact judged_by_residue hc hreceiver hex fun e he => hfits e (hds e he)
  · intro hsent hrecv hdet
    have hpdus : (ds.map g).map SentFrame.pdu = ds.map Prod.snd := by
      rw [List.map_map]
      rfl
    have hsmall : ∀ e ∈ es, e.1 < 2 ^ 32 ∧ e.2.length ≤ maxPdu := by
      intro e he
      have hb := (places_bounds he).2.1
      have := aduBlocks_pos e.2
      exact ⟨by omega, hfits e he⟩
    rw [hpdus] at hrecv
    have hsub := accepted_sublist_ahead hc hex (places_increasing 0 pdus) hsmall ds hds hreceiver rfl
      (BitVec.add_zero (nextValue receiver c)).symm (by omega) hdet
    have hall : (es.filter fun a => decide (0 ≤ a.1)) = es := by simp
    rwa [hall, map_snd_places] at hsub

end Channel

/-- `0000000000001546`, for both keys. -/
def collisionKeys : DirectionalKeys :=
  let key : KeyBytes := ⟨[0x30, 0x30, 0x30, 0x30, 0x30, 0x30, 0x30, 0x30, 0x30, 0x30, 0x30, 0x30, 0x31,
    0x35, 0x34, 0x36], rfl⟩
  ⟨key, key⟩

def collisionNode : Node :=
  { startProcess ⟨fun _ => none, []⟩ with keyTable := fun _ => ⟨true, collisionKeys, 0⟩ }

/-- Write 42 to holding register 1. -/
def writeRequest : Bytes := [0x10, 0x00, 0x01, 0x00, 0x01, 0x02, 0x00, 0x2A]

/-- The same loss with a shorter request is detected. -/
theorem accepted_is_subsequence_lost_frame :
    let P := leaPrimitives fun _ _ => ⟨List.replicate 32 0, rfl⟩
    let pdus : List Bytes := [[0x03, 0x00, 0x00, 0x00, 0x02], [0x03, 0x00, 0x00, 0x00, 0x02]]
    (accepted P 1 .masterToSlave collisionNode
      (delivered (sendAll P 1 .masterToSlave (1, 0) collisionNode pdus) [1])).Sublist pdus := by
  intro P pdus
  have hc : channelIndex 1 .masterToSlave = some (1, 0) := rfl
  have hkey : (collisionNode.keyTable (1, 0)).valid = true := rfl
  have hlen : ∀ pdu ∈ pdus, pdu.length ≤ maxPdu := by decide
  have hex : (1 : Byte) = 1 ∨ (1 : Byte) = anyAddr := .inl rfl
  have hstart : nextValue collisionNode (1, 0) = 0 + BitVec.ofNat 32 0 := rfl
  have hsecond : delivered (sendAll P 1 .masterToSlave (1, 0) collisionNode pdus) [1] =
      [frameAt P collisionKeys 1 0 (1, [0x03, 0x00, 0x00, 0x00, 0x02])] := by
    rw [sendAll_eq hc hkey hlen hstart, delivered_map]
    rfl
  have hresidue : keystreamResidue P collisionKeys 1 0 8 ≠ 0 := by decide +kernel
  have h := (accepted_is_subsequence (P := P) hc ⟨hkey, hkey, rfl⟩ (.inr ⟨rfl, rfl, rfl⟩) hex hlen
    [1]).2
  rw [hsecond] at h ⊢
  exact h (by decide) (by decide) ⟨fun _ => hresidue, trivial⟩

private theorem collision :
    let stream := keyBlock (LeaCipher.leaEncrypt collisionKeys.encKey)
    let adu := ctrMode 16 stream (0 : BitVec 32).toNat
      (ctrMode 16 stream (1 : BitVec 32).toNat (plaintextAdu 1 writeRequest))
    aduIntact adu = true ∧ (adu.drop addrLen).take writeRequest.length ≠ writeRequest := by
  decide +kernel

/-- With LEA and any MAC: two requests are sent and the first is lost. The second is
decrypted under the counter of the first, its CRC happens to match, and other bytes than
those sent are accepted. -/
theorem lost_frame_collision : ¬ ∃ mac, OnlySentAccepted (leaPrimitives mac) := by
  rintro ⟨mac, h⟩
  have hc : channelIndex 1 .masterToSlave = some (1, 0) := rfl
  have hkey : (collisionNode.keyTable (1, 0)).valid = true := rfl
  have hlen : ∀ pdu ∈ [writeRequest, writeRequest], pdu.length ≤ maxPdu := by decide
  have hstart : nextValue collisionNode (1, 0) = 0 + BitVec.ofNat 32 0 := rfl
  have hsub := h collisionNode collisionNode 1 .masterToSlave (1, 0) hc ⟨rfl, rfl, rfl⟩
    (.inr ⟨rfl, rfl, rfl⟩) [writeRequest, writeRequest] hlen [1]
  have hsecond : [1].filterMap ((places aduBlocks 0 [writeRequest, writeRequest])[·]?) =
    [(1, writeRequest)] := rfl
  rw [sendAll_eq hc hkey hlen hstart, delivered_map, hsecond] at hsub
  obtain ⟨hs, -, hp, -⟩ := verify_sealFrame_any (P := leaPrimitives mac) (n := collisionNode)
    (hlen writeRequest (by simp)) hc hkey (.inl (by rfl : (1 : Byte) = 1)) 1
  obtain ⟨hintact, hother⟩ := collision
  have hok := hs.trans (if_pos hintact)
  rw [List.map_singleton, accepted, accepted, List.append_nil] at hsub
  have hwire : (frameAt (leaPrimitives mac) (collisionNode.keyTable (1, 0)).keys 1 0
      (1, writeRequest)).wire = secureFrameBuild
        (sealFrame (leaPrimitives mac) (collisionNode.keyTable (1, 0)).keys 1 1 writeRequest) := rfl
  rw [hwire, if_pos hok, (hp hok).2] at hsub
  have hmem := hsub.subset (List.mem_singleton_self _)
  simp only [List.mem_cons, List.not_mem_nil, or_false, or_self] at hmem
  exact hother hmem

end ModbusSecurity.FrameAcceptance
