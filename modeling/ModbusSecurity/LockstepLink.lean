import ModbusSecurity.SecureFraming
import ModbusSecurity.TransitionRuns

/-! # A sender, a receiver and the line between them

Frames of every channel are delivered once each and in order; anything that fails one of
the first four checks of the decoder may be inserted anywhere. -/
namespace ModbusSecurity.LockstepLink
open ByteStrings KeyStore CounterFile CounterState SecureFraming TransitionRuns

/-- A frame on the line, what was sent in it, and the sender's `next_out` after sending. -/
structure Frame where
  wire : Bytes
  pdu : Bytes
  after : BitVec 32

structure Link where
  sender : Node
  receiver : Node
  inFlight : Channel → List Frame

inductive Action where
  | send (slave_addr : Byte) (dir : KeyDirection) (pdu : Bytes)
  /-- The oldest frame in flight on the channel reaches the receiver. -/
  | deliver (slave_addr : Byte) (dir : KeyDirection) (expected_addr : Byte)
  | insert (wire : Bytes) (expected_addr : Byte) (dir : KeyDirection)

inductive Event where
  | sent (result : Option BuildResult)
  | delivered (c : Channel) (frame : Frame) (result : VerifyResult)
  | inserted (result : VerifyResult)
  | idle

def sendStep (P : Primitives) (l : Link) (slave_addr : Byte) (dir : KeyDirection) (pdu : Bytes) :
    Event × Link :=
  let (result, sender) := secureFrameEncryptAndBuild P l.sender slave_addr pdu dir
  match result, channelIndex slave_addr dir with
  | some r, some c =>
    let frame := ⟨r.wire, pdu, (sender.ctrTable c).nextOut⟩
    (.sent result, ⟨sender, l.receiver, Function.update l.inFlight c (l.inFlight c ++ [frame])⟩)
  | _, _ => (.sent none, { l with sender := sender })

def deliverStep (P : Primitives) (l : Link) (slave_addr : Byte) (dir : KeyDirection)
    (expected_addr : Byte) : Event × Link :=
  match channelIndex slave_addr dir with
  | none => (.idle, l)
  | some c => match l.inFlight c with
    | [] => (.idle, l)
    | frame :: rest =>
      let (result, receiver) := secureFrameVerifyAndDecrypt P l.receiver frame.wire expected_addr dir
      (.delivered c frame result, ⟨l.sender, receiver, Function.update l.inFlight c rest⟩)

def step (P : Primitives) (l : Link) : Action → Event × Link
  | .send slave_addr dir pdu => sendStep P l slave_addr dir pdu
  | .deliver slave_addr dir expected_addr => deliverStep P l slave_addr dir expected_addr
  | .insert wire expected_addr dir =>
    let (result, receiver) := secureFrameVerifyAndDecrypt P l.receiver wire expected_addr dir
    (.inserted result, { l with receiver := receiver })

/-- A string that is malformed, is addressed elsewhere, has no key or the wrong HMAC. -/
def Junk (P : Primitives) (keyTable : KeyTable) (wire : Bytes) (expected_addr : Byte)
    (dir : KeyDirection) : Prop :=
  secureFrameParse wire = none ∨
  ∃ frame, secureFrameParse wire = some frame ∧
    ((expected_addr ≠ anyAddr ∧ frame.addr ≠ expected_addr) ∨
      keyStoreLookup keyTable frame.addr dir = none ∨
      ∃ keys, keyStoreLookup keyTable frame.addr dir = some keys ∧
        P.hmacLsh256 keys.macKey (frame.addr :: frame.ciphertext) ≠ frame.hmac)

/-- What may happen on the channels of `S`. -/
def Allowed (P : Primitives) (S : Set Channel) (l : Link) : Action → Prop
  | .send slave_addr dir pdu =>
    (∃ c ∈ S, channelIndex slave_addr dir = some c) ∧ pdu.length ≤ maxPdu
  | .deliver slave_addr dir expected_addr =>
    (∃ c ∈ S, channelIndex slave_addr dir = some c) ∧
      (expected_addr = slave_addr ∨ expected_addr = anyAddr)
  | .insert wire expected_addr dir => Junk P l.receiver.keyTable wire expected_addr dir

/-- What an event shows, and the state after it. -/
def Good : Event → Link → Prop
  | .sent result, _ => ∃ r, result = some r ∧ r.wire.length ≤ maxWireLen
  | .delivered c frame result, l =>
    result.status = .ok ∧ result.outAddr = some (channelAddr c) ∧
      result.outPdu = some frame.pdu ∧ result.outPduLen = some frame.pdu.length ∧
      (l.receiver.ctrTable c).nextOut = frame.after ∧
      (l.inFlight c = [] → (l.receiver.ctrTable c).nextOut = (l.sender.ctrTable c).nextOut)
  | .inserted result, _ => result.status ≠ .ok
  | .idle, _ => True

/-- The frames are sealed one after another between two counter values. -/
inductive Sealed (P : Primitives) (keys : DirectionalKeys) (addr : Byte) :
    BitVec 32 → List Frame → BitVec 32 → Prop
  | nil (v : BitVec 32) : Sealed P keys addr v [] v
  | cons (v last : BitVec 32) (f : Frame) (fs : List Frame)
      (wire : f.wire = secureFrameBuild (sealFrame P keys addr v f.pdu))
      (fits : f.pdu.length ≤ maxPdu) (after : f.after = v + numBlocks (f.pdu.length + 3))
      (rest : Sealed P keys addr f.after fs last) : Sealed P keys addr v (f :: fs) last

section Steps
variable {P : Primitives} {S : Set Channel} {l : Link}

theorem Sealed.snoc {keys : DirectionalKeys} {addr : Byte} {v last : BitVec 32} {fs : List Frame}
    (h : Sealed P keys addr v fs last) (f : Frame)
    (wire : f.wire = secureFrameBuild (sealFrame P keys addr last f.pdu))
    (fits : f.pdu.length ≤ maxPdu) (after : f.after = last + numBlocks (f.pdu.length + 3)) :
    Sealed P keys addr v (fs ++ [f]) f.after := by
  induction h with
  | nil v => exact .cons v _ f [] wire fits after (.nil _)
  | cons v last g fs gwire gfits gafter _ ih =>
    exact .cons v _ g _ gwire gfits gafter (ih wire after)

structure Synchronized (P : Primitives) (S : Set Channel) (l : Link) : Prop where
  keys : ∀ c ∈ S, SameKey l.sender l.receiver c
  frames : ∀ c ∈ S, Sealed P (l.sender.keyTable c).keys (channelAddr c) (nextValue l.receiver c)
    (l.inFlight c) (nextValue l.sender c)
  seeded : ∀ c ∈ S, l.inFlight c ≠ [] → (l.sender.ctrTable c).validOut ≠ 0

theorem synchronized_initial (hkeys : ∀ c ∈ S, SameKey l.sender l.receiver c)
    (hctr : ∀ c ∈ S, InStep l.sender l.receiver c) (hline : ∀ c, l.inFlight c = []) :
    Synchronized P S l := by
  refine ⟨hkeys, fun c hc => ?_, fun c _ h => absurd (hline c) h⟩
  rw [hline, nextValue_of_inStep (hkeys c hc) (hctr c hc)]
  exact .nil _

theorem authenticate_of_junk {keyTable : KeyTable} {wire : Bytes} {expected_addr : Byte}
    {dir : KeyDirection} (h : Junk P keyTable wire expected_addr dir) :
    ∃ s, authenticate P keyTable wire expected_addr dir = .error s := by
  rcases h with h | ⟨frame, hp, h⟩
  · exact ⟨.malformed, by rw [authenticate, h]⟩
  · rw [authenticate, hp]
    by_cases hex : expected_addr ≠ anyAddr ∧ frame.addr ≠ expected_addr
    · exact ⟨.wrongAddr, by simp only [if_pos hex]⟩
    · rcases h with h | h | ⟨keys, hk, hmac⟩
      · exact absurd h hex
      · exact ⟨.noKey, by simp only [if_neg hex, h]⟩
      · exact ⟨.hmac, by simp only [if_neg hex, hk, if_pos hmac]⟩

theorem send_step (h : Synchronized P S l) {slave_addr : Byte} {dir : KeyDirection} {pdu : Bytes}
    {c : Channel} (hS : c ∈ S) (hc : channelIndex slave_addr dir = some c)
    (hlen : pdu.length ≤ maxPdu) :
    Synchronized P S (sendStep P l slave_addr dir pdu).2 ∧
      Good (sendStep P l slave_addr dir pdu).1 (sendStep P l slave_addr dir pdu).2 := by
  obtain ⟨hkey, -, -⟩ := h.keys c hS
  have hbuild := secureFrameEncryptAndBuild_eq (P := P) hlen hc hkey
  have haddr := channelAddr_of_channelIndex hc
  simp only [sendStep, hbuild, hc]
  constructor
  · refine ⟨h.keys, fun d hd => ?_, fun d hd hne => ?_⟩
    · by_cases hdc : d = c
      · subst hdc
        simp only [Function.update_self, nextValue_reserve, storeEntry_ctrTable, storeEntry_keyTable]
        exact (h.frames d hd).snoc ⟨_, pdu, _⟩ (by rw [haddr]) hlen rfl
      · simp only [Function.update_of_ne hdc, nextValue_storeEntry_ne _ hdc, storeEntry_keyTable]
        exact h.frames d hd
    · by_cases hdc : d = c
      · subst hdc
        simpa using reserve_validOut_ne_zero _ _ _
      · simp only [Function.update_of_ne hdc, storeEntry_ctrTable] at hne ⊢
        exact h.seeded d hd hne
  · refine ⟨_, rfl, ?_⟩
    simp only [maxPdu] at hlen
    simp only [length_build_sealFrame, maxWireLen, maxAdu, addrLen, maxPdu, crcLen, hmacLen]
    omega

theorem deliver_step (h : Synchronized P S l) {slave_addr expected_addr : Byte} {dir : KeyDirection}
    {c : Channel} (hS : c ∈ S) (hc : channelIndex slave_addr dir = some c)
    (hex : expected_addr = slave_addr ∨ expected_addr = anyAddr) :
    Synchronized P S (deliverStep P l slave_addr dir expected_addr).2 ∧
      Good (deliverStep P l slave_addr dir expected_addr).1
        (deliverStep P l slave_addr dir expected_addr).2 := by
  obtain ⟨-, hkey, hsame⟩ := h.keys c hS
  have haddr := channelAddr_of_channelIndex hc
  have hframes := h.frames c hS
  have hseeded := h.seeded c hS
  cases hq : l.inFlight c with
  | nil => simpa only [deliverStep, hc, hq] using ⟨h, trivial⟩
  | cons f fs =>
    rw [hq] at hframes hseeded
    cases hframes with
    | cons v last f fs wire fits after rest =>
      rw [hsame, haddr] at wire
      obtain ⟨hs, ha, hp, hpl, hn⟩ := verify_sealFrame (P := P) fits hc hkey hex
      simp only [deliverStep, hc, hq, wire]
      constructor
      · refine ⟨?_, fun d hd => ?_, fun d hd hne => ?_⟩
        · simpa only [hn, storeEntry_keyTable, SameKey] using h.keys
        · by_cases hdc : d = c
          · subst hdc
            simp only [hn, Function.update_self, nextValue_reserve, ← after]
            exact rest
          · simp only [hn, Function.update_of_ne hdc, nextValue_storeEntry_ne _ hdc]
            exact h.frames d hd
        · by_cases hdc : d = c
          · subst hdc
            exact hseeded (by simp)
          · simp only [Function.update_of_ne hdc] at hne
            exact h.seeded d hd hne
      · have hnext : ((secureFrameVerifyAndDecrypt P l.receiver (secureFrameBuild (sealFrame P
            (l.receiver.keyTable c).keys slave_addr (nextValue l.receiver c) f.pdu))
            expected_addr dir).2.ctrTable c).nextOut = f.after := by
          simp only [hn, storeEntry_ctrTable, Function.update_self, reserve, after]
        refine ⟨hs, ha.trans (by rw [haddr]), hp, hpl, hnext, fun hempty => ?_⟩
        simp only [Function.update_self] at hempty
        subst hempty
        have hlast : nextValue l.sender c = f.after := by
          generalize nextValue l.sender c = last at rest
          cases rest
          rfl
        rw [nextValue_of_set (hseeded (by simp))] at hlast
        exact hnext.trans hlast.symm

theorem insert_step {wire : Bytes} {expected_addr : Byte} {dir : KeyDirection}
    (hj : Junk P l.receiver.keyTable wire expected_addr dir) :
    (secureFrameVerifyAndDecrypt P l.receiver wire expected_addr dir).1.status ≠ .ok ∧
      (secureFrameVerifyAndDecrypt P l.receiver wire expected_addr dir).2 = l.receiver := by
  obtain ⟨s, hs⟩ := authenticate_of_junk hj
  obtain ⟨hok, -, hstatus, -, hn⟩ := verify_of_error hs
  exact ⟨hstatus ▸ hok, hn⟩

theorem step_good (h : Synchronized P S l) (a : Action) (ha : Allowed P S l a) :
    Synchronized P S (step P l a).2 ∧ Good (step P l a).1 (step P l a).2 := by
  cases a with
  | send slave_addr dir pdu =>
    obtain ⟨⟨c, hS, hc⟩, hlen⟩ := ha
    exact send_step h hS hc hlen
  | deliver slave_addr dir expected_addr =>
    obtain ⟨⟨c, hS, hc⟩, hex⟩ := ha
    exact deliver_step h hS hc hex
  | insert wire expected_addr dir =>
    obtain ⟨hs, hn⟩ := insert_step ha
    refine ⟨?_, hs⟩
    simp only [step, hn]
    exact h

end Steps

/-- Lock-step delivery: from counters that agree, every frame sent is at most 289 bytes and
is opened to what was sent, nothing inserted is accepted, and the counters stay together. -/
theorem lockstep_delivery (P : Primitives) (S : Set Channel) (l : Link)
    (hkeys : ∀ c ∈ S, SameKey l.sender l.receiver c)
    (hctr : ∀ c ∈ S, InStep l.sender l.receiver c) (hline : ∀ c, l.inFlight c = [])
    (as : List Action) (hok : Always (fun l a => (step P l a).2) (Allowed P S) l as) :
    Always (fun l a => (step P l a).2) (fun l a => Good (step P l a).1 (step P l a).2) l as :=
  always_of_invariant (fun _ a h ha => (step_good h a ha).1) (fun _ a h ha => (step_good h a ha).2)
    (synchronized_initial hkeys hctr hline) hok

/-- A frame sent, an empty string inserted, the frame delivered. -/
theorem lockstep_delivery_three_steps :
    let P := leaPrimitives fun _ _ => ⟨List.replicate 32 0, rfl⟩
    let node : Node := { startProcess ⟨fun _ => none, []⟩ with
      keyTable := fun _ => ⟨true, ⟨zeroKey, zeroKey⟩, 0⟩ }
    let as := [.send 1 .masterToSlave [3, 0, 0, 0, 2], .insert [] 1 .masterToSlave,
      .deliver 1 .masterToSlave 1]
    Always (fun l a => (step P l a).2) (fun l a => Good (step P l a).1 (step P l a).2)
      ⟨node, node, fun _ => []⟩ as := by
  intro P node as
  refine lockstep_delivery P Set.univ _ (fun _ _ => ⟨rfl, rfl, rfl⟩)
    (fun _ _ => .inr ⟨rfl, rfl, rfl⟩) (fun _ => rfl) as ⟨⟨⟨_, trivial, rfl⟩, by decide⟩, ?_, ?_, trivial⟩
  · exact .inl rfl
  · exact ⟨⟨_, trivial, rfl⟩, .inl rfl⟩

end ModbusSecurity.LockstepLink
