import ModbusSecurity.LshHash
import ModbusSecurity.SecureFraming

/-! # The keyed hash of `hmac.c` and `hmac_lsh.c`

A hash object that starts with the masked key, and a second one at the end. -/
namespace ModbusSecurity.HmacLsh
open ByteStrings BlockStreams LshFunction LshCompression LshHash KeyStore CounterState SecureFraming
open TransitionRuns
variable {w : ℕ}

/-- `HMAC_LSH_Context`; of `opad` only one block is used. -/
structure HmacContext (w : ℕ) where
  hashCtx : Context w
  opad : Bytes

section Functions
variable (f : Family w)

/-- `lsh_update` goes by the type in the context. The type 0 of a cleared one counts as LSH-256,
whose update looks at the length first. -/
def updateByType (ctx : Context w) (data : Option Bytes) (databitlen : ℕ) : LshErr × Context w :=
  if ctx.algtype = 0 ∧ databitlen = 0 then (.success, ctx) else lshUpdate f ctx data databitlen

/-- The key, and the hash of a key that is longer than a block. -/
def shortKey (ctx : Context w) (algtype : LshType) (key : Bytes) :
    LshErr × Bytes × Context w :=
  if msgBlkByteLen w < key.length then
    match lshInit f ctx algtype with
    | (.success, ctx) =>
      match updateByType f ctx (some key) (key.length * 8) with
      | (.success, ctx) =>
        let (result, tempKey, ctx) := lshFinal f ctx
        (result, (tempKey.getD []).take (getHashbyte algtype), ctx)
      | (result, ctx) => (result, [], ctx)
    | (result, ctx) => (result, [], ctx)
  else (.success, key, ctx)

/-- A key byte by byte under a mask, and the mask alone behind it. -/
def maskKey (w : ℕ) (mask : Byte) (key : Bytes) : Bytes :=
  key.map (· ^^^ mask) ++ List.replicate (msgBlkByteLen w - key.length) mask

def hmacLshInit (ctx : HmacContext w) (algtype : LshType) (key : Bytes) : LshErr × HmacContext w :=
  match shortKey f ctx.hashCtx algtype key with
  | (.success, key, hashCtx) =>
    let ipad := maskKey w 0x36 key
    let opad := maskKey w 0x5c key
    match lshInit f hashCtx algtype with
    | (.success, hashCtx) =>
      let (result, hashCtx) := updateByType f hashCtx (some ipad) (msgBlkByteLen w * 8)
      (result, ⟨hashCtx, opad⟩)
    | (result, hashCtx) => (result, ⟨hashCtx, opad⟩)
  | (result, _, hashCtx) => (result, ⟨hashCtx, ctx.opad⟩)

/-- `data` is `none` for a null pointer. -/
def hmacLshUpdate (ctx : HmacContext w) (data : Option Bytes) : LshErr × HmacContext w :=
  match data with
  | none => (.nullPtr, ctx)
  | some data =>
    let (result, hashCtx) := updateByType f ctx.hashCtx (some data) (data.length * 8)
    (result, ⟨hashCtx, ctx.opad⟩)

def hmacLshFinal (ctx : HmacContext w) : LshErr × Option Bytes × HmacContext w :=
  let algtype := ctx.hashCtx.algtype
  match lshFinal f ctx.hashCtx with
  | (.success, some digest, hashCtx) =>
    match lshInit f hashCtx algtype with
    | (.success, hashCtx) =>
      let (result, hashCtx) := updateByType f hashCtx (some ctx.opad) (msgBlkByteLen w * 8)
      let opad := List.replicate (msgBlkByteLen w) 0
      match result with
      | .success =>
        match updateByType f hashCtx (some digest) (getHashbit algtype) with
        | (.success, hashCtx) =>
          let (result, digest, hashCtx) := lshFinal f hashCtx
          (result, digest, ⟨hashCtx, opad⟩)
        | (result, hashCtx) => (result, none, ⟨hashCtx, opad⟩)
      | result => (result, none, ⟨hashCtx, opad⟩)
    | (result, hashCtx) => (result, none, ⟨hashCtx, ctx.opad⟩)
  | (result, _, hashCtx) => (result, none, ⟨hashCtx, ctx.opad⟩)

/-- `ctx` is what the stack holds in front of the call. -/
def hmacLshDigest (ctx : HmacContext w) (algtype : LshType) (key : Bytes) (data : Option Bytes) :
    LshErr × Option Bytes :=
  match hmacLshInit f ctx algtype key with
  | (.success, ctx) =>
    match hmacLshUpdate f ctx data with
    | (.success, ctx) =>
      let (result, digest, _) := hmacLshFinal f ctx
      (result, digest)
    | (result, _) => (result, none)
  | (result, _) => (result, none)

end Functions

/-- `out` keeps its bytes when there is no digest. -/
def hmacLsh256 (ctx : HmacContext 32) (key msg out : Bytes) : Bytes :=
  ((hmacLshDigest lsh256 ctx lshType256 key (some msg)).2).getD out

/-- The key as one block: hashed if it is longer, and filled up with zeros. -/
def blockKey (f : Family w) (t : AlgType f) (key : Bytes) : Bytes :=
  let key := if msgBlkByteLen w < key.length then hashValue f t (bitsOf key) else key
  key ++ List.replicate (msgBlkByteLen w - key.length) 0

/-- The key with every byte under the mask. -/
def masked (f : Family w) (t : AlgType f) (mask : Byte) (key : Bytes) : Bytes :=
  (blockKey f t key).map (· ^^^ mask)

def innerBits (f : Family w) (t : AlgType f) (key message : Bytes) : List Bool :=
  bitsOf (masked f t 0x36 key ++ message)

def outerBits (f : Family w) (t : AlgType f) (key message : Bytes) : List Bool :=
  bitsOf (masked f t 0x5c key) ++
    (bitsOf (hashValue f t (innerBits f t key message))).take (getHashbit t.1)

def hmac (f : Family w) (t : AlgType f) (key message : Bytes) : Bytes :=
  hashValue f t (outerBits f t key message)

inductive HmacCall (f : Family w) where
  | init (t : AlgType f) (key : Bytes)
  | update (data : Option Bytes)
  | final

def HmacCall.run {f : Family w} (ctx : HmacContext w) : HmacCall f → Answer × HmacContext w
  | .init t key =>
    let (result, ctx) := hmacLshInit f ctx t.1 key
    ((result, none), ctx)
  | .update data =>
    let (result, ctx) := hmacLshUpdate f ctx data
    ((result, none), ctx)
  | .final =>
    let (result, digest, ctx) := hmacLshFinal f ctx
    ((result, digest), ctx)

/-- The type, the key and the message so far. -/
abbrev Keyed (f : Family w) := Option (AlgType f × Bytes × Bytes)

/-- An object that keeps the key and the message. -/
def HmacCall.expected {f : Family w} (m : Keyed f) : HmacCall f → Answer × Keyed f
  | .init t key => ((.success, none), some (t, key, []))
  | .update data => match data, m with
    | none, _ => ((.nullPtr, none), m)
    | some data, none => (if data = [] then (.success, none) else (.invalidState, none), m)
    | some data, some (t, key, message) => ((.success, none), some (t, key, message ++ data))
  | .final => match m with
    | none => ((.invalidState, none), none)
    | some (t, key, message) => ((.success, some (hmac f t key message)), none)

section Objects
variable {f : Family w}

theorem getHashbit_le (t : AlgType f) : getHashbit t.1 ≤ 8 * getHashbyte t.1 := by
  rw [getHashbit_eq t.2.hashByte_pos t.2.smallBit_lt]
  omega

@[simp] theorem length_hashValue (t : AlgType f) (message : List Bool) :
    (hashValue f t message).length = getHashbyte t.1 := by
  have hlo := t.2.hashByte_pos
  have hhi := t.2.hashByte_le
  have hsmall := t.2.smallBit_lt
  have hbit := getHashbit_eq hlo hsmall
  have hw := f.wholeBytes
  rw [hashValue, length_bytesOf, List.length_append, List.length_replicate, digest, List.length_take,
    length_bitsOf, length_folded]
  simp only [hashValMaxByteLen] at hhi
  omega

theorem length_blockKey (t : AlgType f) (key : Bytes) :
    (blockKey f t key).length = msgBlkByteLen w := by
  have hhi := t.2.hashByte_le
  simp only [hashValMaxByteLen] at hhi
  simp only [blockKey, List.length_append, List.length_replicate]
  split_ifs with h
  · rw [length_hashValue, msgBlkByteLen]
    omega
  · omega

@[simp] theorem length_masked (t : AlgType f) (mask : Byte) (key : Bytes) :
    (masked f t mask key).length = msgBlkByteLen w := by
  rw [masked, List.length_map, length_blockKey]

theorem updateByType_eq {ctx : Context w} {t : AlgType f} (h : ctx.algtype = t.1)
    (data : Option Bytes) (databitlen : ℕ) :
    updateByType f ctx data databitlen = lshUpdate f ctx data databitlen := by
  have hne : ctx.algtype ≠ 0 := by
    have hlo := t.2.hashByte_pos
    rintro hzero
    rw [← h, hzero] at hlo
    exact absurd hlo (by decide)
  rw [updateByType, if_neg fun hboth => hne hboth.1]

/-- A long key is hashed, and the hash object is left behind. -/
theorem shortKey_eq (ctx : Context w) (t : AlgType f) (key : Bytes) :
    ∃ ctx', shortKey f ctx t.1 key =
      (.success, if msgBlkByteLen w < key.length then hashValue f t (bitsOf key) else key, ctx') := by
  by_cases hlong : msgBlkByteLen w < key.length
  · have hstart := represents_init (f := f) ctx t
    have hbits : (bitsOf key).take (key.length * 8) = bitsOf key :=
      List.take_of_length_le (by rw [length_bitsOf]; omega)
    obtain ⟨ctx', hupdate, hstate⟩ :=
      lshUpdate_eq hstart rfl (show key.length * 8 ≤ 8 * key.length by omega)
    rw [lshInit_accepted, ← updateByType_eq (t := t) rfl] at hupdate
    rw [hbits, List.nil_append] at hstate
    refine ⟨zeroContext w, ?_⟩
    simp only [shortKey, if_pos hlong, lshInit_accepted, hupdate, lshFinal_eq hstate, Option.getD_some]
    rw [List.take_of_length_le (by rw [length_hashValue])]
  · exact ⟨ctx, by simp only [shortKey, if_neg hlong]⟩

theorem maskKey_eq (t : AlgType f) (mask : Byte) (key : Bytes) :
    maskKey w mask (if msgBlkByteLen w < key.length then hashValue f t (bitsOf key) else key) =
      masked f t mask key := by
  simp [maskKey, masked, blockKey]

/-- The context of an object: the masked key and the message are in the hash object. -/
def Carries (f : Family w) (ctx : HmacContext w) : Keyed f → Prop
  | none => ctx.hashCtx.algtype = 0
  | some (t, key, message) =>
    Represents f ctx.hashCtx (some (t, innerBits f t key message)) ∧
      ctx.opad = masked f t 0x5c key

/-- Whole bytes go on with the message. -/
theorem lshUpdate_bytes {ctx : Context w} {t : AlgType f} {message : Bytes}
    (h : Represents f ctx (some (t, bitsOf message))) (data : Bytes) :
    ∃ ctx', updateByType f ctx (some data) (data.length * 8) = (.success, ctx') ∧
      Represents f ctx' (some (t, bitsOf (message ++ data))) := by
  have hbits : (bitsOf data).take (data.length * 8) = bitsOf data :=
    List.take_of_length_le (by rw [length_bitsOf]; omega)
  obtain ⟨ctx', hupdate, hstate⟩ := lshUpdate_eq h (by rw [length_bitsOf]; omega)
    (show data.length * 8 ≤ 8 * data.length by omega)
  rw [hbits, ← bitsOf_append] at hstate
  exact ⟨ctx', (updateByType_eq h.1 _ _).trans hupdate, hstate⟩

theorem hmacLshInit_eq (ctx : HmacContext w) (t : AlgType f) (key : Bytes) :
    ∃ ctx', hmacLshInit f ctx t.1 key = (.success, ctx') ∧ Carries f ctx' (some (t, key, [])) := by
  obtain ⟨hashCtx, hshort⟩ := shortKey_eq ctx.hashCtx t key
  have hstart := represents_init (f := f) hashCtx t
  obtain ⟨hashCtx', hupdate, hstate⟩ := @lshUpdate_bytes _ f _ t [] hstart (masked f t 0x36 key)
  rw [lshInit_accepted, length_masked] at hupdate
  refine ⟨⟨hashCtx', masked f t 0x5c key⟩, ?_, ?_, rfl⟩
  · simp only [hmacLshInit, hshort, maskKey_eq, lshInit_accepted, hupdate]
  · rw [innerBits, List.append_nil]
    exact hstate

theorem hmacLshUpdate_eq {ctx : HmacContext w} {t : AlgType f} {key message : Bytes}
    (h : Carries f ctx (some (t, key, message))) (data : Bytes) :
    ∃ ctx', hmacLshUpdate f ctx (some data) = (.success, ctx') ∧
      Carries f ctx' (some (t, key, message ++ data)) := by
  obtain ⟨hashCtx, hupdate, hstate⟩ := lshUpdate_bytes h.1 data
  refine ⟨⟨hashCtx, ctx.opad⟩, ?_, ?_, h.2⟩
  · simp only [hmacLshUpdate, hupdate]
  · rw [innerBits, ← List.append_assoc]
    exact hstate

theorem hmacLshFinal_eq {ctx : HmacContext w} {t : AlgType f} {key message : Bytes}
    (h : Carries f ctx (some (t, key, message))) : hmacLshFinal f ctx =
      (.success, some (hmac f t key message),
        ⟨zeroContext w, List.replicate (msgBlkByteLen w) 0⟩) := by
  obtain ⟨hstate, hopad⟩ := h
  have htype : ctx.hashCtx.algtype = t.1 := hstate.1
  let inner := hashValue f t (innerBits f t key message)
  have hstart := represents_init (f := f) (zeroContext w) t
  obtain ⟨ctx₁, hupdate₁, hstate₁⟩ := @lshUpdate_bytes _ f _ t [] hstart (masked f t 0x5c key)
  obtain ⟨ctx₂, hupdate₂, hstate₂⟩ := lshUpdate_eq hstate₁ (by rw [length_bitsOf]; omega)
    (show getHashbit t.1 ≤ 8 * inner.length by rw [length_hashValue]; exact getHashbit_le t)
  rw [lshInit_accepted, length_masked] at hupdate₁
  rw [← updateByType_eq hstate₁.1] at hupdate₂
  simp only [hmacLshFinal, lshFinal_eq hstate, htype, hopad, lshInit_accepted, hupdate₁]
  rw [show hashValue f t (innerBits f t key message) = inner from rfl, hupdate₂]
  simp only [lshFinal_eq hstate₂]
  rfl

/-- A context behaves as the object that keeps the key and the whole message. -/
theorem hmac_object (f : Family w) (ctx : HmacContext w) (t : AlgType f) (key : Bytes)
    (calls : List (HmacCall f)) :
    answersOf HmacCall.run ctx (.init t key :: calls) =
      answersOf HmacCall.expected none (.init t key :: calls) := by
  obtain ⟨ctx', hinit, hstart⟩ := hmacLshInit_eq ctx t key
  rw [answersOf, answersOf]
  simp only [HmacCall.run, HmacCall.expected, hinit]
  congr 1
  refine answersOf_simulated (R := Carries f) (fun ctx m call h => ?_) hstart calls
  cases call with
  | init t key =>
    obtain ⟨ctx', hinit, hnext⟩ := hmacLshInit_eq ctx t key
    simp only [HmacCall.run, HmacCall.expected, hinit]
    exact ⟨trivial, hnext⟩
  | update data =>
    cases data with
    | none => exact ⟨rfl, h⟩
    | some data =>
      cases m with
      | none =>
        have hcleared := stateInvalid_cleared h
        have hzero : data.length * 8 = 0 ↔ data = [] := by
          rw [← List.length_eq_zero_iff]
          omega
        have htype : ctx.hashCtx.algtype = 0 := h
        simp only [HmacCall.run, HmacCall.expected, hmacLshUpdate, updateByType, lshUpdate, hcleared,
          if_true, hzero, htype, true_and]
        by_cases hempty : data = []
        · simp only [if_pos hempty]
          exact ⟨trivial, h⟩
        · simp only [hempty, and_false, if_false]
          exact ⟨trivial, h⟩
      | some m =>
        obtain ⟨ctx', hupdate, hnext⟩ := hmacLshUpdate_eq h data
        simp only [HmacCall.run, HmacCall.expected, hupdate]
        exact ⟨trivial, hnext⟩
  | final =>
    cases m with
    | none =>
      have hcleared := stateInvalid_cleared h
      simp only [HmacCall.run, HmacCall.expected, hmacLshFinal, lshFinal, hcleared, if_true]
      exact ⟨trivial, h⟩
    | some m =>
      simp only [HmacCall.run, HmacCall.expected, hmacLshFinal_eq h]
      exact ⟨trivial, rfl⟩

theorem hmacLshDigest_eq (ctx : HmacContext w) (t : AlgType f) (key data : Bytes) :
    hmacLshDigest f ctx t.1 key (some data) = (.success, some (hmac f t key data)) := by
  obtain ⟨ctx₁, hinit, hstate₁⟩ := hmacLshInit_eq ctx t key
  obtain ⟨ctx₂, hupdate, hstate₂⟩ := hmacLshUpdate_eq hstate₁ data
  simp only [hmacLshDigest, hinit, hupdate, hmacLshFinal_eq hstate₂, List.nil_append]

/-- Two messages with one hash value. -/
def Collide (f : Family w) (t : AlgType f) (x y : List Bool) : Prop :=
  x ≠ y ∧ hashValue f t x = hashValue f t y

theorem bitsOf_hashValue (t : AlgType f) (message : List Bool) :
    bitsOf (hashValue f t message) = (bitsOf (hashValue f t message)).take (getHashbit t.1) ++
      List.replicate (getSmallHashbit t.1) false := by
  have hbit := getHashbit_eq t.2.hashByte_pos t.2.smallBit_lt
  have hpos := t.2.hashByte_pos
  have hsmall := t.2.smallBit_lt
  have hhi := t.2.hashByte_le
  simp only [hashValMaxByteLen] at hhi
  have hw := f.wholeBytes
  let value := digest f.rounds (hashValMaxByteLen w) (getHashbit t.1) message
  have hlen : value.length = getHashbit t.1 := by
    simp only [value, digest, List.length_take, length_bitsOf, length_folded]
    omega
  have hbits : bitsOf (hashValue f t message) =
      value ++ List.replicate (getSmallHashbit t.1) false := by
    apply bitsOf_bytesOf
    rw [List.length_append, List.length_replicate, hlen]
    omega
  rw [hbits, ← hlen, List.take_left]

/-- Only the key gives its mask. -/
theorem masked_injective (t : AlgType f) {mask : Byte} {key key' : Bytes}
    (hlen : key.length = key'.length) (hshort : key.length ≤ msgBlkByteLen w)
    (h : masked f t mask key = masked f t mask key') : key = key' := by
  have hmask : Function.Injective fun b : Byte => b ^^^ mask :=
    fun a b hab => (BitVec.xor_left_inj mask).mp hab
  have hblock := List.map_injective_iff.mpr hmask h
  simp only [blockKey, if_neg (Nat.not_lt.mpr hshort), if_neg (Nat.not_lt.mpr (hlen ▸ hshort))]
    at hblock
  exact (List.append_inj hblock hlen).1

/-- Equal tags of two messages, or under two keys, come from two inputs that collide. -/
theorem hmac_collide (t : AlgType f) {key key' message message' : Bytes}
    (hlen : key.length = key'.length) (hshort : key.length ≤ msgBlkByteLen w)
    (hne : (key, message) ≠ (key', message')) (h : hmac f t key message = hmac f t key' message') :
    Collide f t (outerBits f t key message) (outerBits f t key' message') ∨
      Collide f t (innerBits f t key message) (innerBits f t key' message') := by
  by_cases houter : outerBits f t key message = outerBits f t key' message'
  · right
    have hfronts : (bitsOf (masked f t 0x5c key)).length = (bitsOf (masked f t 0x5c key')).length := by
      rw [length_bitsOf, length_bitsOf, length_masked, length_masked]
    obtain ⟨hmasks, hinner⟩ := List.append_inj houter hfronts
    have hkey : key = key' := masked_injective t hlen hshort (bitsOf_injective hmasks)
    refine ⟨fun hbits => hne ?_, ?_⟩
    · have hmessage := List.append_inj (bitsOf_injective hbits)
        (by rw [length_masked, length_masked])
      rw [hkey, hmessage.2]
    · apply bitsOf_injective
      rw [bitsOf_hashValue, hinner, ← bitsOf_hashValue]
  · exact .inl ⟨houter, h⟩

/-- Inputs that collide give equal tags. -/
theorem hmac_eq_of_collide (t : AlgType f) {key message message' : Bytes}
    (h : Collide f t (outerBits f t key message) (outerBits f t key message') ∨
      Collide f t (innerBits f t key message) (innerBits f t key message')) :
    hmac f t key message = hmac f t key message' := by
  rcases h with ⟨-, houter⟩ | ⟨-, hinner⟩
  · exact houter
  · rw [hmac, hmac, outerBits, outerBits, hinner]

end Objects

def type256 : AlgType lsh256 := ⟨lshType256, by decide, by decide, by decide, by decide⟩

theorem hmacLsh256_eq (ctx : HmacContext 32) (key msg out : Bytes) :
    hmacLsh256 ctx key msg out = hmac lsh256 type256 key msg := by
  rw [hmacLsh256, show lshType256 = type256.1 from rfl, hmacLshDigest_eq, Option.getD_some]

/-- LEA and the keyed hash as the repository computes them. -/
def leaHmacPrimitives (ctx : HmacContext 32) : Primitives :=
  leaPrimitives fun key msg => ⟨hmacLsh256 ctx key msg (List.replicate hmacLen 0), by
    rw [hmacLsh256_eq, hmac, length_hashValue]
    rfl⟩

/-- A sealed frame whose address or ciphertext is changed under the same tag is refused without a
trace, unless the two tags come from two inputs of the hash that collide. -/
theorem altered_frame_refused (ctx : HmacContext 32) (n : Node) (keys : DirectionalKeys)
    (addr : Byte) (ciphertext tag wire : Bytes) (expected_addr : Byte) (dir : KeyDirection)
    (htag : tag = hmac lsh256 type256 keys.macKey (addr :: ciphertext))
    (hend : wire.drop (wire.length - hmacLen) = tag) (hne : wire ≠ addr :: (ciphertext ++ tag)) :
    let r := secureFrameVerifyAndDecrypt (leaHmacPrimitives ctx) n wire expected_addr dir
    (r.1.status ≠ .ok ∧ r.1.status ≠ .crc ∧ r.1.used = [] ∧ r.2 = n) ∨
      ∃ frame keys', secureFrameParse wire = some frame ∧
        keyStoreLookup n.keyTable frame.addr dir = some keys' ∧
        (Collide lsh256 type256 (outerBits lsh256 type256 keys.macKey (addr :: ciphertext))
            (outerBits lsh256 type256 keys'.macKey (frame.addr :: frame.ciphertext)) ∨
          Collide lsh256 type256 (innerBits lsh256 type256 keys.macKey (addr :: ciphertext))
            (innerBits lsh256 type256 keys'.macKey (frame.addr :: frame.ciphertext))) := by
  intro r
  cases ha : authenticate (leaHmacPrimitives ctx) n.keyTable wire expected_addr dir with
  | error s =>
    obtain ⟨hok, hcrc, hs, hused, hn⟩ := verify_of_error ha
    exact .inl ⟨hs ▸ hok, hs ▸ hcrc, hused, hn⟩
  | ok p =>
    obtain ⟨frame, keys'⟩ := p
    obtain ⟨hp, -, hlook, hverified⟩ := authenticate_ok ha
    refine .inr ⟨frame, keys', hp, hlook, ?_⟩
    have hwire := build_of_parse hp
    have hequal : frame.hmac.1 = tag := by
      have hlen := frame.hmac.2
      rw [← hend, ← hwire, secureFrameBuild, ← List.cons_append, List.length_append, hlen,
        Nat.add_sub_cancel, List.drop_left]
    have htags : hmac lsh256 type256 keys.macKey (addr :: ciphertext) =
        hmac lsh256 type256 keys'.macKey (frame.addr :: frame.ciphertext) := by
      rw [← htag, ← hequal, ← hverified]
      exact hmacLsh256_eq ctx _ _ _
    have hlen : keys.macKey.1.length = keys'.macKey.1.length :=
      keys.macKey.2.trans keys'.macKey.2.symm
    have hshort : keys.macKey.1.length ≤ msgBlkByteLen 32 := by
      rw [keys.macKey.2]
      decide
    refine hmac_collide type256 hlen hshort (fun heq => hne ?_) htags
    have hbody : addr :: ciphertext = frame.addr :: frame.ciphertext := congrArg Prod.snd heq
    obtain ⟨haddr, hct⟩ := List.cons.inj hbody
    rw [← hwire, secureFrameBuild, hequal, haddr, hct]

/-- The address of a frame is changed on the way to a slave that has the keys for both. -/
theorem altered_frame_refused_address :
    let keys : DirectionalKeys := ⟨zeroKey, zeroKey⟩
    let ctx : HmacContext 32 := ⟨zeroContext 32, []⟩
    let tag := hmac lsh256 type256 keys.macKey (1 :: [0, 0, 0])
    let n : Node :=
      { startProcess ⟨fun _ => none, []⟩ with keyTable := fun _ => ⟨true, keys, 0⟩ }
    let r := secureFrameVerifyAndDecrypt (leaHmacPrimitives ctx) n
      (2 :: ([0, 0, 0] ++ tag)) anyAddr .masterToSlave
    r.1.status ≠ .ok ∧ r.1.status ≠ .crc ∧ r.1.used = [] ∧ r.2 = n := by
  intro keys ctx tag n
  have htag : tag = hmac lsh256 type256 keys.macKey (1 :: [0, 0, 0]) := rfl
  have hdiffer : tag ≠ hmac lsh256 type256 keys.macKey (2 :: [0, 0, 0]) := by
    rw [htag, ← hmacLsh256_eq ctx _ _ [], ← hmacLsh256_eq ctx _ _ []]
    decide +kernel
  have hlen : tag.length = hmacLen := length_hashValue type256 _
  have hkeys : ∀ c, (n.keyTable c).keys = keys := fun _ => rfl
  clear_value tag keys n
  have hend : (2 :: ([0, 0, 0] ++ tag)).drop ((2 :: ([0, 0, 0] ++ tag)).length - hmacLen) = tag := by
    rw [← List.cons_append, List.length_append, hlen, Nat.add_sub_cancel, List.drop_left]
  have hne : (2 : Byte) :: ([0, 0, 0] ++ tag) ≠ 1 :: ([0, 0, 0] ++ tag) := by
    intro heq
    exact absurd (List.cons.inj heq).1 (by decide)
  refine (altered_frame_refused ctx n keys 1 [0, 0, 0] tag
    (2 :: ([0, 0, 0] ++ tag)) anyAddr .masterToSlave htag hend hne).resolve_right ?_
  rintro ⟨frame, keys', hparse, hlook, hcollide⟩
  obtain ⟨c, -, -, rfl⟩ := keyStoreLookup_eq_some hlook
  have hframe := parse_build ⟨2, [0, 0, 0], tag, hlen⟩ (show 3 ≤ maxAdu by decide)
  obtain rfl := Option.some.inj (hframe.symm.trans hparse)
  rw [hkeys] at hcollide
  exact hdiffer (htag.trans (hmac_eq_of_collide type256 hcollide))

end ModbusSecurity.HmacLsh
