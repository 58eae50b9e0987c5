import ModbusSecurity.LeaOnline
import ModbusSecurity.LshCompression
import ModbusSecurity.TransitionRuns

/-! # The hash objects of `lsh256.c` and `lsh512.c`

A context takes a message in pieces of any length; only the last piece may end inside a byte. -/
namespace ModbusSecurity.LshHash
open ByteStrings BlockStreams LshFunction LshCompression TransitionRuns
open LeaOnline (copyAt)
variable {w : ℕ}

/-! ### Types and results -/

/-- `lsh_type`: the bytes of the hash value, the family, and the bits left out of the last byte. -/
abbrev LshType := BitVec 32

def lshType256 : LshType := 0x0000020
def lshType224 : LshType := 0x000001C
def lshType512 : LshType := 0x0010040
def lshType384 : LshType := 0x0010030
def lshType512_256 : LshType := 0x0010020
def lshType512_224 : LshType := 0x001001C

def isLsh256 (t : LshType) : Bool := t &&& 0xf0000 == 0
def isLsh512 (t : LshType) : Bool := t &&& 0xf0000 == 0x10000
def getSmallHashbit (t : LshType) : ℕ := (t >>> 24).toNat
def getHashbyte (t : LshType) : ℕ := (t &&& 0xffff).toNat
def getHashbit (t : LshType) : ℕ := (((t &&& 0xffff) <<< 3) - (t >>> 24)).toNat

inductive LshErr
  | success
  | nullPtr
  | invalidAlgtype
  | invalidDatabitlen
  | invalidState
  deriving DecidableEq, Repr

/-! ### Contexts -/

/-- `LSH256_MSG_BLK_BYTE_LEN` is 128 and `LSH512_MSG_BLK_BYTE_LEN` is 256. -/
def msgBlkByteLen (w : ℕ) : ℕ := 4 * w

/-- `LSH256_HASH_VAL_MAX_BYTE_LEN` is 32 and `LSH512_HASH_VAL_MAX_BYTE_LEN` is 64. -/
def hashValMaxByteLen (w : ℕ) : ℕ := w

/-- `last_block`. -/
abbrev LastBlock (w : ℕ) := {block : Bytes // block.length = msgBlkByteLen w}

theorem length_take_copyAt (b : LastBlock w) (off : ℕ) (src : Bytes) :
    ((copyAt b.1 off src).take (msgBlkByteLen w)).length = msgBlkByteLen w := by
  simp only [copyAt, List.length_take, List.length_append, List.length_drop, b.2]
  omega

/-- `memcpy(last_block + off, src, src_len)`. -/
def LastBlock.put (b : LastBlock w) (off : ℕ) (src : Bytes) : LastBlock w :=
  ⟨(copyAt b.1 off src).take (msgBlkByteLen w), length_take_copyAt b off src⟩

structure Context (w : ℕ) where
  algtype : LshType
  remainDatabitlen : ℕ
  cv : Chaining w
  lastBlock : LastBlock w

def zeroRow : Row (BitVec w) := ⟨0, 0, 0, 0, 0, 0, 0, 0⟩

/-- What `memset` leaves. -/
def zeroContext (w : ℕ) : Context w :=
  ⟨0, 0, ⟨zeroRow, zeroRow⟩, ⟨List.replicate (msgBlkByteLen w) 0, List.length_replicate⟩⟩

/-- The chaining value that an init function computes for a type without a table. -/
def computedIv (c : Constants w) (algtype : LshType) : Chaining w :=
  let cv : Chaining w := ⟨{ (zeroRow : Row (BitVec w)) with
    w0 := BitVec.ofNat w (hashValMaxByteLen w), w1 := BitVec.ofNat w (getHashbit algtype) }, zeroRow⟩
  (List.range c.pairs).foldl (fun cv i => mixPair c i cv) cv

/-- One of the two files: its constants, its test for a type, and its tables of chaining values,
which are the computed ones. `lsh256_update` looks at the length before anything else. -/
structure Family (w : ℕ) extends Constants w where
  isType : LshType → Bool
  ivs : List (LshType × Chaining w)
  lengthFirst : Bool
  wholeBytes : w % 8 = 0
  word_pos : 0 < w
  ivs_computed : ∀ e ∈ ivs, e.2 = computedIv toConstants e.1

def Lsh256.gIV224 : Chaining 32 :=
  ⟨⟨0x068608d3, 0x62d8f7a7, 0xd76652ab, 0x4c600a43, 0xbdc40aa8, 0x1eca0b68, 0xda1a89be, 0x3147d354⟩,
    ⟨0x707eb4f9, 0xf65b3862, 0x6b0b2abe, 0x56b8ec0a, 0xcf237286, 0xee0d1727, 0x33636595, 0x8bb8d05f⟩⟩

def Lsh256.gIV256 : Chaining 32 :=
  ⟨⟨0x46a10f1f, 0xfddce486, 0xb41443a8, 0x198e6b9d, 0x3304388d, 0xb0f5a3c7, 0xb36061c4, 0x7adbd553⟩,
    ⟨0x105d5378, 0x2f74de54, 0x5c2f2d95, 0xf2553fbe, 0x8051357a, 0x138668c8, 0x47aa4484, 0xe01afb41⟩⟩

def Lsh512.gIV224 : Chaining 64 :=
  ⟨⟨0x0c401e9fe8813a55, 0x4a5f446268fd3d35, 0xff13e452334f612a, 0xf8227661037e354a,
      0xa5f223723c9ca29d, 0x95d965a11aed3979, 0x01e23835b9ab02cc, 0x52d49cbad5b30616⟩,
    ⟨0x9e5c2027773f4ed3, 0x66a5c8801925b701, 0x22bbc85b4c6779d9, 0xc13171a42c559c23,
      0x31e2b67d25be3813, 0xd522c4deed8e4d83, 0xa79f5509b43fbafe, 0xe00d2cd88b4b6c6a⟩⟩

def Lsh512.gIV256 : Chaining 64 :=
  ⟨⟨0x6dc57c33df989423, 0xd8ea7f6e8342c199, 0x76df8356f8603ac4, 0x40f1b44de838223a,
      0x39ffe7cfc31484cd, 0x39c4326cc5281548, 0x8a2ff85a346045d8, 0xff202aa46dbdd61e⟩,
    ⟨0xcf785b3cd5fcdb8b, 0x1f0323b64a8150bf, 0xff75d972f29ea355, 0x2e567f30bf1ca9e1,
      0xb596875bf8ff6dba, 0xfcca39b089ef4615, 0xecff4017d020b4b6, 0x7e77384c772ed802⟩⟩

def Lsh512.gIV384 : Chaining 64 :=
  ⟨⟨0x53156a66292808f6, 0xb2c4f362b204c2bc, 0xb84b7213bfa05c4e, 0x976ceb7c1b299f73,
      0xdf0cc63c0570ae97, 0xda4441baa486ce3f, 0x6559f5d9b5f2acc2, 0x22dacf19b4b52a16⟩,
    ⟨0xbbcdacefde80953a, 0xc9891a2879725b3e, 0x7c9fe6330237e440, 0xa30ba550553f7431,
      0xbb08043fb34e3e30, 0xa0dec48d54618ead, 0x150317267464bc57, 0x32d1501fde63dc93⟩⟩

def Lsh512.gIV512 : Chaining 64 :=
  ⟨⟨0xadd50f3c7f07094e, 0xe3f3cee8f9418a4f, 0xb527ecde5b3d0ae9, 0x2ef6dec68076f501,
      0x8cb994cae5aca216, 0xfbb9eae4bba48cc7, 0x650a526174725fea, 0x1f9a61a73f8d8085⟩,
    ⟨0xb6607378173b539b, 0x1bc99853b0c0b9ed, 0xdf727fc19b182d47, 0xdbef360cf893a457,
      0x4981f5e570147e80, 0xd00c4490ca7d3e30, 0x5d73940c0e4ae1ec, 0x894085e2edb2d819⟩⟩

def lsh256 : Family 32 where
  toConstants := constants256
  isType := isLsh256
  ivs := [(lshType256, Lsh256.gIV256), (lshType224, Lsh256.gIV224)]
  lengthFirst := true
  wholeBytes := rfl
  word_pos := by decide
  ivs_computed := by decide +kernel

def lsh512 : Family 64 where
  toConstants := constants512
  isType := isLsh512
  ivs := [(lshType512, Lsh512.gIV512), (lshType384, Lsh512.gIV384), (lshType512_256, Lsh512.gIV256),
    (lshType512_224, Lsh512.gIV224)]
  lengthFirst := false
  wholeBytes := rfl
  word_pos := by decide
  ivs_computed := by decide +kernel

/-! ### The functions -/

section Functions
variable (f : Family w)

def lshInit (ctx : Context w) (algtype : LshType) : LshErr × Context w :=
  let ctx := { ctx with algtype := algtype, remainDatabitlen := 0 }
  if !f.isType algtype then (.invalidAlgtype, ctx)
  else if hashValMaxByteLen w < getHashbyte algtype ∨ getHashbyte algtype = 0 then
    (.invalidAlgtype, ctx)
  else match f.ivs.lookup algtype with
    | some iv => (.success, { ctx with cv := iv })
    | none => (.success, { ctx with cv := computedIv f.toConstants algtype })

/-- The checks of the state in front of an update and of the end. -/
def stateInvalid (ctx : Context w) : Bool :=
  ctx.algtype == 0 || hashValMaxByteLen w < getHashbyte ctx.algtype

/-- The mask of a last byte of `pos2` bits. -/
def tailByte (b : Byte) (pos2 : ℕ) : Byte := b &&& (BitVec.ofNat 8 (0xff >>> pos2) ^^^ 0xff)

/-- `if (pos2)`: the last byte is stored behind the whole ones. -/
def storeTail (lastBlock : LastBlock w) (off : ℕ) (b : Byte) (pos2 : ℕ) : LastBlock w :=
  if pos2 ≠ 0 then lastBlock.put off [tailByte b pos2] else lastBlock

/-- The loop over the whole blocks, and what stays behind them. -/
def updateBlocks (ctx : Context w) (data : Bytes) (databytelen pos2 : ℕ) : Context w :=
  let (cv, rest) := absorb (compress f.toConstants) (msgBlkByteLen w) ctx.cv (data.take databytelen)
  let ctx := { ctx with cv := cv }
  let ctx :=
    if 0 < rest.length then
      { ctx with lastBlock := ctx.lastBlock.put 0 rest, remainDatabitlen := rest.length <<< 3 }
    else ctx
  { ctx with
    lastBlock := storeTail ctx.lastBlock rest.length (data.getD databytelen 0) pos2
    remainDatabitlen := ctx.remainDatabitlen + pos2 }

/-- The part of an update behind the checks. -/
def updateData (ctx : Context w) (data : Bytes) (databitlen : ℕ) : Context w :=
  let databytelen := databitlen >>> 3
  let pos2 := databitlen &&& 7
  let remainMsgByte := ctx.remainDatabitlen >>> 3
  if databytelen + remainMsgByte < msgBlkByteLen w then
    let lastBlock := ctx.lastBlock.put remainMsgByte (data.take databytelen)
    let remainMsgByte := remainMsgByte + databytelen
    { ctx with
      lastBlock := storeTail lastBlock remainMsgByte (data.getD databytelen 0) pos2
      remainDatabitlen := ctx.remainDatabitlen + databitlen }
  else if 0 < remainMsgByte then
    -- the block that waits is filled up
    let moreByte := msgBlkByteLen w - remainMsgByte
    let lastBlock := ctx.lastBlock.put remainMsgByte (data.take moreByte)
    let ctx := { ctx with
      lastBlock := lastBlock
      cv := compress f.toConstants ctx.cv lastBlock.1
      remainDatabitlen := 0 }
    updateBlocks f ctx (data.drop moreByte) (databytelen - moreByte) pos2
  else updateBlocks f ctx data databytelen pos2

/-- `data` is `none` for a null pointer. -/
def lshUpdate (ctx : Context w) (data : Option Bytes) (databitlen : ℕ) : LshErr × Context w :=
  if f.lengthFirst ∧ databitlen = 0 then (.success, ctx)
  else match data with
    | none => (.nullPtr, ctx)
    | some data =>
      if stateInvalid ctx then (.invalidState, ctx)
      else if databitlen = 0 then (.success, ctx)
      else if msgBlkByteLen w ≤ ctx.remainDatabitlen >>> 3 then (.invalidState, ctx)
      else if 0 < ctx.remainDatabitlen &&& 7 then (.invalidDatabitlen, ctx)
      else (.success, updateData f ctx data databitlen)

/-- The byte with the stop bit, behind `remainMsgBit` bits of `b`. -/
def stopByte (b : Byte) (remainMsgBit : ℕ) : Byte :=
  if remainMsgBit ≠ 0 then b ||| BitVec.ofNat 8 (1 <<< (7 - remainMsgBit)) else 0x80

/-- The stop bit behind the message, and zeros. -/
def padLastBlock (ctx : Context w) : LastBlock w :=
  let remainMsgByte := ctx.remainDatabitlen >>> 3
  let remainMsgBit := ctx.remainDatabitlen &&& 7
  let stop := stopByte (ctx.lastBlock.1.getD remainMsgByte 0) remainMsgBit
  (ctx.lastBlock.put remainMsgByte [stop]).put (remainMsgByte + 1)
    (List.replicate (msgBlkByteLen w - remainMsgByte - 1) 0)

/-- `cv_l` behind `fin`, as bytes. -/
def fin (cv : Chaining w) : Bytes := (cv.l.zipWith (· ^^^ ·) cv.r).toList.flatMap leBytes

def getHash (cvl : Bytes) (algtype : LshType) : Bytes :=
  let hashval := cvl.take (getHashbyte algtype)
  if getSmallHashbit algtype ≠ 0 then
    hashval.modify (getHashbyte algtype - 1) (· &&& BitVec.ofNat 8 (0xff <<< getSmallHashbit algtype))
  else hashval

/-- The hash value, if there is one; the context is cleared. -/
def lshFinal (ctx : Context w) : LshErr × Option Bytes × Context w :=
  if stateInvalid ctx then (.invalidState, none, ctx)
  else if msgBlkByteLen w ≤ ctx.remainDatabitlen >>> 3 then (.invalidState, none, ctx)
  else
    let cv := compress f.toConstants ctx.cv (padLastBlock ctx).1
    (.success, some (getHash (fin cv) ctx.algtype), zeroContext w)

end Functions

/-! ### The block that waits -/

section Blocks

theorem put_eq (b : LastBlock w) {off : ℕ} {src : Bytes} (h : off + src.length ≤ msgBlkByteLen w) :
    (b.put off src).1 = b.1.take off ++ src ++ b.1.drop (off + src.length) := by
  apply List.take_of_length_le
  simp only [copyAt, List.length_append, List.length_take, List.length_drop, b.2]
  omega

theorem take_put (b : LastBlock w) {off : ℕ} {src : Bytes} (h : off + src.length ≤ msgBlkByteLen w) :
    (b.put off src).1.take (off + src.length) = b.1.take off ++ src := by
  have hlen : (b.1.take off ++ src).length = off + src.length := by
    rw [List.length_append, List.length_take, b.2]
    omega
  rw [put_eq b h, ← hlen, List.take_left]

/-- The block holds the bits that wait, and zeros behind them in the last byte. -/
structure Waiting (b : LastBlock w) (n : ℕ) (rest : List Bool) : Prop where
  length : n = rest.length
  front : (bitsOf b.1).take n = rest
  clear : n % 8 ≠ 0 → (bits (b.1.getD (n / 8) 0)).drop (n % 8) = List.replicate (8 - n % 8) false

/-- The whole bytes `r`, and `pos2` bits of `x`. -/
theorem waiting_storeTail {b : LastBlock w} {r : Bytes} (hb : b.1.take r.length = r)
    (hr : r.length < msgBlkByteLen w) (x : Byte) {pos2 : ℕ} (hpos : pos2 < 8) :
    Waiting (storeTail b r.length x pos2) (8 * r.length + pos2) (bitsOf r ++ (bits x).take pos2) := by
  have hdiv : (8 * r.length + pos2) / 8 = r.length := by omega
  have hmod : (8 * r.length + pos2) % 8 = pos2 := by omega
  have hlen : 8 * r.length + pos2 = (bitsOf r ++ (bits x).take pos2).length := by
    rw [List.length_append, length_bitsOf, List.length_take, length_bits]
    omega
  by_cases hzero : pos2 = 0
  · subst hzero
    refine ⟨hlen, ?_, fun h => absurd hmod h⟩
    rw [storeTail, if_neg (by simp), Nat.add_zero, take_bitsOf, hb, List.take_zero, List.append_nil]
  · have hmask : bits (tailByte x pos2) = (bits x).take pos2 ++ List.replicate (8 - pos2) false :=
      bits_mask ⟨pos2, hpos⟩ x
    have hfirst : ((bits x).take pos2).length = pos2 := by
      rw [List.length_take, length_bits]
      omega
    have hfits : r.length + [tailByte x pos2].length ≤ msgBlkByteLen w := hr
    have hstored := put_eq b hfits
    rw [hb] at hstored
    rw [storeTail, if_pos hzero]
    refine ⟨hlen, ?_, fun _ => ?_⟩
    · rw [hstored, List.append_assoc, bitsOf_append, List.take_append, length_bitsOf,
        List.take_of_length_le (by rw [length_bitsOf]; omega), Nat.add_sub_cancel_left]
      have hbits : bitsOf ([tailByte x pos2] ++ b.1.drop (r.length + [tailByte x pos2].length)) =
          (bits x).take pos2 ++ (List.replicate (8 - pos2) false ++
            bitsOf (b.1.drop (r.length + [tailByte x pos2].length))) := by
        rw [bitsOf_append, ← List.append_assoc, ← hmask]
        simp [bitsOf]
      rw [hbits, List.take_append_of_le_length (by omega), List.take_of_length_le (by omega)]
    · have hbyte : (b.put r.length [tailByte x pos2]).1.getD r.length 0 = tailByte x pos2 := by
        rw [hstored]
        simp [List.getD_eq_getElem?_getD]
      rw [hdiv, hmod, hbyte, hmask, List.drop_append, hfirst, Nat.sub_self, List.drop_zero,
        List.drop_of_length_le (by omega), List.nil_append]

end Blocks

/-! ### One update -/

section Updates
variable {f : Family w} {ctx : Context w}

theorem blockLen_pos (f : Family w) : 0 < msgBlkByteLen w := by
  have := f.word_pos
  simp only [msgBlkByteLen]
  omega

theorem updateBlocks_eq (hremain : ctx.remainDatabitlen = 0) {data : Bytes} (databytelen pos2 : ℕ) :
    let a := absorb (compress f.toConstants) (msgBlkByteLen w) ctx.cv (data.take databytelen)
    ∃ b : LastBlock w, b.1.take a.2.length = a.2 ∧ updateBlocks f ctx data databytelen pos2 =
      ⟨ctx.algtype, 8 * a.2.length + pos2, a.1,
        storeTail b a.2.length (data.getD databytelen 0) pos2⟩ := by
  intro a
  have hwaits : a.2.length < msgBlkByteLen w := absorb_waits (blockLen_pos f) _ _
  simp only [updateBlocks]
  by_cases hrest : 0 < a.2.length
  · refine ⟨ctx.lastBlock.put 0 a.2, ?_, ?_⟩
    · simpa using take_put ctx.lastBlock (show 0 + a.2.length ≤ msgBlkByteLen w by omega)
    · rw [if_pos hrest, Nat.shiftLeft_eq, Nat.mul_comm]
  · have hnil : a.2.length = 0 := by omega
    refine ⟨ctx.lastBlock, ?_, ?_⟩
    · rw [List.length_eq_zero_iff.mp hnil]
      rfl
    · rw [if_neg hrest, hremain, hnil]

theorem algtype_updateData (f : Family w) (ctx : Context w) (data : Bytes) (databitlen : ℕ) :
    (updateData f ctx data databitlen).algtype = ctx.algtype := by
  simp only [updateData, updateBlocks]
  split_ifs <;> rfl

/-- A block that is filled up behind its first `k` bytes. -/
theorem put_fill (b : LastBlock w) {k : ℕ} (hk : k ≤ msgBlkByteLen w) {src : Bytes}
    (hsrc : src.length = msgBlkByteLen w - k) : (b.put k src).1 = b.1.take k ++ src := by
  have hfits : k + src.length ≤ msgBlkByteLen w := by omega
  have hend : b.1.drop (k + src.length) = [] := List.drop_of_length_le (by rw [b.2]; omega)
  rw [put_eq _ hfits, hend, List.append_nil]

/-- The bytes that wait and the front of the new ones are the first block. -/
theorem absorb_filled (f : Family w) (cv : Chaining w) (b : LastBlock w) {k n : ℕ}
    (hlt : k < msgBlkByteLen w) {data : Bytes} (hdata : n ≤ data.length)
    (hlong : msgBlkByteLen w ≤ n + k) :
    absorb (compress f.toConstants) (msgBlkByteLen w) cv (b.1.take k ++ data.take n) =
      absorb (compress f.toConstants) (msgBlkByteLen w)
        (compress f.toConstants cv (b.put k (data.take (msgBlkByteLen w - k))).1)
        ((data.drop (msgBlkByteLen w - k)).take (n - (msgBlkByteLen w - k))) := by
  have hfront : (b.1.take k).length = k := by
    rw [List.length_take, b.2]
    omega
  have hnew : (data.take n).length = n := by
    rw [List.length_take]
    omega
  have hmore : (data.take (msgBlkByteLen w - k)).length = msgBlkByteLen w - k := by
    rw [List.length_take]
    omega
  have hroom : (b.1.take k).length < msgBlkByteLen w := by omega
  have htotal : msgBlkByteLen w ≤ (b.1.take k).length + (data.take n).length := by omega
  have hfill := absorb_fill (f := compress f.toConstants) (s := cv) (blockLen_pos f) hroom htotal
  rw [hfront, List.take_take, List.drop_take, Nat.min_eq_left (by omega)] at hfill
  rw [put_fill b hlt.le hmore]
  exact hfill

/-- The whole bytes go through the blocks; the bits behind them wait with the last ones. -/
theorem updateData_bytes {k : ℕ} (hk : ctx.remainDatabitlen = 8 * k) (hlt : k < msgBlkByteLen w)
    {data : Bytes} {databitlen : ℕ} (hdata : databitlen / 8 ≤ data.length) :
    let a := absorb (compress f.toConstants) (msgBlkByteLen w) ctx.cv
      (ctx.lastBlock.1.take k ++ data.take (databitlen / 8))
    ∃ b : LastBlock w, b.1.take a.2.length = a.2 ∧ updateData f ctx data databitlen =
      ⟨ctx.algtype, 8 * a.2.length + databitlen % 8, a.1,
        storeTail b a.2.length (data.getD (databitlen / 8) 0) (databitlen % 8)⟩ := by
  intro a
  have hshift : databitlen >>> 3 = databitlen / 8 := Nat.shiftRight_eq_div_pow _ 3
  have hmask : databitlen &&& 7 = databitlen % 8 := Nat.and_two_pow_sub_one_eq_mod _ 3
  have hremain : ctx.remainDatabitlen >>> 3 = k := by
    rw [hk, Nat.shiftRight_eq_div_pow]
    omega
  have hfront : (ctx.lastBlock.1.take k).length = k := by
    rw [List.length_take, ctx.lastBlock.2]
    omega
  have hnew : (data.take (databitlen / 8)).length = databitlen / 8 := by
    rw [List.length_take]
    omega
  simp only [updateData, hshift, hmask, hremain]
  by_cases hshort : databitlen / 8 + k < msgBlkByteLen w
  · -- nothing is compressed
    have ha : a = (ctx.cv, ctx.lastBlock.1.take k ++ data.take (databitlen / 8)) :=
      absorb_short (by rw [List.length_append, hfront, hnew]; omega)
    have halen : a.2.length = k + databitlen / 8 := by rw [ha, List.length_append, hfront, hnew]
    have hfits : k + (data.take (databitlen / 8)).length ≤ msgBlkByteLen w := by omega
    refine ⟨ctx.lastBlock.put k (data.take (databitlen / 8)), ?_, ?_⟩
    · rw [halen, ha, ← take_put ctx.lastBlock hfits, hnew]
    · rw [if_pos hshort, halen, ha, hk]
      congr 1
      omega
  rw [if_neg hshort]
  by_cases hwaits : 0 < k
  · -- the filled block is the first one
    let moreByte := msgBlkByteLen w - k
    have ha : a = absorb (compress f.toConstants) (msgBlkByteLen w)
        (compress f.toConstants ctx.cv (ctx.lastBlock.put k (data.take moreByte)).1)
        ((data.drop moreByte).take (databitlen / 8 - moreByte)) :=
      absorb_filled f ctx.cv ctx.lastBlock hlt hdata (by omega)
    have htail : (data.drop moreByte).getD (databitlen / 8 - moreByte) 0 =
        data.getD (databitlen / 8) 0 := by
      simp only [List.getD_eq_getElem?_getD, List.getElem?_drop]
      congr 2
      omega
    let filled : Context w := { ctx with
      lastBlock := ctx.lastBlock.put k (data.take moreByte)
      cv := compress f.toConstants ctx.cv (ctx.lastBlock.put k (data.take moreByte)).1
      remainDatabitlen := 0 }
    have hfilled : filled.remainDatabitlen = 0 := rfl
    rw [if_pos hwaits, ha, ← htail]
    exact updateBlocks_eq hfilled _ _
  · have hzero : k = 0 := by omega
    have ha : a = absorb (compress f.toConstants) (msgBlkByteLen w) ctx.cv
        (data.take (databitlen / 8)) := by
      simp only [a, hzero, List.take_zero, List.nil_append]
    rw [if_neg hwaits, ha]
    exact updateBlocks_eq (by omega) _ _

/-- The two halves of the new bits. -/
theorem take_bits {data : Bytes} {databitlen : ℕ} (h : databitlen ≤ 8 * data.length) :
    (bitsOf data).take databitlen = bitsOf (data.take (databitlen / 8)) ++
      (bits (data.getD (databitlen / 8) 0)).take (databitlen % 8) := by
  have hsplit : databitlen = 8 * (databitlen / 8) + databitlen % 8 := by omega
  conv_lhs => rw [hsplit, List.take_add, take_bitsOf, drop_bitsOf]
  by_cases hlast : databitlen / 8 < data.length
  · rw [List.drop_eq_getElem_cons hlast, bitsOf_cons, List.take_append_of_le_length (by rw [length_bits]; omega),
      List.getD_eq_getElem?_getD, List.getElem?_eq_getElem hlast, Option.getD_some]
  · rw [show databitlen % 8 = 0 by omega, List.take_zero, List.take_zero]

/-- What the context has of a message: the chaining value, and the bits that wait. -/
structure Absorbed (f : Family w) (ctx : Context w) (s : Words w) (message : List Bool) : Prop where
  cv : ctx.cv.words = (absorb (compressBits f.rounds) (32 * w) s message).1
  waits : Waiting ctx.lastBlock ctx.remainDatabitlen
    (absorb (compressBits f.rounds) (32 * w) s message).2

/-- Blocks of bytes against blocks of bits. -/
theorem absorb_bitsOf (f : Family w) (cv : Chaining w) (xs : Bytes) :
    absorb (compressBits f.rounds) (32 * w) cv.words (bitsOf xs) =
      ((absorb (compress f.toConstants) (msgBlkByteLen w) cv xs).1.words,
        bitsOf (absorb (compress f.toConstants) (msgBlkByteLen w) cv xs).2) := by
  have hbytes : 32 * w = 8 * msgBlkByteLen w := by
    rw [msgBlkByteLen]
    ring
  rw [hbytes, bitsOf, absorb_flatMap (f := fun s b => LshFunction.compress f.rounds s (blockWords b))
    length_bits (by decide) (blockLen_pos f)]
  · rw [absorb_image (φ := Chaining.words) (blockLen_pos f) (words_compress f.toConstants)]
    rfl
  · intro s b _
    rw [compressBits, show b.flatMap bits = bitsOf b from rfl, bytesOf_bitsOf]

theorem Absorbed.update {s : Words w} {message : List Bool} (h : Absorbed f ctx s message)
    (haligned : message.length % 8 = 0) {data : Bytes} {databitlen : ℕ}
    (hdata : databitlen ≤ 8 * data.length) :
    Absorbed f (updateData f ctx data databitlen) s (message ++ (bitsOf data).take databitlen) := by
  have hpos : 0 < 32 * w := by
    have := f.word_pos
    omega
  have hbytes : 32 * w = 8 * msgBlkByteLen w := by
    rw [msgBlkByteLen]
    ring
  have hlen := length_absorb (f := compressBits f.rounds) hpos s message
  have hwaits := absorb_waits (f := compressBits f.rounds) hpos s message
  obtain ⟨k, hk⟩ : ∃ k, ctx.remainDatabitlen = 8 * k := by
    refine ⟨ctx.remainDatabitlen / 8, ?_⟩
    have hmod : message.length % (8 * msgBlkByteLen w) % 8 = message.length % 8 :=
      Nat.mod_mul_right_mod _ _ _
    rw [h.waits.length, hlen, hbytes]
    omega
  have hlt : k < msgBlkByteLen w := by
    rw [← h.waits.length] at hwaits
    omega
  have hrest : (absorb (compressBits f.rounds) (32 * w) s message).2 =
      bitsOf (ctx.lastBlock.1.take k) := by
    rw [← h.waits.front, hk, take_bitsOf]
  obtain ⟨b, hb, hctx⟩ := updateData_bytes hk hlt (show databitlen / 8 ≤ data.length by omega)
  let a := absorb (compress f.toConstants) (msgBlkByteLen w) ctx.cv
    (ctx.lastBlock.1.take k ++ data.take (databitlen / 8))
  have hshort : a.2.length < msgBlkByteLen w := absorb_waits (blockLen_pos f) _ _
  let tail := (bits (data.getD (databitlen / 8) 0)).take (databitlen % 8)
  have htail : tail.length = databitlen % 8 := by
    simp only [tail, List.length_take, length_bits]
    omega
  -- the old and the new bytes go on together, and the last bits wait
  have habsorb : absorb (compressBits f.rounds) (32 * w) s
      (message ++ (bitsOf data).take databitlen) = (a.1.words, bitsOf a.2 ++ tail) := by
    rw [absorb_append hpos, hrest, ← h.cv, take_bits hdata, ← List.append_assoc, ← bitsOf_append,
      absorb_append hpos, absorb_bitsOf]
    have hroom : (bitsOf a.2 ++ tail).length < 32 * w := by
      rw [List.length_append, length_bitsOf, htail]
      omega
    exact absorb_short hroom
  rw [hctx]
  refine ⟨?_, ?_⟩
  · rw [habsorb]
  · rw [habsorb]
    exact waiting_storeTail hb hshort _ (Nat.mod_lt _ (by decide))

end Updates

/-! ### The end -/

section Ends
variable {f : Family w} {ctx : Context w}

theorem padLastBlock_eq (h : ctx.remainDatabitlen / 8 < msgBlkByteLen w) :
    (padLastBlock ctx).1 = ctx.lastBlock.1.take (ctx.remainDatabitlen / 8) ++
      [stopByte (ctx.lastBlock.1.getD (ctx.remainDatabitlen / 8) 0) (ctx.remainDatabitlen % 8)] ++
      List.replicate (msgBlkByteLen w - ctx.remainDatabitlen / 8 - 1) 0 := by
  have hshift : ctx.remainDatabitlen >>> 3 = ctx.remainDatabitlen / 8 :=
    Nat.shiftRight_eq_div_pow _ 3
  have hmask : ctx.remainDatabitlen &&& 7 = ctx.remainDatabitlen % 8 :=
    Nat.and_two_pow_sub_one_eq_mod _ 3
  simp only [padLastBlock, hshift, hmask]
  generalize stopByte _ _ = stop
  let zeros : Bytes := List.replicate (msgBlkByteLen w - ctx.remainDatabitlen / 8 - 1) 0
  have hzeros : zeros.length = msgBlkByteLen w - ctx.remainDatabitlen / 8 - 1 := List.length_replicate
  let stopped := ctx.lastBlock.put (ctx.remainDatabitlen / 8) [stop]
  have hfirst : stopped.1.take (ctx.remainDatabitlen / 8 + 1) =
      ctx.lastBlock.1.take (ctx.remainDatabitlen / 8) ++ [stop] :=
    take_put ctx.lastBlock (show _ + [stop].length ≤ _ from h)
  have hend : stopped.1.drop (ctx.remainDatabitlen / 8 + 1 + zeros.length) = [] :=
    List.drop_of_length_le (by rw [stopped.2]; omega)
  have hroom : ctx.remainDatabitlen / 8 + 1 + zeros.length ≤ msgBlkByteLen w := by omega
  rw [put_eq stopped hroom, hfirst, hend, List.append_nil]

theorem bits_stopByte {b : Byte} {p : ℕ} (hp : p < 8)
    (h : p ≠ 0 → (bits b).drop p = List.replicate (8 - p) false) :
    bits (stopByte b p) = (bits b).take p ++ true :: List.replicate (7 - p) false := by
  by_cases hzero : p = 0
  · subst hzero
    rw [stopByte, if_neg (by simp), List.take_zero]
    rfl
  · rw [stopByte, if_pos hzero]
    exact bits_stop ⟨p, hp⟩ (h hzero)

/-- The padded block, bit by bit. -/
theorem bitsOf_padLastBlock {rest : List Bool}
    (h : Waiting ctx.lastBlock ctx.remainDatabitlen rest) (hlt : rest.length < 32 * w) :
    bitsOf (padLastBlock ctx).1 =
      rest ++ true :: List.replicate (32 * w - 1 - rest.length) false := by
  have hsize : ctx.lastBlock.1.length = 4 * w := ctx.lastBlock.2
  have hlen := h.length
  have hblock : ctx.remainDatabitlen / 8 < msgBlkByteLen w := by
    rw [msgBlkByteLen]
    omega
  have hwhole := take_bits (show ctx.remainDatabitlen ≤ 8 * ctx.lastBlock.1.length by omega)
  rw [h.front] at hwhole
  have hcount : 7 - ctx.remainDatabitlen % 8 +
      8 * (msgBlkByteLen w - ctx.remainDatabitlen / 8 - 1) = 32 * w - 1 - rest.length := by
    rw [msgBlkByteLen]
    omega
  rw [padLastBlock_eq hblock, ← hcount, hwhole, bitsOf_append, bitsOf_append, bitsOf_zeros,
    bitsOf_cons, bits_stopByte (Nat.mod_lt _ (by decide)) h.clear,
    ← List.replicate_append_replicate]
  simp [bitsOf]

theorem fin_eq (cv : Chaining w) : fin cv = folded cv.words := rfl

theorem getHashbit_eq {algtype : LshType} (hlo : 0 < getHashbyte algtype)
    (hsmall : getSmallHashbit algtype < 8) :
    getHashbit algtype = 8 * getHashbyte algtype - getSmallHashbit algtype := by
  simp only [getHashbit, getHashbyte, getSmallHashbit] at *
  have hhi : (algtype &&& 0xffff).toNat < 2 ^ 16 := by
    rw [BitVec.toNat_and]
    exact Nat.and_lt_two_pow _ (by decide)
  rw [BitVec.toNat_sub, BitVec.toNat_shiftLeft, Nat.shiftLeft_eq]
  omega

/-- The mask of the last byte of a hash value. -/
private theorem mask_low : ∀ n : Fin 8, n.val ≠ 0 →
    BitVec.ofNat 8 (0xff <<< n.val) = BitVec.ofNat 8 (0xff >>> (8 - n.val)) ^^^ 0xff := by decide

/-- `hashval` behind `get_hash`: the bits of the hash value, and zeros in the rest of the byte. -/
theorem bitsOf_getHash (hw : w % 8 = 0) (cv : Chaining w) {algtype : LshType}
    (hlo : 0 < getHashbyte algtype) (hhi : getHashbyte algtype ≤ w)
    (hsmall : getSmallHashbit algtype < 8) :
    bitsOf (getHash (fin cv) algtype) = (bitsOf (folded cv.words)).take (getHashbit algtype) ++
      List.replicate (getSmallHashbit algtype) false := by
  have hbit := getHashbit_eq hlo hsmall
  have hlen : (folded cv.words).length = w := by
    rw [length_folded]
    omega
  rw [fin_eq, getHash, hbit]
  generalize folded cv.words = cvl at hlen ⊢
  generalize getHashbyte algtype = n at hlo hhi
  generalize getSmallHashbit algtype = small at hsmall
  by_cases hzero : small = 0
  · rw [hzero, if_neg (by simp), Nat.sub_zero, take_bitsOf, List.replicate_zero, List.append_nil]
  · obtain ⟨n, rfl⟩ : ∃ m, n = m + 1 := ⟨n - 1, by omega⟩
    have hlast : n < cvl.length := by omega
    have hsplit := take_bits (show 8 * (n + 1) - small ≤ 8 * cvl.length by omega)
    rw [show (8 * (n + 1) - small) / 8 = n by omega,
      show (8 * (n + 1) - small) % 8 = 8 - small by omega] at hsplit
    have hbyte : bits (cvl.getD n 0 &&& BitVec.ofNat 8 (0xff <<< small)) =
        (bits (cvl.getD n 0)).take (8 - small) ++ List.replicate small false := by
      rw [mask_low ⟨small, hsmall⟩ hzero, bits_mask ⟨8 - small, by omega⟩]
      congr 2
      simp only
      omega
    have hmodify : (cvl.take (n + 1)).modify n (· &&& BitVec.ofNat 8 (0xff <<< small)) =
        cvl.take n ++ [cvl.getD n 0 &&& BitVec.ofNat 8 (0xff <<< small)] := by
      have hin : n < (cvl.take (n + 1)).length := by
        rw [List.length_take]
        omega
      rw [List.modify_eq_take_cons_drop hin, List.take_take, List.getElem_take, List.drop_take,
        Nat.sub_self, List.take_zero, Nat.min_eq_left (by omega), List.getD_eq_getElem?_getD,
        List.getElem?_eq_getElem hlast, Option.getD_some]
    rw [if_pos hzero, Nat.add_sub_cancel, hmodify, bitsOf_append, bitsOf_cons, hbyte, hsplit]
    simp [bitsOf]

end Ends

/-! ### The object -/

/-- A type that `LSH_MAKE_TYPE` makes for the family. -/
structure Accepted (f : Family w) (t : LshType) : Prop where
  isType : f.isType t = true
  hashByte_pos : 0 < getHashbyte t
  hashByte_le : getHashbyte t ≤ hashValMaxByteLen w
  smallBit_lt : getSmallHashbit t < 8

abbrev AlgType (f : Family w) := {t : LshType // Accepted f t}

/-- The hash of the first bits of a message, as whole bytes. -/
def hashValue (f : Family w) (t : AlgType f) (message : List Bool) : Bytes :=
  bytesOf (digest f.rounds (hashValMaxByteLen w) (getHashbit t.1) message ++
    List.replicate (getSmallHashbit t.1) false)

inductive Call (f : Family w) where
  | init (t : AlgType f)
  | update (data : Option Bytes) (databitlen : ℕ) (fits : ∀ d ∈ data, databitlen ≤ 8 * d.length)
  | final

abbrev Answer := LshErr × Option Bytes

def Call.run {f : Family w} (ctx : Context w) : Call f → Answer × Context w
  | .init t =>
    let (result, ctx) := lshInit f ctx t.1
    ((result, none), ctx)
  | .update data databitlen _ =>
    let (result, ctx) := lshUpdate f ctx data databitlen
    ((result, none), ctx)
  | .final =>
    let (result, hashval, ctx) := lshFinal f ctx
    ((result, hashval), ctx)

/-- The type and the message so far; nothing behind the end. -/
abbrev Message (f : Family w) := Option (AlgType f × List Bool)

/-- A hash object that keeps the message, and hashes it at the end. -/
def Call.expected {f : Family w} (m : Message f) : Call f → Answer × Message f
  | .init t => ((.success, none), some (t, []))
  | .update data databitlen _ =>
    if f.lengthFirst ∧ databitlen = 0 then ((.success, none), m)
    else match data, m with
      | none, _ => ((.nullPtr, none), m)
      | some _, none => ((.invalidState, none), m)
      | some data, some (t, message) =>
        if databitlen = 0 then ((.success, none), m)
        else if message.length % 8 ≠ 0 then ((.invalidDatabitlen, none), m)
        else ((.success, none), some (t, message ++ (bitsOf data).take databitlen))
  | .final => match m with
    | none => ((.invalidState, none), none)
    | some (t, message) => ((.success, some (hashValue f t message)), none)

section Objects
variable {f : Family w} {ctx : Context w}

/-- The context of an object. -/
def Represents (f : Family w) (ctx : Context w) : Message f → Prop
  | none => ctx.algtype = 0
  | some (t, message) => ctx.algtype = t.1 ∧
    Absorbed f ctx (initial f.rounds (hashValMaxByteLen w) (getHashbit t.1)) message

theorem words_computedIv (c : Constants w) (algtype : LshType) :
    (computedIv c algtype).words = initial c.rounds (hashValMaxByteLen w) (getHashbit algtype) := by
  rw [computedIv, words_mixPairs c _ (Nat.le_refl _)]
  congr 1
  funext l
  fin_cases l <;> rfl

theorem lshInit_accepted (ctx : Context w) (t : AlgType f) : lshInit f ctx t.1 =
    (.success, ⟨t.1, 0, computedIv f.toConstants t.1, ctx.lastBlock⟩) := by
  have hbytes : ¬ (hashValMaxByteLen w < getHashbyte t.1 ∨ getHashbyte t.1 = 0) := by
    have := t.2.hashByte_pos
    have := t.2.hashByte_le
    omega
  simp only [lshInit, t.2.isType, Bool.not_true, Bool.false_eq_true, if_false, if_neg hbytes]
  cases hiv : f.ivs.lookup t.1 with
  | none => rfl
  | some iv =>
    obtain ⟨before, after, hsplit, -⟩ := List.lookup_eq_some_iff.mp hiv
    have htable := f.ivs_computed (t.1, iv) (by rw [hsplit]; simp)
    simp only at htable
    rw [htable]

theorem represents_init (ctx : Context w) (t : AlgType f) :
    Represents f (lshInit f ctx t.1).2 (some (t, [])) := by
  rw [lshInit_accepted]
  refine ⟨rfl, ⟨?_, ?_⟩⟩
  · rw [absorb_nil]
    exact words_computedIv _ _
  · rw [absorb_nil]
    exact ⟨rfl, rfl, fun h => absurd rfl h⟩

theorem stateInvalid_cleared (h : ctx.algtype = 0) : stateInvalid ctx = true := by
  simp [stateInvalid, h]

theorem stateInvalid_accepted {t : AlgType f} (h : ctx.algtype = t.1) : stateInvalid ctx = false := by
  have hlo := t.2.hashByte_pos
  have hhi := t.2.hashByte_le
  have hne : t.1 ≠ 0 := by
    intro hzero
    rw [hzero] at hlo
    exact absurd hlo (by decide)
  simp only [stateInvalid, h, beq_eq_false_iff_ne.mpr hne, Bool.false_or, decide_eq_false_iff_not]
  omega

/-- How many bits wait. -/
theorem Absorbed.remain {s : Words w} {message : List Bool} (h : Absorbed f ctx s message) :
    ctx.remainDatabitlen = message.length % (32 * w) := by
  rw [h.waits.length]
  exact length_absorb (by have := f.word_pos; omega) _ _

theorem Absorbed.remain_bits {s : Words w} {message : List Bool} (h : Absorbed f ctx s message) :
    ctx.remainDatabitlen >>> 3 < msgBlkByteLen w ∧
      ctx.remainDatabitlen &&& 7 = message.length % 8 := by
  have hpos := f.word_pos
  have hlt : message.length % (8 * (4 * w)) < 8 * (4 * w) := Nat.mod_lt _ (by omega)
  have hmod : message.length % (8 * (4 * w)) % 8 = message.length % 8 := Nat.mod_mul_right_mod _ _ _
  have hmask : ctx.remainDatabitlen &&& 7 = ctx.remainDatabitlen % 8 :=
    Nat.and_two_pow_sub_one_eq_mod _ 3
  have hbytes : 32 * w = 8 * (4 * w) := by ring
  rw [Nat.shiftRight_eq_div_pow, hmask, h.remain, hbytes, msgBlkByteLen]
  omega

theorem update_expected {m : Message f} (h : Represents f ctx m) (data : Option Bytes)
    (databitlen : ℕ) (fits : ∀ d ∈ data, databitlen ≤ 8 * d.length) :
    ((Call.update data databitlen fits : Call f).run ctx).1 =
        ((Call.update data databitlen fits : Call f).expected m).1 ∧
      Represents f ((Call.update data databitlen fits : Call f).run ctx).2
        ((Call.update data databitlen fits : Call f).expected m).2 := by
  by_cases hfirst : f.lengthFirst ∧ databitlen = 0
  · simp only [Call.run, lshUpdate, Call.expected, if_pos hfirst]
    exact ⟨trivial, h⟩
  cases data with
  | none =>
    simp only [Call.run, lshUpdate, Call.expected, if_neg hfirst]
    exact ⟨trivial, h⟩
  | some data =>
    cases m with
    | none =>
      simp only [Call.run, lshUpdate, Call.expected, if_neg hfirst, stateInvalid_cleared h, if_true]
      exact ⟨trivial, h⟩
    | some m =>
      obtain ⟨t, message⟩ := m
      obtain ⟨htype, habsorbed⟩ := h
      obtain ⟨hbyte, hbit⟩ := habsorbed.remain_bits
      simp only [Call.run, lshUpdate, Call.expected, if_neg hfirst, stateInvalid_accepted htype,
        Bool.false_eq_true, if_false, if_neg (Nat.not_le.mpr hbyte), hbit]
      by_cases hzero : databitlen = 0
      · simp only [if_pos hzero]
        exact ⟨trivial, htype, habsorbed⟩
      · simp only [if_neg hzero]
        by_cases haligned : message.length % 8 = 0
        · rw [if_neg (by omega), if_neg (by omega)]
          exact ⟨rfl, (algtype_updateData f ctx data databitlen).trans htype,
            habsorbed.update haligned (fits data rfl)⟩
        · rw [if_pos (by omega), if_pos (by omega)]
          exact ⟨rfl, htype, habsorbed⟩

/-- The end of a message. -/
theorem lshFinal_eq {t : AlgType f} {message : List Bool} (h : Represents f ctx (some (t, message))) :
    lshFinal f ctx = (.success, some (hashValue f t message), zeroContext w) := by
  obtain ⟨htype, habsorbed⟩ := h
  have hpos : 0 < 32 * w := by
    have := f.word_pos
    omega
  obtain ⟨hbyte, -⟩ := habsorbed.remain_bits
  -- the padded block is the last one of the padded message
  have hpadded := bitsOf_padLastBlock habsorbed.waits (absorb_waits hpos _ _)
  have hchain : (compress f.toConstants ctx.cv (padLastBlock ctx).1).words =
      chain f.rounds (hashValMaxByteLen w) (getHashbit t.1) message := by
    rw [words_compress, chain, hashBlocks_eq hpos, ← hpadded, compressBits, bytesOf_bitsOf,
      ← habsorbed.cv]
  have hbits := bitsOf_getHash f.wholeBytes (compress f.toConstants ctx.cv (padLastBlock ctx).1)
    t.2.hashByte_pos t.2.hashByte_le t.2.smallBit_lt
  rw [hchain] at hbits
  simp only [lshFinal, stateInvalid_accepted htype, Bool.false_eq_true, if_false,
    if_neg (Nat.not_le.mpr hbyte)]
  rw [htype, hashValue, digest, ← hbits, bytesOf_bitsOf]

theorem final_expected {m : Message f} (h : Represents f ctx m) :
    ((Call.final : Call f).run ctx).1 = ((Call.final : Call f).expected m).1 ∧
      Represents f ((Call.final : Call f).run ctx).2 ((Call.final : Call f).expected m).2 := by
  cases m with
  | none =>
    simp only [Call.run, lshFinal, Call.expected, stateInvalid_cleared h, if_true]
    exact ⟨trivial, h⟩
  | some m =>
    simp only [Call.run, lshFinal_eq h, Call.expected]
    exact ⟨trivial, rfl⟩

/-- Whole bytes are always taken. -/
theorem lshUpdate_eq {t : AlgType f} {message : List Bool} (h : Represents f ctx (some (t, message)))
    (haligned : message.length % 8 = 0) {data : Bytes} {databitlen : ℕ}
    (hdata : databitlen ≤ 8 * data.length) :
    ∃ ctx', lshUpdate f ctx (some data) databitlen = (.success, ctx') ∧
      Represents f ctx' (some (t, message ++ (bitsOf data).take databitlen)) := by
  have hfits : ∀ d ∈ some data, databitlen ≤ 8 * d.length := by
    intro d hd
    cases hd
    exact hdata
  have hexpected : (Call.update (some data) databitlen hfits : Call f).expected (some (t, message)) =
      ((.success, none), some (t, message ++ (bitsOf data).take databitlen)) := by
    by_cases hzero : databitlen = 0
    · subst hzero
      simp [Call.expected]
    · simp [Call.expected, hzero, haligned]
  obtain ⟨hanswer, hstate⟩ := update_expected h (some data) databitlen hfits
  rw [hexpected] at hanswer hstate
  have hsuccess : (lshUpdate f ctx (some data) databitlen).1 = .success :=
    congrArg (fun r : Answer => r.1) hanswer
  exact ⟨_, Prod.ext hsuccess rfl, hstate⟩

example :
    let ctx := (lshUpdate lsh256 (lshInit lsh256 (zeroContext 32) lshType256).2
      (some [0x61, 0x62, 0x63]) 24).2
    (lshFinal lsh256 ctx).2.1 = some [0x5f, 0xbf, 0x36, 0x5d, 0xae, 0xa5, 0x44, 0x6a, 0x70, 0x53,
      0xc5, 0x2b, 0x57, 0x40, 0x4d, 0x77, 0xa0, 0x7a, 0x5f, 0x48, 0xa1, 0xf7, 0xc1, 0x96, 0x3a, 0x08,
      0x98, 0xba, 0x1b, 0x71, 0x47, 0x41] := by decide +kernel

end Objects

end ModbusSecurity.LshHash
