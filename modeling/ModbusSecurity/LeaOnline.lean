import ModbusSecurity.CounterMode

/-! # LEA-CTR through the buffering stream interface

`lea_ctr_enc` (the portable build, one block at a time), the CTR part of
`lea_online_update` and `lea_online_final`, and `lea_ctr_crypt` on top of them. The
block function is a parameter: `lea_encrypt` under the caller's key schedule. Every
function also reports the counter blocks it gave to the block function. -/
namespace ModbusSecurity.LeaOnline
open ByteStrings CounterMode

/-- `ctr128_inc`, from the last byte: the carry out of a suffix moves into the byte
before it. -/
def incCarry : Bytes → Bytes × Bool
  | [] => ([], true)
  | b :: bs =>
    let (bs', carry) := incCarry bs
    if carry then ((b + 1) :: bs', b + 1 == 0) else (b :: bs', false)

def ctr128Inc (counter : Bytes) : Bytes := (incCarry counter).1

/-- What `lea_ctr_enc` leaves: the text, the counter block and the blocks used. -/
structure CtrResult where
  ct : Bytes
  ctr : Bytes
  used : List Bytes

/-- The loop over `remainBlock` and the tail of `pt_len & 0xf` bytes after it. The
tail does not move the counter. -/
def ctrEncLoop (E : Bytes → Bytes) (tail : ℕ) : ℕ → Bytes → Bytes → CtrResult
  | 0, pt, ctr =>
    if tail = 0 then ⟨[], ctr, []⟩ else ⟨xorBytes (pt.take tail) (E ctr), ctr, [ctr]⟩
  | remainBlock + 1, pt, ctr =>
    let rest := ctrEncLoop E tail remainBlock (pt.drop 16) (ctr128Inc ctr)
    ⟨xorBytes (pt.take 16) (E ctr) ++ rest.ct, rest.ctr, ctr :: rest.used⟩

def leaCtrEnc (E : Bytes → Bytes) (pt : Bytes) (ctr : Bytes) : CtrResult :=
  ctrEncLoop E (pt.length &&& 0xf) (pt.length >>> 4) pt ctr

/-- The two `encType` values that `lea_ctr_crypt` passes. -/
inductive CtrEncType | enc | dec
  deriving DecidableEq, Repr

def CtrEncType.flags : CtrEncType → ℕ
  | .enc => 0x403001
  | .dec => 0x403002

/-- `LEA_ONLINE_CTX` without the key, which is in the block function. -/
structure OnlineCtx where
  iv : Bytes
  last_block : Bytes
  nlast_block : ℕ
  encType : CtrEncType

/-- A cleared 16-byte buffer. -/
def zeroBlock : Bytes := List.replicate 16 0

/-- `lea_online_init_ex`: everything zero but the mode and the counter block. -/
def leaOnlineInitEx (encType : CtrEncType) (iv : Bytes) : OnlineCtx :=
  ⟨iv, zeroBlock, 0, encType⟩

/-- `memcpy(dst + off, src, src_len)` inside the buffer `dst`. -/
def copyAt (dst : Bytes) (off : ℕ) (src : Bytes) : Bytes :=
  dst.take off ++ src ++ dst.drop (off + src.length)

structure OnlineResult where
  ret : ℤ
  out : Bytes
  ctx : OnlineCtx
  used : List Bytes

/-- The second half of `lea_online_update`: complete `last_block`, run the full one
and the whole blocks of the input, keep the rest for later. -/
def onlineBlocks (E : Bytes → Bytes) (ctx : OnlineCtx) (inp : Bytes) : OnlineResult :=
  let more := if 0 < ctx.nlast_block ∧ ctx.nlast_block ≠ 16 then 16 - ctx.nlast_block else 0
  let last_block := copyAt ctx.last_block ctx.nlast_block (inp.take more)
  let full := 0 < ctx.nlast_block
  let inp := inp.drop more
  let block_len := (inp.length >>> 4) <<< 4
  let block_len :=
    if ctx.encType.flags &&& 0x40 ≠ 0 ∧ inp.length = block_len then block_len - 16 else block_len
  let first := if full then leaCtrEnc E last_block ctx.iv else ⟨[], ctx.iv, []⟩
  let whole :=
    if block_len ≠ 0 then leaCtrEnc E (inp.take block_len) first.ctr else ⟨[], first.ctr, []⟩
  let last_block := if full then zeroBlock else last_block
  let rest := inp.drop block_len
  { ret := (if full then 16 else 0) + block_len
    out := first.ct ++ whole.ct
    ctx := { ctx with
      iv := whole.ctr
      last_block := copyAt last_block 0 rest
      nlast_block := rest.length }
    used := first.used ++ whole.used }

/-- `lea_online_update` for the CTR modes; the pointers are never null here. -/
def leaOnlineUpdate (E : Bytes → Bytes) (ctx : OnlineCtx) (inp : Bytes) (in_len : ℤ) :
    OnlineResult :=
  if in_len = 0 then ⟨0, [], ctx, []⟩
  else if in_len < 0 then ⟨-2, [], ctx, []⟩
  else if 16 < ctx.nlast_block then ⟨-3, [], ctx, []⟩
  else
    let inp := inp.take in_len.toNat
    if inp.length + ctx.nlast_block ≤ 16 then
      let ctx := { ctx with
        last_block := copyAt ctx.last_block ctx.nlast_block inp
        nlast_block := ctx.nlast_block + inp.length }
      if ctx.encType.flags &&& 0x40 ≠ 0 ∨ ctx.nlast_block ≠ 16 then ⟨0, [], ctx, []⟩
      else onlineBlocks E ctx []
    else onlineBlocks E ctx inp

/-- `lea_online_final` for the CTR modes. -/
def leaOnlineFinal (E : Bytes → Bytes) (ctx : OnlineCtx) : OnlineResult :=
  if 16 < ctx.nlast_block then ⟨-3, [], ctx, []⟩
  else if ctx.encType.flags &&& 0x10 ≠ 0 ∧ 0 < ctx.nlast_block % 16 then ⟨-2, [], ctx, []⟩
  else if ctx.encType.flags &&& 0x40 ≠ 0 ∧ ctx.nlast_block ≠ 16 then ⟨-2, [], ctx, []⟩
  else if ctx.encType.flags &&& 0x40 = 0 ∧ ctx.nlast_block = 16 then ⟨-3, [], ctx, []⟩
  else
    let cleared : OnlineCtx := ⟨zeroBlock, zeroBlock, 0, ctx.encType⟩
    if ctx.nlast_block = 0 then ⟨0, [], cleared, []⟩
    else
      let r := leaCtrEnc E ctx.last_block ctx.iv
      ⟨ctx.nlast_block, r.ct.take ctx.nlast_block, cleared, r.used⟩

/-- The counter block `ctr_high || ctr_low` of `lea_ctr_crypt`. -/
def ctrBlock (ctr_high : Bytes) (ctr_low : BitVec 32) : Bytes :=
  ctr_high ++ [ctr_low.extractLsb' 24 8, ctr_low.extractLsb' 16 8, ctr_low.extractLsb' 8 8,
    ctr_low.extractLsb' 0 8]

/-- The bytes `lea_ctr_crypt` writes and the counter blocks it consumes. -/
structure CryptResult where
  out : Bytes
  used : List Bytes

/-- `lea_ctr_crypt`. The input length passes through a cast to `int`. -/
def leaCtrCrypt (E : Bytes → Bytes) (ctr_high : Bytes) (ctr_low : BitVec 32) (is_encrypt : Bool)
    (inp : Bytes) : CryptResult :=
  let ctx := leaOnlineInitEx (if is_encrypt then .enc else .dec) (ctrBlock ctr_high ctr_low)
  let upd := leaOnlineUpdate E ctx inp (BitVec.ofNat 32 inp.length).toInt
  let fin := leaOnlineFinal E upd.ctx
  ⟨upd.out ++ fin.out, upd.used ++ fin.used⟩

theorem incCarry_spec (bs : Bytes) :
    (incCarry bs).1.length = bs.length ∧
      beValue (incCarry bs).1 + (if (incCarry bs).2 then 256 ^ bs.length else 0) =
        beValue bs + 1 := by
  induction bs with
  | nil => simp [incCarry]
  | cons b bs ih =>
    obtain ⟨hl, hv⟩ := ih
    rcases hc : incCarry bs with ⟨bs', carry⟩
    simp only [hc] at hl hv
    cases carry with
    | false =>
      simp only [incCarry, hc, Bool.false_eq_true, if_false, List.length_cons, hl, Nat.add_zero,
        beValue_cons, true_and] at hv ⊢
      omega
    | true =>
      simp only [incCarry, hc, if_true, List.length_cons, hl, beValue_cons, true_and, beq_iff_eq]
        at hv ⊢
      have hb := b.isLt
      by_cases h0 : b + 1 = 0
      · have hb255 : b.toNat = 255 := by
          have := congrArg BitVec.toNat h0
          simp at this
          omega
        rw [if_pos h0, h0, hb255, pow_succ]
        simp
        omega
      · have hb1 : (b + 1).toNat = b.toNat + 1 := by
          have : b.toNat ≠ 255 := by
            intro h
            apply h0
            apply BitVec.eq_of_toNat_eq
            simp [h]
          simp
          omega
        rw [if_neg h0, hb1, Nat.mul_succ]
        omega

@[simp] theorem length_ctr128Inc (bs : Bytes) : (ctr128Inc bs).length = bs.length :=
  (incCarry_spec bs).1

/-- `ctr128_inc` adds one to the big-endian number, wrapping at its width. -/
theorem beValue_ctr128Inc (bs : Bytes) :
    beValue (ctr128Inc bs) = (beValue bs + 1) % 256 ^ bs.length := by
  obtain ⟨hl, hv⟩ := incCarry_spec bs
  have hlt := beValue_lt (incCarry bs).1
  rw [hl] at hlt
  unfold ctr128Inc
  cases hc : (incCarry bs).2 with
  | false =>
    rw [hc] at hv
    simp only [Bool.false_eq_true, if_false, Nat.add_zero] at hv
    rw [← hv, Nat.mod_eq_of_lt hlt]
  | true =>
    rw [hc, if_pos rfl] at hv
    rw [← hv, Nat.add_mod_right, Nat.mod_eq_of_lt hlt]

/-- The counter block of the 128-bit number `c`. -/
def counterBlock (c : ℕ) : Bytes := beBytes 16 c

@[simp] theorem length_counterBlock (c : ℕ) : (counterBlock c).length = 16 := by
  simp [counterBlock]

theorem ctr128Inc_counterBlock (c : ℕ) : ctr128Inc (counterBlock c) = counterBlock (c + 1) := by
  apply beValue_injective
  · simp
  · rw [beValue_ctr128Inc, length_counterBlock, counterBlock, counterBlock, beValue_beBytes,
      beValue_beBytes, Nat.mod_add_mod]

theorem counterBlock_injective {c d : ℕ} (hc : c < 2 ^ 128) (hd : d < 2 ^ 128)
    (h : counterBlock c = counterBlock d) : c = d := by
  have hv := congrArg beValue h
  rw [counterBlock, counterBlock, beValue_beBytes, beValue_beBytes, Nat.mod_eq_of_lt (by omega),
    Nat.mod_eq_of_lt (by omega)] at hv
  exact hv

theorem ctrBlock_eq (ctr_high : Bytes) (ctr_low : BitVec 32) (h : ctr_high.length = 12) :
    ctrBlock ctr_high ctr_low =
      counterBlock (2 ^ 32 * beValue ctr_high + ctr_low.toNat) := by
  have hlow : beValue [ctr_low.extractLsb' 24 8, ctr_low.extractLsb' 16 8,
      ctr_low.extractLsb' 8 8, ctr_low.extractLsb' 0 8] = ctr_low.toNat := by
    have := ctr_low.isLt
    simp [beValue, BitVec.extractLsb'_toNat, Nat.shiftRight_eq_div_pow]
    omega
  apply beValue_injective
  · simp [ctrBlock, h]
  · have hlt := beValue_lt ctr_high
    have := ctr_low.isLt
    rw [h] at hlt
    rw [ctrBlock, beValue_append, hlow, counterBlock, beValue_beBytes, Nat.mod_eq_of_lt]
    · simp
    · simp
      omega

/-- The counter blocks of the `n` numbers from `c` on. -/
def counterBlocks (c n : ℕ) : List Bytes := (List.range' c n).map counterBlock

theorem counterBlocks_append (c k n : ℕ) :
    counterBlocks c (k + n) = counterBlocks c k ++ counterBlocks (c + k) n := by
  rw [counterBlocks, counterBlocks, counterBlocks, ← List.map_append]
  simp

theorem counterBlocks_succ (c n : ℕ) :
    counterBlocks c (n + 1) = counterBlock c :: counterBlocks (c + 1) n := by
  simp [counterBlocks, List.range'_succ]

/-- The keystream block of the 128-bit counter `c`. -/
def keyBlock (E : Bytes → Bytes) (c : ℕ) : Bytes := E (counterBlock c)

section Stream
variable {E : Bytes → Bytes}

theorem length_keyBlock (hE : ∀ b, (E b).length = 16) (c : ℕ) : (keyBlock E c).length = 16 :=
  hE _

theorem ctrEncLoop_eq (hE : ∀ b, (E b).length = 16) (tail k : ℕ) (ht : tail < 16) (pt : Bytes)
    (c : ℕ) (hlen : pt.length = 16 * k + tail) :
    ctrEncLoop E tail k pt (counterBlock c) =
      ⟨ctrMode 16 (keyBlock E) c pt, counterBlock (c + k),
        counterBlocks c (blockCount 16 pt.length)⟩ := by
  induction k generalizing pt c with
  | zero =>
    by_cases h0 : tail = 0
    · obtain rfl : pt = [] := List.length_eq_zero_iff.mp (by omega)
      simp [ctrEncLoop, h0, ctrMode, counterBlocks]
    · have hs : ctrMode 16 (keyBlock E) c pt = xorBytes pt (keyBlock E c) :=
        ctrMode_short c pt (by omega) (by omega)
      have hb : blockCount 16 pt.length = 1 := blockCount_eq_one (by omega) (by omega)
      have htake : pt.take tail = pt := List.take_of_length_le (by omega)
      simp [ctrEncLoop, h0, hs, hb, counterBlocks, htake, keyBlock]
  | succ k ih =>
    have hd : (pt.drop 16).length = 16 * k + tail := by simp [hlen]; omega
    have ht16 : (pt.take 16).length = 16 * 1 := by simp [hlen]; omega
    have hsplit := ctrMode_append (by omega) (length_keyBlock hE) c 1 (pt.take 16) (pt.drop 16)
      ht16
    have hfirst : ctrMode 16 (keyBlock E) c (pt.take 16) = xorBytes (pt.take 16) (keyBlock E c) :=
      ctrMode_short c _ (by omega) (by omega)
    have hn : blockCount 16 pt.length = blockCount 16 (pt.drop 16).length + 1 := by
      have h := blockCount_add_mul (show 0 < 16 by omega) 1 (16 * k + tail)
      rw [hlen, show 16 * (k + 1) + tail = 16 * 1 + (16 * k + tail) by omega, h, hd, Nat.add_comm]
    rw [List.take_append_drop, hfirst] at hsplit
    simp only [ctrEncLoop, ctr128Inc_counterBlock, ih _ (c + 1) hd]
    rw [hsplit, hn, counterBlocks_succ, show c + (k + 1) = c + 1 + k by omega]
    rfl

theorem leaCtrEnc_eq (hE : ∀ b, (E b).length = 16) (pt : Bytes) (c : ℕ) :
    leaCtrEnc E pt (counterBlock c) =
      ⟨ctrMode 16 (keyBlock E) c pt, counterBlock (c + pt.length / 16),
        counterBlocks c (blockCount 16 pt.length)⟩ := by
  have hand : pt.length &&& 0xf = pt.length % 16 := Nat.and_two_pow_sub_one_eq_mod _ 4
  have hshift : pt.length >>> 4 = pt.length / 16 := Nat.shiftRight_eq_div_pow _ 4
  rw [leaCtrEnc, hand, hshift]
  exact ctrEncLoop_eq hE _ _ (by omega) pt c (by omega)

@[simp] theorem keepLast_clear (t : CtrEncType) : t.flags &&& 0x40 = 0 := by cases t <;> rfl

@[simp] theorem len16_clear (t : CtrEncType) : t.flags &&& 0x10 = 0 := by cases t <;> rfl

/-- The final call turns a buffered tail of fewer than sixteen bytes into counter
mode at the counter that the whole blocks left behind. -/
theorem leaOnlineFinal_eq (hE : ∀ b, (E b).length = 16) (t : CtrEncType) (c : ℕ)
    (pad rest : Bytes) (hr : rest.length < 16) (hp : pad.length + rest.length = 16) :
    (leaOnlineFinal E ⟨counterBlock c, rest ++ pad, rest.length, t⟩).out =
        ctrMode 16 (keyBlock E) c rest ∧
      (leaOnlineFinal E ⟨counterBlock c, rest ++ pad, rest.length, t⟩).used =
        counterBlocks c (blockCount 16 rest.length) := by
  have h16 : rest.length ≠ 16 := by omega
  by_cases h0 : rest.length = 0
  · obtain rfl : rest = [] := List.length_eq_zero_iff.mp h0
    simp [leaOnlineFinal, ctrMode, counterBlocks]
  · have hlen : (rest ++ pad).length = 16 := by simp; omega
    have hlast := leaCtrEnc_eq hE (rest ++ pad) c
    rw [ctrMode_short c _ (by omega) (by omega), hlen] at hlast
    have htail : (xorBytes (rest ++ pad) (keyBlock E c)).take rest.length =
        xorBytes rest (keyBlock E c) := by
      rw [xorBytes, List.take_zipWith, List.take_left, ← xorBytes, xorBytes_take_right]
    have hshort : ctrMode 16 (keyBlock E) c rest = xorBytes rest (keyBlock E c) :=
      ctrMode_short c rest (by omega) (by omega)
    have hone : blockCount 16 rest.length = 1 := blockCount_eq_one (by omega) (by omega)
    have hone' : blockCount 16 16 = 1 := rfl
    simp [leaOnlineFinal, h0, h16, hlast, htail, hshort, hone, hone', show ¬ 16 < rest.length by omega]

private theorem copyAt_zeroBlock (src : Bytes) :
    copyAt zeroBlock 0 src = src ++ List.replicate (16 - src.length) 0 := by
  rw [copyAt, zeroBlock, List.drop_replicate]
  simp

/-- Up to fifteen bytes wait in `last_block` for the final call. -/
theorem leaOnlineUpdate_short (t : CtrEncType) (c : ℕ) {inp : Bytes} (hs : inp.length < 16) :
    leaOnlineUpdate E (leaOnlineInitEx t (counterBlock c)) inp inp.length =
      ⟨0, [], ⟨counterBlock c, inp ++ List.replicate (16 - inp.length) 0, inp.length, t⟩, []⟩ := by
  by_cases h0 : inp.length = 0
  · obtain rfl : inp = [] := List.length_eq_zero_iff.mp h0
    rfl
  · have hne : inp ≠ [] := fun h => h0 (by simp [h])
    simp [leaOnlineUpdate, leaOnlineInitEx, hne, copyAt_zeroBlock, hs.le, hs.ne]

/-- Sixteen bytes fill `last_block` and are encrypted from there. -/
theorem leaOnlineUpdate_block (hE : ∀ b, (E b).length = 16) (t : CtrEncType) (c : ℕ)
    {inp : Bytes} (hs : inp.length = 16) :
    leaOnlineUpdate E (leaOnlineInitEx t (counterBlock c)) inp inp.length =
      ⟨16, ctrMode 16 (keyBlock E) c inp, ⟨counterBlock (c + 1), zeroBlock, 0, t⟩,
        counterBlocks c (blockCount 16 16)⟩ := by
  have henc := leaCtrEnc_eq hE inp c
  have htake : inp.take 16 = inp := List.take_of_length_le (by omega)
  have hbuf : copyAt (copyAt zeroBlock 0 (inp.take 16)) 16 [] = inp := by
    simp [htake, copyAt, zeroBlock, hs]
  have hzero : copyAt zeroBlock 0 [] = zeroBlock := rfl
  rw [hs, Nat.div_self (by omega)] at henc
  simp [leaOnlineUpdate, leaOnlineInitEx, onlineBlocks, hs, hbuf, hzero, henc]

/-- Of more than sixteen bytes the whole blocks go out and the tail is kept. -/
theorem leaOnlineUpdate_long (hE : ∀ b, (E b).length = 16) (t : CtrEncType) (c : ℕ)
    {inp : Bytes} (hs : 16 < inp.length) :
    leaOnlineUpdate E (leaOnlineInitEx t (counterBlock c)) inp inp.length =
      { ret := inp.length / 16 * 16
        out := ctrMode 16 (keyBlock E) c (inp.take (inp.length / 16 * 16))
        ctx := ⟨counterBlock (c + inp.length / 16), inp.drop (inp.length / 16 * 16) ++
          List.replicate (16 - (inp.drop (inp.length / 16 * 16)).length) 0,
          (inp.drop (inp.length / 16 * 16)).length, t⟩
        used := counterBlocks c (inp.length / 16) } := by
  have hne : inp ≠ [] := fun h => by simp [h] at hs
  have hupd : leaOnlineUpdate E (leaOnlineInitEx t (counterBlock c)) inp inp.length =
      onlineBlocks E ⟨counterBlock c, zeroBlock, 0, t⟩ inp := by
    simp [leaOnlineUpdate, leaOnlineInitEx, hne, show ¬ inp.length ≤ 16 by omega]
  have hb : (inp.length >>> 4) <<< 4 = inp.length / 16 * 16 := by
    rw [Nat.shiftRight_eq_div_pow, Nat.shiftLeft_eq]
  have hpos : inp.length / 16 * 16 ≠ 0 := by omega
  have htake : (inp.take (inp.length / 16 * 16)).length = 16 * (inp.length / 16) := by
    simp
    omega
  have henc := leaCtrEnc_eq hE (inp.take (inp.length / 16 * 16)) c
  rw [htake, blockCount_mul (by omega), Nat.mul_div_cancel_left _ (by omega)] at henc
  have hbuf : copyAt (copyAt zeroBlock 0 []) 0 (inp.drop (inp.length / 16 * 16)) =
      inp.drop (inp.length / 16 * 16) ++
        List.replicate (16 - (inp.drop (inp.length / 16 * 16)).length) 0 := by
    rw [show copyAt zeroBlock 0 [] = zeroBlock from rfl, copyAt_zeroBlock]
  rw [hupd, ← hbuf]
  simp [onlineBlocks, hb, hpos, henc]

/-- `lea_ctr_crypt` is counter mode with the 128-bit counter `ctr_high || ctr_low`,
for both flags and every length that survives the cast to `int`. -/
theorem leaCtrCrypt_eq (hE : ∀ b, (E b).length = 16) (ctr_high : Bytes) (ctr_low : BitVec 32)
    (hh : ctr_high.length = 12) (is_encrypt : Bool) (inp : Bytes) (hlen : inp.length < 2 ^ 31) :
    leaCtrCrypt E ctr_high ctr_low is_encrypt inp =
      ⟨ctrMode 16 (keyBlock E) (2 ^ 32 * beValue ctr_high + ctr_low.toNat) inp,
        counterBlocks (2 ^ 32 * beValue ctr_high + ctr_low.toNat) (blockCount 16 inp.length)⟩ := by
  have hcast : (BitVec.ofNat 32 inp.length).toInt = inp.length := by
    rw [BitVec.toInt_ofNat', Int.bmod_eq_of_le (by omega) (by omega)]
  rw [leaCtrCrypt, hcast, ctrBlock_eq _ _ hh]
  generalize 2 ^ 32 * beValue ctr_high + ctr_low.toNat = c
  generalize (if is_encrypt = true then CtrEncType.enc else CtrEncType.dec) = t
  rcases Nat.lt_trichotomy inp.length 16 with hs | hs | hs
  · obtain ⟨hout, hused⟩ := leaOnlineFinal_eq hE t c (List.replicate (16 - inp.length) 0) inp hs
      (by simp; omega)
    rw [leaOnlineUpdate_short t c hs, List.nil_append, List.nil_append, hout, hused]
  · obtain ⟨hout, hused⟩ := leaOnlineFinal_eq hE t (c + 1) zeroBlock [] (by simp) rfl
    rw [leaOnlineUpdate_block hE t c hs, hs]
    simp only [List.nil_append, List.length_nil] at hout hused
    simp only [hout, hused]
    simp [ctrMode, counterBlocks]
  · have hq : (inp.drop (inp.length / 16 * 16)).length < 16 := by simp; omega
    obtain ⟨hout, hused⟩ := leaOnlineFinal_eq hE t (c + inp.length / 16)
      (List.replicate (16 - (inp.drop (inp.length / 16 * 16)).length) 0)
      (inp.drop (inp.length / 16 * 16)) hq (by simp; omega)
    have htake : (inp.take (inp.length / 16 * 16)).length = 16 * (inp.length / 16) := by
      simp
      omega
    have hsplit := ctrMode_append (by omega) (length_keyBlock hE) c (inp.length / 16)
      (inp.take (inp.length / 16 * 16)) (inp.drop (inp.length / 16 * 16)) htake
    have hn : blockCount 16 inp.length =
        inp.length / 16 + blockCount 16 (inp.drop (inp.length / 16 * 16)).length := by
      rw [← blockCount_add_mul (by omega), ← htake, ← List.length_append, List.take_append_drop]
    rw [List.take_append_drop] at hsplit
    rw [leaOnlineUpdate_long hE t c hs]
    simp only [hout, hused]
    rw [hsplit, hn, counterBlocks_append]

end Stream

end ModbusSecurity.LeaOnline
