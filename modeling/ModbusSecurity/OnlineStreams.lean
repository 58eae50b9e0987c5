import ModbusSecurity.LeaOnline

/-! # A text that reaches the stream interface in pieces

`lea_online_update` may be called any number of times before `lea_online_final`. Up to
fifteen bytes wait in the context between two calls. -/
namespace ModbusSecurity.OnlineStreams
open ByteStrings CounterMode LeaOnline

/-- The results of an update for each piece and of the final call. -/
def onlineResults (E : Bytes → Bytes) (ctx : OnlineCtx) : List Bytes → List OnlineResult
  | [] => [leaOnlineFinal E ctx]
  | piece :: pieces =>
    let r := leaOnlineUpdate E ctx piece (BitVec.ofNat 32 piece.length).toInt
    r :: onlineResults E r.ctx pieces

def outputOf (rs : List OnlineResult) : Bytes := rs.flatMap (·.out)

def blocksOf (rs : List OnlineResult) : List Bytes := rs.flatMap (·.used)

/-- A context in which `rest` waits for the block of counter `c` to be filled. -/
structure Waits (t : CtrEncType) (c : ℕ) (rest : Bytes) (ctx : OnlineCtx) : Prop where
  iv : ctx.iv = counterBlock c
  waiting : ctx.nlast_block = rest.length
  buffer : ∃ pad, ctx.last_block = rest ++ pad ∧ pad.length + rest.length = 16
  encType : ctx.encType = t

/-- What an update does with the bytes that waited and its input together. -/
structure Consumed (E : Bytes → Bytes) (t : CtrEncType) (c : ℕ) (xs : Bytes) (r : OnlineResult) :
    Prop where
  ret : r.ret = (16 * (xs.length / 16) : ℕ)
  out : r.out = ctrMode 16 (keyBlock E) c (xs.take (16 * (xs.length / 16)))
  used : r.used = counterBlocks c (xs.length / 16)
  waits : Waits t (c + xs.length / 16) (xs.drop (16 * (xs.length / 16))) r.ctx

section Updates
variable {E : Bytes → Bytes} {t : CtrEncType} {c : ℕ} {rest inp : Bytes} {ctx : OnlineCtx}

theorem Waits.eq (h : Waits t c rest ctx) : ∃ pad,
    ctx = ⟨counterBlock c, rest ++ pad, rest.length, t⟩ ∧ pad.length + rest.length = 16 := by
  obtain ⟨hiv, hwaiting, ⟨pad, hbuffer, hpad⟩, hencType⟩ := h
  refine ⟨pad, ?_, hpad⟩
  rw [← hiv, ← hwaiting, ← hbuffer, ← hencType]

theorem copyAt_front {buf src : Bytes} : copyAt buf 0 src = src ++ buf.drop src.length := by
  simp [copyAt]

theorem copyAt_behind (rest pad src : Bytes) :
    copyAt (rest ++ pad) rest.length src = rest ++ src ++ pad.drop src.length := by
  rw [copyAt, List.take_left' rfl, List.drop_append, List.drop_of_length_le (by omega),
    List.nil_append, Nat.add_sub_cancel_left]

/-- The whole blocks of an input. -/
theorem wholeBlocks_eq (hE : ∀ b, (E b).length = 16) (c : ℕ) (inp : Bytes) :
    (if 16 * (inp.length / 16) ≠ 0 then
        leaCtrEnc E (inp.take (16 * (inp.length / 16))) (counterBlock c)
      else ⟨[], counterBlock c, []⟩) =
      ⟨ctrMode 16 (keyBlock E) c (inp.take (16 * (inp.length / 16))),
        counterBlock (c + inp.length / 16), counterBlocks c (inp.length / 16)⟩ := by
  have hlength : (inp.take (16 * (inp.length / 16))).length = 16 * (inp.length / 16) := by
    rw [List.length_take]
    omega
  split
  · rw [leaCtrEnc_eq hE, hlength, blockCount_mul (by omega), Nat.mul_div_cancel_left _ (by omega)]
  · rename_i hnone
    obtain hzero : inp.length / 16 = 0 := by omega
    rw [hzero]
    simp [ctrMode, counterBlocks]

theorem blockLen_eq (t : CtrEncType) (n : ℕ) :
    (if t.flags &&& 0x40 ≠ 0 ∧ n = (n >>> 4) <<< 4 then (n >>> 4) <<< 4 - 16 else (n >>> 4) <<< 4) =
      16 * (n / 16) := by
  rw [keepLast_clear, if_neg (fun h => h.1 rfl), Nat.shiftRight_eq_div_pow, Nat.shiftLeft_eq,
    Nat.mul_comm]

/-- Nothing waits: the whole blocks of the input go out. -/
theorem onlineBlocks_empty (hE : ∀ b, (E b).length = 16) (h : Waits t c [] ctx) (inp : Bytes) :
    Consumed E t c inp (onlineBlocks E ctx inp) := by
  obtain ⟨last_block, rfl, hpad⟩ := h.eq
  have hwhole := wholeBlocks_eq hE c inp
  have hkept : copyAt last_block 0 [] = last_block := copyAt_front
  have hrun : onlineBlocks E ⟨counterBlock c, last_block, 0, t⟩ inp =
      { ret := (16 * (inp.length / 16) : ℕ)
        out := ctrMode 16 (keyBlock E) c (inp.take (16 * (inp.length / 16)))
        ctx := ⟨counterBlock (c + inp.length / 16),
          copyAt last_block 0 (inp.drop (16 * (inp.length / 16))),
          (inp.drop (16 * (inp.length / 16))).length, t⟩
        used := counterBlocks c (inp.length / 16) } := by
    simp only [onlineBlocks, lt_self_iff_false, false_and, if_false, List.take_zero, List.drop_zero,
      hkept, blockLen_eq, hwhole, List.nil_append, zero_add]
  rw [List.nil_append, List.length_nil, hrun]
  refine ⟨rfl, rfl, rfl, rfl, rfl, ⟨_, copyAt_front, ?_⟩, rfl⟩
  rw [List.length_nil, Nat.add_zero] at hpad
  rw [List.length_drop, List.length_drop, hpad]
  omega

/-- A block, and the whole blocks behind it. -/
theorem blocks_behind {block : Bytes} (hblock : block.length = 16) (behind : Bytes) :
    (block ++ behind).length / 16 = 1 + behind.length / 16 ∧
    (block ++ behind).take (16 * (1 + behind.length / 16)) =
      block ++ behind.take (16 * (behind.length / 16)) ∧
    (block ++ behind).drop (16 * (1 + behind.length / 16)) =
      behind.drop (16 * (behind.length / 16)) := by
  have hbytes : 16 * (1 + behind.length / 16) = block.length + 16 * (behind.length / 16) := by omega
  refine ⟨?_, ?_, ?_⟩
  · rw [List.length_append, hblock]
    omega
  · rw [hbytes, List.take_length_add_append]
  · rw [hbytes, List.drop_length_add_append]

/-- The waiting bytes and the front of the input are a block, the rest of the input follows. -/
theorem onlineBlocks_waiting (hE : ∀ b, (E b).length = 16) (h : Waits t c rest ctx)
    (hne : rest ≠ []) (hfill : 16 ≤ (rest ++ inp).length) :
    Consumed E t c (rest ++ inp) (onlineBlocks E ctx inp) := by
  obtain ⟨pad, rfl, hpad⟩ := h.eq
  have hpos := List.length_pos_iff.mpr hne
  rw [List.length_append] at hfill
  have hmore : (if 0 < rest.length ∧ rest.length ≠ 16 then 16 - rest.length else 0) =
      16 - rest.length := by
    split
    · rfl
    · omega
  obtain ⟨front, behind, rfl, hfront⟩ : ∃ front behind, inp = front ++ behind ∧
      front.length = 16 - rest.length :=
    ⟨inp.take (16 - rest.length), inp.drop (16 - rest.length), (List.take_append_drop _ _).symm, by
      rw [List.length_take]; omega⟩
  have htake : (front ++ behind).take (16 - rest.length) = front := List.take_left' hfront
  have hdrop : (front ++ behind).drop (16 - rest.length) = behind := List.drop_left' hfront
  have hblock : (rest ++ front).length = 16 := by rw [List.length_append]; omega
  have hfilled : copyAt (rest ++ pad) rest.length front = rest ++ front := by
    rw [copyAt_behind, List.drop_of_length_le (by omega), List.append_nil]
  have hfirst := leaCtrEnc_eq hE (rest ++ front) c
  rw [hblock, show 16 / 16 = 1 from rfl, show blockCount 16 16 = 1 from rfl] at hfirst
  have hwhole := wholeBlocks_eq hE (c + 1) behind
  have hrun : onlineBlocks E ⟨counterBlock c, rest ++ pad, rest.length, t⟩ (front ++ behind) =
      { ret := 16 + (16 * (behind.length / 16) : ℕ)
        out := ctrMode 16 (keyBlock E) c (rest ++ front) ++
          ctrMode 16 (keyBlock E) (c + 1) (behind.take (16 * (behind.length / 16)))
        ctx := ⟨counterBlock (c + 1 + behind.length / 16),
          copyAt zeroBlock 0 (behind.drop (16 * (behind.length / 16))),
          (behind.drop (16 * (behind.length / 16))).length, t⟩
        used := counterBlocks c 1 ++ counterBlocks (c + 1) (behind.length / 16) } := by
    simp only [onlineBlocks, hmore, htake, hdrop, hfilled]
    simp only [hpos, if_true, hfirst, blockLen_eq, hwhole]
  obtain ⟨hcount, hsplit, hleft⟩ := blocks_behind hblock behind
  rw [hrun, ← List.append_assoc]
  constructor
  · rw [hcount]
    push_cast
    ring
  · rw [hcount, hsplit, ctrMode_append (by omega) (length_keyBlock hE) c 1 _ _ hblock]
  · rw [hcount, counterBlocks_append]
  · rw [hcount, hleft]
    refine ⟨?_, rfl, ⟨_, copyAt_front, ?_⟩, rfl⟩
    · rw [Nat.add_assoc]
    · rw [zeroBlock, List.length_drop, List.length_replicate, List.length_drop]
      omega

/-- The context with a short input stored behind what waits. -/
def stored (ctx : OnlineCtx) (inp : Bytes) : OnlineCtx :=
  { ctx with
    last_block := copyAt ctx.last_block ctx.nlast_block inp
    nlast_block := ctx.nlast_block + inp.length }

theorem waits_stored (h : Waits t c rest ctx) (hfits : (rest ++ inp).length ≤ 16) :
    Waits t c (rest ++ inp) (stored ctx inp) := by
  obtain ⟨pad, rfl, hpad⟩ := h.eq
  rw [List.length_append] at hfits
  refine ⟨rfl, (List.length_append ..).symm, ⟨_, copyAt_behind rest pad inp, ?_⟩, rfl⟩
  rw [List.length_drop, List.length_append]
  omega

theorem leaOnlineUpdate_eq (hfew : ctx.nlast_block ≤ 16) (hne : inp ≠ []) :
    leaOnlineUpdate E ctx inp inp.length =
      if ctx.nlast_block + inp.length < 16 then ⟨0, [], stored ctx inp, []⟩
      else if ctx.nlast_block + inp.length = 16 then onlineBlocks E (stored ctx inp) []
      else onlineBlocks E ctx inp := by
  have hpos := List.length_pos_iff.mpr hne
  have hzero : ¬ (inp.length : ℤ) = 0 := by omega
  have hneg : ¬ (inp.length : ℤ) < 0 := by omega
  rw [leaOnlineUpdate, if_neg hzero, if_neg hneg, if_neg (by omega), Int.toNat_natCast]
  simp only [List.take_length, keepLast_clear, ne_eq, not_true_eq_false, false_or]
  rcases Nat.lt_trichotomy (ctx.nlast_block + inp.length) 16 with hlen | hlen | hlen
  · rw [if_pos (by omega), if_pos (by omega), if_pos hlen]
    rfl
  · rw [if_pos (by omega), if_neg (by omega), if_neg (by omega), if_pos hlen]
    rfl
  · rw [if_neg (by omega), if_neg (by omega), if_neg (by omega)]

/-- Less than a block goes nowhere. -/
theorem consumed_short (h : Waits t c rest ctx) (hshort : rest.length < 16) :
    Consumed E t c rest ⟨0, [], ctx, []⟩ := by
  have hzero : rest.length / 16 = 0 := Nat.div_eq_of_lt hshort
  constructor
  · rw [hzero]
    rfl
  · rw [hzero]
    rfl
  · rw [hzero]
    rfl
  · rw [hzero, Nat.mul_zero, List.drop_zero]
    exact h

theorem leaOnlineUpdate_consumed (hE : ∀ b, (E b).length = 16) (h : Waits t c rest ctx)
    (hshort : rest.length < 16) (inp : Bytes) :
    Consumed E t c (rest ++ inp) (leaOnlineUpdate E ctx inp inp.length) := by
  by_cases hnone : inp = []
  · subst hnone
    rw [List.append_nil]
    exact consumed_short h hshort
  · have hboth : ctx.nlast_block + inp.length = (rest ++ inp).length := by
      rw [h.waiting, List.length_append]
    have hpos := List.length_pos_iff.mpr hnone
    rw [leaOnlineUpdate_eq (by rw [h.waiting]; omega) hnone, hboth]
    split
    · rename_i hfew
      exact consumed_short (waits_stored h (by omega)) hfew
    split
    · rename_i hblock
      have hconsumed := onlineBlocks_waiting hE (waits_stored h (by omega))
        (List.append_ne_nil_of_right_ne_nil rest hnone) (by rw [List.append_nil]; omega)
      rwa [List.append_nil] at hconsumed
    · rename_i hmany
      by_cases hempty : rest = []
      · subst hempty
        exact onlineBlocks_empty hE h inp
      · exact onlineBlocks_waiting hE h hempty (by omega)

/-- What waits is encrypted under the counter block it waited for. -/
theorem leaOnlineFinal_waits (hE : ∀ b, (E b).length = 16) (h : Waits t c rest ctx)
    (hshort : rest.length < 16) :
    (leaOnlineFinal E ctx).out = ctrMode 16 (keyBlock E) c rest ∧
      (leaOnlineFinal E ctx).used = counterBlocks c (blockCount 16 rest.length) ∧
      (leaOnlineFinal E ctx).ret = (leaOnlineFinal E ctx).out.length := by
  obtain ⟨pad, rfl, hpad⟩ := h.eq
  obtain ⟨hout, hused⟩ := leaOnlineFinal_eq hE t c pad rest hshort hpad
  refine ⟨hout, hused, ?_⟩
  rw [hout, length_ctrMode (by omega) (length_keyBlock hE)]
  rw [leaOnlineFinal, if_neg (by simp only; omega), len16_clear, keepLast_clear, if_neg (by simp),
    if_neg (by simp), if_neg (by simp only; omega)]
  simp only
  split
  · rename_i hzero
    rw [hzero]
    rfl
  · rfl

/-- However a text is cut, the results are those of counter mode over all of it. -/
theorem onlineResults_waits (hE : ∀ b, (E b).length = 16) (h : Waits t c rest ctx)
    (hshort : rest.length < 16) {pieces : List Bytes} (hlen : ∀ p ∈ pieces, p.length < 2 ^ 31 - 16) :
    outputOf (onlineResults E ctx pieces) = ctrMode 16 (keyBlock E) c (rest ++ pieces.flatten) ∧
      blocksOf (onlineResults E ctx pieces) =
        counterBlocks c (blockCount 16 (rest ++ pieces.flatten).length) ∧
      ∀ r ∈ onlineResults E ctx pieces, r.ret = r.out.length := by
  induction pieces generalizing c rest ctx with
  | nil =>
    obtain ⟨hout, hused, hret⟩ := leaOnlineFinal_waits hE h hshort
    rw [List.flatten_nil, List.append_nil]
    refine ⟨?_, ?_, fun r hr => ?_⟩
    · rw [onlineResults, outputOf, List.flatMap_singleton, hout]
    · rw [onlineResults, blocksOf, List.flatMap_singleton, hused]
    · rw [List.mem_singleton.mp hr, hret]
  | cons piece pieces ih =>
    have hpiece := hlen piece (List.mem_cons_self ..)
    have hcast : (BitVec.ofNat 32 piece.length).toInt = piece.length := by
      rw [BitVec.toInt_ofNat', Int.bmod_eq_of_le (by omega) (by omega)]
    have hconsumed := leaOnlineUpdate_consumed hE h hshort piece
    obtain ⟨hout, hused, hret⟩ := ih hconsumed.waits
      (by rw [List.length_drop]; omega) fun p hp => hlen p (List.mem_cons_of_mem _ hp)
    have hwhole : ((rest ++ piece).take (16 * ((rest ++ piece).length / 16))).length =
        16 * ((rest ++ piece).length / 16) := by
      rw [List.length_take]
      omega
    have hsplit : rest ++ (piece :: pieces).flatten =
        (rest ++ piece).take (16 * ((rest ++ piece).length / 16)) ++
          ((rest ++ piece).drop (16 * ((rest ++ piece).length / 16)) ++ pieces.flatten) := by
      rw [← List.append_assoc, List.take_append_drop, List.flatten_cons, List.append_assoc]
    rw [onlineResults, hcast, hsplit]
    refine ⟨?_, ?_, fun r hr => ?_⟩
    · rw [ctrMode_append (by omega) (length_keyBlock hE) c _ _ _ hwhole, ← hout, ← hconsumed.out]
      rfl
    · rw [List.length_append, hwhole, blockCount_add_mul (by omega), counterBlocks_append, ← hused,
        ← hconsumed.used]
      rfl
    · rcases List.mem_cons.mp hr with rfl | hr
      · rw [hconsumed.ret, hconsumed.out, length_ctrMode (by omega) (length_keyBlock hE), hwhole]
      · exact hret r hr

end Updates

/-- Any cutting of a text into updates gives counter mode over the whole text, each counter
block once and in order, with return values that are the bytes written; and any cutting of the
output, in either direction, brings the text back. -/
theorem online_pieces (E : Bytes → Bytes) (hE : ∀ b, (E b).length = 16) (t : CtrEncType) (iv : Bytes)
    (hiv : iv.length = 16) (pieces : List Bytes) (hlen : ∀ p ∈ pieces, p.length < 2 ^ 31 - 16) :
    let rs := onlineResults E (leaOnlineInitEx t iv) pieces
    outputOf rs = ctrMode 16 (keyBlock E) (beValue iv) pieces.flatten ∧
      blocksOf rs = counterBlocks (beValue iv) (blockCount 16 pieces.flatten.length) ∧
      (∀ r ∈ rs, r.ret = r.out.length) ∧
      ∀ t' pieces', (∀ p ∈ pieces', p.length < 2 ^ 31 - 16) → pieces'.flatten = outputOf rs →
        outputOf (onlineResults E (leaOnlineInitEx t' iv) pieces') = pieces.flatten := by
  have hblock : counterBlock (beValue iv) = iv := by
    rw [counterBlock, ← hiv, beBytes_beValue]
  have hstart : ∀ t, Waits t (beValue iv) [] (leaOnlineInitEx t iv) := fun _ =>
    ⟨hblock.symm, rfl, ⟨zeroBlock, rfl, rfl⟩, rfl⟩
  intro rs
  obtain ⟨hout, hused, hret⟩ := onlineResults_waits hE (hstart t) (by decide) hlen
  refine ⟨hout, hused, hret, fun t' pieces' hlen' hpieces => ?_⟩
  obtain ⟨hback, -, -⟩ := onlineResults_waits hE (hstart t') (by decide) hlen'
  rw [hback, List.nil_append, hpieces, show outputOf rs = _ from hout,
    ctrMode_ctrMode (by omega) (length_keyBlock hE), List.nil_append]

/-- Twenty bytes in three pieces. -/
theorem online_pieces_three :
    let E : Bytes → Bytes := fun _ => List.replicate 16 0x55
    let iv : Bytes := List.replicate 16 0xff
    let pieces : List Bytes := [List.replicate 5 1, [], List.replicate 15 2]
    outputOf (onlineResults E (leaOnlineInitEx .enc iv) pieces) =
      ctrMode 16 (keyBlock E) (beValue iv) pieces.flatten := by
  intro E iv pieces
  exact (online_pieces E (fun _ => rfl) .enc iv rfl pieces (by decide)).1

end ModbusSecurity.OnlineStreams
