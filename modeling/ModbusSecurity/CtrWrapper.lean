import ModbusSecurity.LeaOnline

/-! # `lea_ctr_crypt` on its output buffer

The loops over eight and four blocks that the other builds of `lea_ctr_enc` have in front
of the portable one, and the two writes of `lea_ctr_crypt`: where they go, what they leave
alone, and that together they are counter mode byte for byte. -/
namespace ModbusSecurity.CtrWrapper
open ByteStrings CounterMode LeaOnline

/-- The counter blocks that a round copies before it encrypts, and the counter after them. -/
def takeCounters : ℕ → Bytes → List Bytes × Bytes
  | 0, ctr => ([], ctr)
  | n + 1, ctr =>
    let (blocks, ctr') := takeCounters n (ctr128Inc ctr)
    (ctr :: blocks, ctr')

/-- `for (; remainBlock >= width; remainBlock -= width)` in front of the loop `next`. A round
encrypts `width` copies of the counter and adds them to the text. -/
def wideLoop (E : Bytes → Bytes) (width : ℕ) (next : ℕ → Bytes → Bytes → CtrResult) :
    ℕ → ℕ → Bytes → Bytes → CtrResult
  | 0, remainBlock, pt, ctr => next remainBlock pt ctr
  | fuel + 1, remainBlock, pt, ctr =>
    if width ≤ remainBlock then
      let (blocks, ctr) := takeCounters width ctr
      let rest := wideLoop E width next fuel (remainBlock - width) (pt.drop (16 * width)) ctr
      ⟨xorBytes (pt.take (16 * width)) (blocks.flatMap E) ++ rest.ct, rest.ctr, blocks ++ rest.used⟩
    else next remainBlock pt ctr

/-- `lea_ctr_enc` of a build with the given `MAX_BLK`. -/
def leaCtrEncWide (E : Bytes → Bytes) (maxBlk : ℕ) (pt ctr : Bytes) : CtrResult :=
  let single := ctrEncLoop E (pt.length &&& 0xf)
  let four := if 4 ≤ maxBlk then
    fun remainBlock => wideLoop E 4 single remainBlock remainBlock else single
  let eight := if 8 ≤ maxBlk then
    fun remainBlock => wideLoop E 8 four remainBlock remainBlock else four
  eight (pt.length >>> 4) pt ctr

section Wide
variable {E : Bytes → Bytes} {tail : ℕ}

/-- A round is as many rounds of the portable loop as it takes blocks. -/
theorem ctrEncLoop_round (hE : ∀ b, (E b).length = 16) (width k : ℕ) (pt ctr : Bytes)
    (hlen : 16 * width ≤ pt.length) : ctrEncLoop E tail (width + k) pt ctr =
      let rest := ctrEncLoop E tail k (pt.drop (16 * width)) (takeCounters width ctr).2
      ⟨xorBytes (pt.take (16 * width)) ((takeCounters width ctr).1.flatMap E) ++ rest.ct, rest.ctr,
        (takeCounters width ctr).1 ++ rest.used⟩ := by
  induction width generalizing pt ctr with
  | zero => simp [takeCounters]
  | succ width ih =>
    have hdrop : 16 * width ≤ (pt.drop 16).length := by
      rw [List.length_drop]
      omega
    have hfirst : (pt.take 16).length = (E ctr).length := by
      rw [hE, List.length_take]
      omega
    have hpt : pt.take (16 * (width + 1)) = pt.take 16 ++ (pt.drop 16).take (16 * width) := by
      rw [← List.take_add, Nat.mul_succ, Nat.add_comm]
    have hrest : pt.drop (16 * (width + 1)) = (pt.drop 16).drop (16 * width) := by
      rw [List.drop_drop, Nat.mul_succ, Nat.add_comm]
    rw [Nat.add_right_comm, ctrEncLoop, ih _ _ hdrop]
    simp only [takeCounters, List.flatMap_cons, hpt, hrest, xorBytes_append hfirst,
      List.append_assoc, List.cons_append]

/-- A loop over several blocks does what the loops behind it would have done. -/
theorem wideLoop_eq (hE : ∀ b, (E b).length = 16) {width : ℕ}
    {next : ℕ → Bytes → Bytes → CtrResult}
    (hnext : ∀ k pt ctr, 16 * k ≤ pt.length → next k pt ctr = ctrEncLoop E tail k pt ctr)
    (fuel k : ℕ) (pt ctr : Bytes) (hlen : 16 * k ≤ pt.length) :
    wideLoop E width next fuel k pt ctr = ctrEncLoop E tail k pt ctr := by
  induction fuel generalizing k pt ctr with
  | zero => exact hnext k pt ctr hlen
  | succ fuel ih =>
    rw [wideLoop]
    by_cases hwidth : width ≤ k
    · obtain ⟨rest, rfl⟩ := Nat.exists_eq_add_of_le hwidth
      have hdrop : 16 * rest ≤ (pt.drop (16 * width)).length := by
        rw [List.length_drop]
        omega
      rw [if_pos hwidth, Nat.add_sub_cancel_left, ctrEncLoop_round hE width rest pt ctr (by omega)]
      simp only [ih _ _ _ hdrop]
    · rw [if_neg hwidth, hnext k pt ctr hlen]

/-- Every build of `lea_ctr_enc` computes what the portable one does. -/
theorem leaCtrEncWide_eq (hE : ∀ b, (E b).length = 16) (maxBlk : ℕ) (pt ctr : Bytes) :
    leaCtrEncWide E maxBlk pt ctr = leaCtrEnc E pt ctr := by
  have hshift : pt.length >>> 4 = pt.length / 16 := Nat.shiftRight_eq_div_pow _ 4
  have hlen : 16 * (pt.length >>> 4) ≤ pt.length := by
    rw [hshift]
    omega
  rw [leaCtrEncWide, leaCtrEnc]
  generalize pt.length &&& 0xf = tail
  have hfour : ∀ k pt ctr, 16 * k ≤ pt.length →
      (if 4 ≤ maxBlk then fun remainBlock => wideLoop E 4 (ctrEncLoop E tail) remainBlock remainBlock
        else ctrEncLoop E tail) k pt ctr = ctrEncLoop E tail k pt ctr := by
    intro k pt ctr hk
    split
    · exact wideLoop_eq hE (fun _ _ _ _ => rfl) k k pt ctr hk
    · rfl
  by_cases hwide : 8 ≤ maxBlk
  · simp only [if_pos hwide]
    exact wideLoop_eq hE hfour _ _ pt ctr hlen
  · simp only [if_neg hwide]
    exact hfour _ pt ctr hlen

end Wide

/-- `lea_ctr_crypt` with the buffer that `out` points to: `lea_online_update` writes at its
front and `lea_online_final` behind as many bytes as the first call returned. -/
def leaCtrCryptInto (E : Bytes → Bytes) (ctr_high : Bytes) (ctr_low : BitVec 32)
    (is_encrypt : Bool) (inp out : Bytes) : Bytes :=
  let ctx := leaOnlineInitEx (if is_encrypt then .enc else .dec) (ctrBlock ctr_high ctr_low)
  let upd := leaOnlineUpdate E ctx inp (BitVec.ofNat 32 inp.length).toInt
  let fin := leaOnlineFinal E upd.ctx
  copyAt (copyAt out 0 upd.out) upd.ret.toNat fin.out

section Buffer
variable {E : Bytes → Bytes}

theorem copyAt_copyAt (out a b : Bytes) :
    copyAt (copyAt out 0 a) a.length b = a ++ b ++ out.drop (a.length + b.length) := by
  simp only [copyAt, List.take_zero, List.nil_append, Nat.zero_add]
  rw [List.take_left' rfl, List.drop_append, List.drop_of_length_le (by omega), List.nil_append,
    List.drop_drop, Nat.add_sub_cancel_left]

/-- The return value of the update call is the number of bytes it wrote. -/
theorem leaOnlineUpdate_ret (hE : ∀ b, (E b).length = 16) (t : CtrEncType) (c : ℕ) (inp : Bytes) :
    (leaOnlineUpdate E (leaOnlineInitEx t (counterBlock c)) inp inp.length).ret =
      (leaOnlineUpdate E (leaOnlineInitEx t (counterBlock c)) inp inp.length).out.length := by
  rcases Nat.lt_trichotomy inp.length 16 with hs | hs | hs
  · rw [leaOnlineUpdate_short t c hs]
    rfl
  · rw [leaOnlineUpdate_block hE t c hs, length_ctrMode (by omega) (length_keyBlock hE), hs]
    rfl
  · rw [leaOnlineUpdate_long hE t c hs, length_ctrMode (by omega) (length_keyBlock hE),
      List.length_take]
    have : inp.length / 16 * 16 ≤ inp.length := by omega
    rw [Nat.min_eq_left this]
    norm_cast

/-- What lands in the buffer is the output, at the front. -/
theorem leaCtrCryptInto_eq (hE : ∀ b, (E b).length = 16) (ctr_high : Bytes) (ctr_low : BitVec 32)
    (hh : ctr_high.length = 12) (is_encrypt : Bool) (inp out : Bytes) (hlen : inp.length < 2 ^ 31) :
    leaCtrCryptInto E ctr_high ctr_low is_encrypt inp out =
      (leaCtrCrypt E ctr_high ctr_low is_encrypt inp).out ++
        out.drop (leaCtrCrypt E ctr_high ctr_low is_encrypt inp).out.length := by
  have hcast : (BitVec.ofNat 32 inp.length).toInt = inp.length := by
    rw [BitVec.toInt_ofNat', Int.bmod_eq_of_le (by omega) (by omega)]
  rw [leaCtrCryptInto, leaCtrCrypt, hcast, ctrBlock_eq _ _ hh]
  simp only [leaOnlineUpdate_ret hE, Int.toNat_natCast, copyAt_copyAt, List.length_append]

end Buffer

/-- The big-endian block of a counter that runs modulo `2 ^ 128`. -/
theorem counterBlock_mod (c : ℕ) : counterBlock c = beBytes 16 (c % 2 ^ 128) := by
  apply beValue_injective
  · rw [length_counterBlock, length_beBytes]
  · rw [counterBlock, beValue_beBytes, beValue_beBytes]
    norm_num

/-- `lea_ctr_crypt` writes as many bytes as it is given, and leaves the rest of the buffer. Byte
`j` is the byte of the input against byte `j mod 16` of the cipher block of the counter that has
gone `j / 16` steps from `ctr_high || ctr_low`. The flag makes no difference, and a second call
takes the first one back. -/
theorem leaCtrCrypt_textbook (E : Bytes → Bytes) (hE : ∀ b, (E b).length = 16) (ctr_high : Bytes)
    (hh : ctr_high.length = 12) (ctr_low : BitVec 32) (is_encrypt : Bool) (inp : Bytes)
    (hlen : inp.length < 2 ^ 31) :
    ∃ text, (∀ out, leaCtrCryptInto E ctr_high ctr_low is_encrypt inp out =
        text ++ out.drop inp.length) ∧
      text.length = inp.length ∧
      (∀ j (hj : j < inp.length), text[j]? = some (inp[j] ^^^
        (E (beBytes 16 ((2 ^ 32 * beValue ctr_high + ctr_low.toNat + j / 16) % 2 ^ 128))).getD
          (j % 16) 0)) ∧
      (∀ out, leaCtrCryptInto E ctr_high ctr_low (!is_encrypt) inp out =
        leaCtrCryptInto E ctr_high ctr_low is_encrypt inp out) ∧
      (∀ again out, leaCtrCryptInto E ctr_high ctr_low again text out = inp ++ out.drop inp.length) ∧
      ∀ maxBlk pt ctr, leaCtrEncWide E maxBlk pt ctr = leaCtrEnc E pt ctr := by
  let c := 2 ^ 32 * beValue ctr_high + ctr_low.toNat
  have hout : ∀ flag text, text.length < 2 ^ 31 →
      (leaCtrCrypt E ctr_high ctr_low flag text).out = ctrMode 16 (keyBlock E) c text := by
    intro flag text htext
    rw [leaCtrCrypt_eq hE ctr_high ctr_low hh flag text htext]
  have hlength := length_ctrMode (show 0 < 16 by omega) (length_keyBlock hE) c inp
  refine ⟨ctrMode 16 (keyBlock E) c inp, ?_, hlength, ?_, ?_, ?_, leaCtrEncWide_eq hE⟩
  · intro out
    rw [leaCtrCryptInto_eq hE _ _ hh _ _ _ hlen, hout _ _ hlen, hlength]
  · intro j hj
    obtain ⟨k, hk, htext⟩ := getElem?_ctrMode (by omega) (length_keyBlock hE) c inp hj
    rw [htext, ← counterBlock_mod, List.getD_eq_getElem?_getD]
    rw [keyBlock] at hk
    rw [hk, Option.getD_some]
  · intro out
    rw [leaCtrCryptInto_eq hE _ _ hh _ _ _ hlen, leaCtrCryptInto_eq hE _ _ hh _ _ _ hlen,
      hout _ _ hlen, hout _ _ hlen]
  · intro again out
    have htext : (ctrMode 16 (keyBlock E) c inp).length < 2 ^ 31 := by
      rw [hlength]
      exact hlen
    rw [leaCtrCryptInto_eq hE _ _ hh _ _ _ htext, hout _ _ htext,
      ctrMode_ctrMode (by omega) (length_keyBlock hE)]

/-- Twenty bytes from the last counter below `2 ^ 128`: the second block is that of 0. -/
theorem leaCtrCrypt_textbook_wraps :
    let E : Bytes → Bytes := fun b => b.take 16 ++ List.replicate (16 - b.length) 0
    ∃ text, (∀ out, leaCtrCryptInto E (List.replicate 12 255) 0xFFFFFFFF true
      (List.replicate 20 0) out = text ++ out.drop 20) ∧ text[15]? = some 255 ∧ text[16]? = some 0 := by
  intro E
  have hE : ∀ b, (E b).length = 16 := by
    intro b
    simp only [E, List.length_append, List.length_take, List.length_replicate]
    omega
  obtain ⟨text, hout, -, hbyte, -⟩ := leaCtrCrypt_textbook E hE (List.replicate 12 255) (by decide)
    0xFFFFFFFF true (List.replicate 20 0) (by decide)
  exact ⟨text, hout, (hbyte 15 (by decide)).trans (by decide), (hbyte 16 (by decide)).trans (by decide)⟩

end ModbusSecurity.CtrWrapper
