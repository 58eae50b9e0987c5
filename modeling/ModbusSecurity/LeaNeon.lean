import ModbusSecurity.CtrWrapper
import ModbusSecurity.LeaCore

/-! # Four blocks at a time: `crypto/lea_ref/lea_neon.h`

The vector code runs the lines of the block code on registers of four lanes, one block in a
lane. This is the branch of the header for little-endian targets, where a vector is rotated
by a shift and a shift that inserts. -/
namespace ModbusSecurity.LeaNeon
open ByteStrings CounterMode RegisterPrograms LeaCore LeaOnline CtrWrapper
open LeaCipher (Word rol ror loadU32 storeU32)

/-- `uint32x4_t`. -/
abbrev U32x4 := Vector Word 4

def vdupq (w : Word) : U32x4 := Vector.replicate 4 w

def vaddq (a b : U32x4) : U32x4 := Vector.zipWith (· + ·) a b
def vsubq (a b : U32x4) : U32x4 := Vector.zipWith (· - ·) a b
def veorq (a b : U32x4) : U32x4 := Vector.zipWith (· ^^^ ·) a b

def vshrq (a : U32x4) (n : ℕ) : U32x4 := a.map fun x : Word => x >>> n

/-- Shift left and insert: the low `n` bits are those of `a`. -/
def vsliq (a b : U32x4) (n : ℕ) : U32x4 :=
  Vector.zipWith (fun x y : Word => x &&& ~~~(BitVec.allOnes 32 <<< n) ||| y <<< n) a b

/-- `VROTR`. -/
def vrotr (x : U32x4) (n : ℕ) : U32x4 := vsliq (vshrq x n) x (32 - n)

/-- `XAR3_NEON`, `XAR5_NEON` and `XAR9_NEON`. -/
def xarNeon (key : LeaKey) (m : Mix) (cur pre : U32x4) : U32x4 :=
  let tmp := vaddq (veorq pre (vdupq (key.at m.first))) (veorq cur (vdupq (key.at (m.first + 1))))
  match m.rotation with
  | .three => vrotr tmp 3
  | .five => vrotr tmp 5
  | .nine => vrotr tmp 23

/-- `XSR3_NEON`, `XSR5_NEON` and `XSR9_NEON`. -/
def xsrNeon (key : LeaKey) (m : Mix) (cur pre : U32x4) : U32x4 :=
  let turned := match m.rotation with
    | .three => vrotr cur 29
    | .five => vrotr cur 27
    | .nine => vrotr cur 9
  veorq (vsubq turned (veorq pre (vdupq (key.at m.first)))) (vdupq (key.at (m.first + 1)))

/-- `vld4q_u32`: lane `b` of register `j` is word `j` of block `b`. -/
def loadBlocks (bs : Bytes) : Vector U32x4 4 :=
  Vector.ofFn fun j => Vector.ofFn fun b => loadU32 bs (4 * b + j)

/-- `vst4q_u32`. -/
def storeBlocks (x : Vector U32x4 4) : Bytes :=
  (List.finRange 4).flatMap fun b => (List.finRange 4).flatMap fun j => storeU32 x[j][b]

def leaEncrypt4Block (pt : Bytes) (key : LeaKey) : Bytes :=
  storeBlocks (run (xarNeon key) (encProgram key.round) (loadBlocks pt))

def leaDecrypt4Block (ct : Bytes) (key : LeaKey) : Bytes :=
  storeBlocks (run (xsrNeon key) (decProgram key.round) (loadBlocks ct))

def lane (b : Fin 4) (x : U32x4) : Word := x[b]

@[simp] theorem lane_vdupq (b : Fin 4) (w : Word) : lane b (vdupq w) = w := by
  simp [lane, vdupq]

@[simp] theorem lane_vaddq (b : Fin 4) (x y : U32x4) : lane b (vaddq x y) = lane b x + lane b y := by
  simp [lane, vaddq]

@[simp] theorem lane_vsubq (b : Fin 4) (x y : U32x4) : lane b (vsubq x y) = lane b x - lane b y := by
  simp [lane, vsubq]

@[simp] theorem lane_veorq (b : Fin 4) (x y : U32x4) :
    lane b (veorq x y) = lane b x ^^^ lane b y := by
  simp [lane, veorq]

theorem lane_vrotr (b : Fin 4) (x : U32x4) {n : ℕ} (h : n < 32) :
    lane b (vrotr x n) = ror (lane b x) n := by
  have hshift : ∀ y : Word,
      (y >>> n &&& ~~~(BitVec.allOnes 32 <<< (32 - n)) ||| y <<< (32 - n)) = ror y n := by
    intro y
    apply BitVec.eq_of_getElem_eq
    intro i hi
    simp [ror, BitVec.getElem_rotateRight, BitVec.getElem_shiftLeft]
    grind
  simpa [lane, vrotr, vsliq, vshrq] using hshift _

theorem ror_eq_rol (x : Word) {n : ℕ} (h0 : 0 < n) (h : n < 32) : ror x n = rol x (32 - n) := by
  apply BitVec.eq_of_getElem_eq
  intro i hi
  simp only [ror, rol, BitVec.getElem_rotateRight, BitVec.getElem_rotateLeft]
  split <;> split <;> first | omega | (congr 1; omega)

theorem lane_xarNeon (key : LeaKey) (b : Fin 4) (m : Mix) (cur pre : U32x4) :
    lane b (xarNeon key m cur pre) = encMix key m (lane b cur) (lane b pre) := by
  obtain ⟨rotation, first⟩ := m
  cases rotation <;> simp only [xarNeon, encMix]
  · rw [lane_vrotr b _ (by decide)]
    simp
  · rw [lane_vrotr b _ (by decide)]
    simp
  · rw [lane_vrotr b _ (by decide), ror_eq_rol _ (by decide) (by decide)]
    simp

theorem lane_xsrNeon (key : LeaKey) (b : Fin 4) (m : Mix) (cur pre : U32x4) :
    lane b (xsrNeon key m cur pre) = decMix key m (lane b cur) (lane b pre) := by
  obtain ⟨rotation, first⟩ := m
  cases rotation <;> simp only [xsrNeon, decMix, lane_veorq, lane_vsubq, lane_vdupq]
  · rw [lane_vrotr b _ (by decide), ror_eq_rol _ (by decide) (by decide)]
  · rw [lane_vrotr b _ (by decide), ror_eq_rol _ (by decide) (by decide)]
  · rw [lane_vrotr b _ (by decide)]

/-- Block `b` of sixty-four bytes. -/
def blockAt (bs : Bytes) (b : ℕ) : Bytes := (bs.drop (16 * b)).take 16

theorem lane_loadBlocks (bs : Bytes) (b : Fin 4) :
    (loadBlocks bs).map (lane b) = loadWords (blockAt bs b) := by
  have hword : ∀ j : Fin 4, loadU32 (blockAt bs b) j = loadU32 bs (4 * b + j) := by
    intro j
    have hbyte : ∀ k < 4, (blockAt bs b).getD (4 * j + k) 0 = bs.getD (4 * (4 * b + j) + k) 0 := by
      intro k hk
      simp only [blockAt, List.getD_eq_getElem?_getD, List.getElem?_take, List.getElem?_drop]
      rw [if_pos (by omega)]
      congr 2
      omega
    rw [loadU32, loadU32, hbyte 3 (by omega), hbyte 2 (by omega), hbyte 1 (by omega)]
    exact congrArg _ (hbyte 0 (by omega))
  apply ext_registers
  intro j
  have hload : (loadWords (blockAt bs b))[j] = loadU32 (blockAt bs b) j := by
    fin_cases j <;> rfl
  rw [hload, hword]
  simp [loadBlocks, lane]

theorem storeBlocks_eq (x : Vector U32x4 4) :
    storeBlocks x = (List.finRange 4).flatMap fun b => storeWords (x.map (lane b)) := by
  have hblock : ∀ b : Fin 4, ((List.finRange 4).flatMap fun j => storeU32 x[j][b]) =
      storeWords (x.map (lane b)) := by
    intro b
    simp [storeWords, lane, List.finRange_succ]
  rw [storeBlocks]
  simp only [hblock]

/-- The vector code is the block code on each of the four blocks. -/
theorem leaEncrypt4Block_eq (pt : Bytes) (key : LeaKey) : leaEncrypt4Block pt key =
    (List.finRange 4).flatMap fun b : Fin 4 => leaEncrypt (blockAt pt b) key := by
  rw [leaEncrypt4Block, storeBlocks_eq]
  simp only [map_run (lane_xarNeon key _), lane_loadBlocks, leaEncrypt]

theorem leaDecrypt4Block_eq (ct : Bytes) (key : LeaKey) : leaDecrypt4Block ct key =
    (List.finRange 4).flatMap fun b : Fin 4 => leaDecrypt (blockAt ct b) key := by
  rw [leaDecrypt4Block, storeBlocks_eq]
  simp only [map_run (lane_xsrNeon key _), lane_loadBlocks, leaDecrypt]

/-- The loop of `lea_ctr_enc` over four blocks: the counters are copied into one buffer, which
the block function `F` encrypts at once. -/
def fourLoop (F : Bytes → Bytes) (next : ℕ → Bytes → Bytes → CtrResult) :
    ℕ → ℕ → Bytes → Bytes → CtrResult
  | 0, remainBlock, pt, ctr => next remainBlock pt ctr
  | fuel + 1, remainBlock, pt, ctr =>
    if 4 ≤ remainBlock then
      let (blocks, ctr) := takeCounters 4 ctr
      let rest := fourLoop F next fuel (remainBlock - 4) (pt.drop 64) ctr
      ⟨xorBytes (pt.take 64) (F blocks.flatten) ++ rest.ct, rest.ctr, blocks ++ rest.used⟩
    else next remainBlock pt ctr

/-- `lea_ctr_enc_neon`. -/
def leaCtrEncNeon (pt ctr : Bytes) (key : LeaKey) : CtrResult :=
  fourLoop (leaEncrypt4Block · key) (ctrEncLoop (leaEncrypt · key) (pt.length &&& 0xf))
    (pt.length >>> 4) (pt.length >>> 4) pt ctr

section CounterMode
variable {E F : Bytes → Bytes} {next : ℕ → Bytes → Bytes → CtrResult}

theorem length_takeCounters (n : ℕ) (ctr : Bytes) :
    (takeCounters n ctr).1.length = n ∧ (∀ b ∈ (takeCounters n ctr).1, b.length = ctr.length) ∧
      (takeCounters n ctr).2.length = ctr.length := by
  induction n generalizing ctr with
  | zero => simp [takeCounters]
  | succ n ih =>
    obtain ⟨hlen, hblocks, hctr⟩ := ih (ctr128Inc ctr)
    rw [length_ctr128Inc] at hblocks hctr
    simp only [takeCounters]
    refine ⟨by simp [hlen], ?_, hctr⟩
    intro b hb
    rcases List.mem_cons.mp hb with rfl | hb
    · rfl
    · exact hblocks b hb

/-- A block function that handles four blocks like four single ones may stand for them. -/
theorem fourLoop_eq (hF : ∀ bs : List Bytes, bs.length = 4 → (∀ b ∈ bs, b.length = 16) →
    F bs.flatten = bs.flatMap E) (fuel k : ℕ) (pt : Bytes) {ctr : Bytes} (hctr : ctr.length = 16) :
    fourLoop F next fuel k pt ctr = wideLoop E 4 next fuel k pt ctr := by
  induction fuel generalizing k pt ctr with
  | zero => rfl
  | succ fuel ih =>
    obtain ⟨hlen, hblocks, hrest⟩ := length_takeCounters 4 ctr
    rw [hctr] at hblocks hrest
    have hround := hF (takeCounters 4 ctr).1 hlen hblocks
    rw [fourLoop, wideLoop]
    split
    · simp only [hround, ih (k - 4) (pt.drop 64) hrest]
    · rfl

theorem blockAt_zero {a : Bytes} (ha : a.length = 16) (rest : Bytes) : blockAt (a ++ rest) 0 = a := by
  rw [blockAt, Nat.mul_zero, List.drop_zero, List.take_left' ha]

theorem blockAt_succ {a : Bytes} (ha : a.length = 16) (rest : Bytes) (b : ℕ) :
    blockAt (a ++ rest) (b + 1) = blockAt rest b := by
  rw [blockAt, Nat.mul_succ, Nat.add_comm, ← List.drop_drop, List.drop_left' ha, blockAt]

theorem blockAt_flatten {bs : List Bytes} (h : ∀ b ∈ bs, b.length = 16) :
    (List.range bs.length).map (blockAt bs.flatten) = bs := by
  induction bs with
  | nil => rfl
  | cons a bs ih =>
    have ha := h a (by simp)
    rw [List.length_cons, List.range_succ_eq_map, List.map_cons, List.map_map, List.flatten_cons,
      blockAt_zero ha]
    congr 1
    refine Eq.trans ?_ (ih fun b hb => h b (List.mem_cons_of_mem a hb))
    exact List.map_congr_left fun b _ => blockAt_succ ha bs.flatten b

theorem leaEncrypt4Block_flatten (key : LeaKey) {bs : List Bytes}
    (hlen : bs.length = 4) (h : ∀ b ∈ bs, b.length = 16) :
    leaEncrypt4Block bs.flatten key = bs.flatMap (leaEncrypt · key) := by
  have hblocks := blockAt_flatten h
  rw [hlen] at hblocks
  rw [leaEncrypt4Block_eq]
  conv_rhs => rw [← hblocks, List.flatMap_map]
  rfl

theorem leaDecrypt4Block_flatten (key : LeaKey) {bs : List Bytes}
    (hlen : bs.length = 4) (h : ∀ b ∈ bs, b.length = 16) :
    leaDecrypt4Block bs.flatten key = bs.flatMap (leaDecrypt · key) := by
  have hblocks := blockAt_flatten h
  rw [hlen] at hblocks
  rw [leaDecrypt4Block_eq]
  conv_rhs => rw [← hblocks, List.flatMap_map]
  rfl

theorem leaCtrEncNeon_eq (pt : Bytes) {ctr : Bytes} (hctr : ctr.length = 16)
    (key : LeaKey) : leaCtrEncNeon pt ctr key = leaCtrEnc (leaEncrypt · key) pt ctr := by
  rw [← leaCtrEncWide_eq (fun _ => rfl) 4 pt ctr, leaCtrEncNeon,
    fourLoop_eq (fun bs => leaEncrypt4Block_flatten key) _ _ _ hctr]
  rfl

/-- Under every key structure the four-block functions treat each block like the single ones,
and decrypting four blocks undoes encrypting them. -/
theorem four_blocks (key : LeaKey) {bs : List Bytes} (hlen : bs.length = 4)
    (h : ∀ b ∈ bs, b.length = 16) :
    leaEncrypt4Block bs.flatten key = bs.flatMap (leaEncrypt · key) ∧
      leaDecrypt4Block bs.flatten key = bs.flatMap (leaDecrypt · key) ∧
      leaDecrypt4Block (leaEncrypt4Block bs.flatten key) key = bs.flatten := by
  have henc := leaEncrypt4Block_flatten key hlen h
  refine ⟨henc, leaDecrypt4Block_flatten key hlen h, ?_⟩
  have hround : (bs.map (leaEncrypt · key)).flatMap (leaDecrypt · key) = bs.flatten := by
    rw [List.flatMap_map, List.flatMap_def]
    congr 1
    refine (List.map_congr_left fun b hb => ?_).trans (List.map_id bs)
    exact leaDecrypt_leaEncrypt key (h b hb)
  rw [henc, List.flatMap_def, leaDecrypt4Block_flatten key (by simpa using hlen), hround]
  simp only [List.mem_map, forall_exists_index, and_imp]
  rintro _ a _ rfl
  rfl

/-- Four blocks that count up, under round keys that all differ. -/
theorem four_blocks_counting :
    let key : LeaKey := ⟨Vector.ofFn fun i => BitVec.ofNat 32 (0x9e3779b9 * i), 24⟩
    let bs := (List.range 4).map fun b => (List.range 16).map fun i => BitVec.ofNat 8 (16 * b + i)
    leaEncrypt4Block bs.flatten key = bs.flatMap (leaEncrypt · key) ∧
      leaDecrypt4Block (leaEncrypt4Block bs.flatten key) key = bs.flatten := by
  intro key bs
  obtain ⟨henc, -, hround⟩ := @four_blocks key bs rfl (by decide)
  exact ⟨henc, hround⟩

/-- `lea_ctr_enc` of the vector build, behind `lea_set_key_generic`, is counter mode over the
cipher: any text, any counter, any key size, whatever the key structure held before. -/
theorem neon_counter_mode (key : LeaKey) (mk pt : Bytes) (c : ℕ) {mk_len : ℕ}
    {s : KeySize} (h : keySize mk_len = some s) :
    leaCtrEncNeon pt (counterBlock c) (leaSetKeyGeneric key mk mk_len) =
      ⟨ctrMode 16 (keyBlock fun b => storeWords (s.cipher (loadU32 mk) (loadWords b))) c pt,
        counterBlock (c + pt.length / 16), counterBlocks c (blockCount 16 pt.length)⟩ := by
  have hE : (leaEncrypt · (leaSetKeyGeneric key mk mk_len)) =
      fun b => storeWords (s.cipher (loadU32 mk) (loadWords b)) :=
    funext fun b => leaEncrypt_eq_cipher key mk b h
  rw [leaCtrEncNeon_eq pt (length_counterBlock c), hE, leaCtrEnc_eq fun _ => rfl]

/-- Seventy bytes: four blocks at once, and a block and a piece one by one. -/
theorem neon_counter_mode_seventy :
    let text := (List.range 70).map fun i => BitVec.ofNat 8 (3 * i)
    let mk := (List.range 32).map fun i => BitVec.ofNat 8 (7 * i)
    leaCtrEncNeon text (counterBlock 7) (leaSetKeyGeneric ⟨Vector.replicate 192 0, 0⟩ mk 32) =
      ⟨ctrMode 16 (keyBlock fun b => storeWords (lea256.cipher (loadU32 mk) (loadWords b))) 7 text,
        counterBlock 11, counterBlocks 7 5⟩ := by
  intro text mk
  have hlength : text.length = 70 := by simp only [text, List.length_map, List.length_range]
  have hsize : keySize 32 = some lea256 := rfl
  have hblocks : blockCount 16 70 = 5 := rfl
  rw [neon_counter_mode ⟨Vector.replicate 192 0, 0⟩ mk text 7 hsize, hlength, hblocks]

end CounterMode

end ModbusSecurity.LeaNeon
