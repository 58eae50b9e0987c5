import ModbusSecurity.LeaCipher
import ModbusSecurity.RegisterPrograms
import Mathlib.Tactic.FinCases
import Mathlib.Data.Fintype.Basic

/-! # The LEA block cipher of `crypto/lea_ref/lea_core.c`

The cipher as a loop over rounds with a schedule that produces its words round by round, for
all three key sizes; and the code of `lea_set_key_generic`, `lea_encrypt` and `lea_decrypt`,
which fills the schedule column by column from a literal table and unrolls the rounds with
renamed registers. -/
namespace ModbusSecurity.LeaCore
open ByteStrings LeaCipher RegisterPrograms

/-! ### The cipher -/

/-- The constants of the key schedule, not yet rotated. -/
def scheduleConstants : List Word :=
  [0xc3efe9db, 0x44626b02, 0x79e27c8a, 0x78df30ec, 0x715ea49e, 0xc785da0a, 0xe04ef22a, 0xe5c40957]

/-- How far the words of one round are rotated. -/
def amounts : List ℕ := [1, 3, 6, 11, 13, 17]

/-- A key size: the number of words the schedule keeps, how many of them a round replaces,
which of these are its six round keys, and the number of rounds. -/
structure KeySize where
  words : ℕ
  perRound : ℕ
  select : Fin 6 → ℕ
  count : ℕ
  select_lt : ∀ k, select k < perRound
  perRound_le : perRound ≤ words

def lea128 : KeySize := ⟨4, 4, fun k => [0, 1, 2, 1, 3, 1].getD k 0, 24, by decide, by decide⟩
def lea192 : KeySize := ⟨6, 6, fun k => k, 28, by decide, by decide⟩
def lea256 : KeySize := ⟨8, 6, fun k => k, 32, by decide, by decide⟩

namespace KeySize
variable (s : KeySize)

/-- What the replacement number `p`, counted over all rounds, makes of its word. -/
def replace (p : ℕ) (t : Word) : Word :=
  rol (t + rol (scheduleConstants.getD (p / s.perRound % s.words) 0)
    (p / s.perRound + p % s.perRound)) (amounts.getD (p % s.perRound) 0)

/-- The words after `p` replacements; they take turns. -/
def schedule (mk : ℕ → Word) : ℕ → ℕ → Word
  | 0, c => mk c
  | p + 1, c => if p % s.words = c then s.replace p (schedule mk p c) else schedule mk p c

/-- The six round keys of round `i`. -/
def roundKey (mk : ℕ → Word) (i : ℕ) (k : Fin 6) : Word :=
  s.schedule mk (s.perRound * (i + 1)) ((s.perRound * i + s.select k) % s.words)

end KeySize

/-- One round on the four words of a block. -/
def round (rk : Fin 6 → Word) (x : Vector Word 4) : Vector Word 4 :=
  #v[rol ((x[0] ^^^ rk 0) + (x[1] ^^^ rk 1)) 9, ror ((x[1] ^^^ rk 2) + (x[2] ^^^ rk 3)) 5,
    ror ((x[2] ^^^ rk 4) + (x[3] ^^^ rk 5)) 3, x[0]]

/-- The first `n` rounds. -/
def KeySize.rounds (s : KeySize) (mk : ℕ → Word) : ℕ → Vector Word 4 → Vector Word 4
  | 0, x => x
  | n + 1, x => round (s.roundKey mk n) (rounds s mk n x)

def KeySize.cipher (s : KeySize) (mk : ℕ → Word) (x : Vector Word 4) : Vector Word 4 :=
  s.rounds mk s.count x

/-! ### The code -/

/-- `LEA_KEY`. -/
structure LeaKey where
  rk : Vector Word 192
  round : ℕ

def word (rk : Vector Word 192) (i : ℕ) : Word := (rk[i]?).getD 0

def LeaKey.at (key : LeaKey) (i : ℕ) : Word := word key.rk i

/-- The table `delta[8][36]`. -/
def deltaTable : List (List Word) :=
  [[0xc3efe9db, 0x87dfd3b7, 0x0fbfa76f, 0x1f7f4ede, 0x3efe9dbc, 0x7dfd3b78, 0xfbfa76f0, 0xf7f4ede1,
    0xefe9dbc3, 0xdfd3b787, 0xbfa76f0f, 0x7f4ede1f, 0xfe9dbc3e, 0xfd3b787d, 0xfa76f0fb, 0xf4ede1f7,
    0xe9dbc3ef, 0xd3b787df, 0xa76f0fbf, 0x4ede1f7f, 0x9dbc3efe, 0x3b787dfd, 0x76f0fbfa, 0xede1f7f4,
    0xdbc3efe9, 0xb787dfd3, 0x6f0fbfa7, 0xde1f7f4e, 0xbc3efe9d, 0x787dfd3b, 0xf0fbfa76, 0xe1f7f4ed,
    0xc3efe9db, 0x87dfd3b7, 0x0fbfa76f, 0x1f7f4ede],
   [0x44626b02, 0x88c4d604, 0x1189ac09, 0x23135812, 0x4626b024, 0x8c4d6048, 0x189ac091, 0x31358122,
    0x626b0244, 0xc4d60488, 0x89ac0911, 0x13581223, 0x26b02446, 0x4d60488c, 0x9ac09118, 0x35812231,
    0x6b024462, 0xd60488c4, 0xac091189, 0x58122313, 0xb0244626, 0x60488c4d, 0xc091189a, 0x81223135,
    0x0244626b, 0x0488c4d6, 0x091189ac, 0x12231358, 0x244626b0, 0x488c4d60, 0x91189ac0, 0x22313581,
    0x44626b02, 0x88c4d604, 0x1189ac09, 0x23135812],
   [0x79e27c8a, 0xf3c4f914, 0xe789f229, 0xcf13e453, 0x9e27c8a7, 0x3c4f914f, 0x789f229e, 0xf13e453c,
    0xe27c8a79, 0xc4f914f3, 0x89f229e7, 0x13e453cf, 0x27c8a79e, 0x4f914f3c, 0x9f229e78, 0x3e453cf1,
    0x7c8a79e2, 0xf914f3c4, 0xf229e789, 0xe453cf13, 0xc8a79e27, 0x914f3c4f, 0x229e789f, 0x453cf13e,
    0x8a79e27c, 0x14f3c4f9, 0x29e789f2, 0x53cf13e4, 0xa79e27c8, 0x4f3c4f91, 0x9e789f22, 0x3cf13e45,
    0x79e27c8a, 0xf3c4f914, 0xe789f229, 0xcf13e453],
   [0x78df30ec, 0xf1be61d8, 0xe37cc3b1, 0xc6f98763, 0x8df30ec7, 0x1be61d8f, 0x37cc3b1e, 0x6f98763c,
    0xdf30ec78, 0xbe61d8f1, 0x7cc3b1e3, 0xf98763c6, 0xf30ec78d, 0xe61d8f1b, 0xcc3b1e37, 0x98763c6f,
    0x30ec78df, 0x61d8f1be, 0xc3b1e37c, 0x8763c6f9, 0x0ec78df3, 0x1d8f1be6, 0x3b1e37cc, 0x763c6f98,
    0xec78df30, 0xd8f1be61, 0xb1e37cc3, 0x63c6f987, 0xc78df30e, 0x8f1be61d, 0x1e37cc3b, 0x3c6f9876,
    0x78df30ec, 0xf1be61d8, 0xe37cc3b1, 0xc6f98763],
   [0x715ea49e, 0xe2bd493c, 0xc57a9279, 0x8af524f3, 0x15ea49e7, 0x2bd493ce, 0x57a9279c, 0xaf524f38,
    0x5ea49e71, 0xbd493ce2, 0x7a9279c5, 0xf524f38a, 0xea49e715, 0xd493ce2b, 0xa9279c57, 0x524f38af,
    0xa49e715e, 0x493ce2bd, 0x9279c57a, 0x24f38af5, 0x49e715ea, 0x93ce2bd4, 0x279c57a9, 0x4f38af52,
    0x9e715ea4, 0x3ce2bd49, 0x79c57a92, 0xf38af524, 0xe715ea49, 0xce2bd493, 0x9c57a927, 0x38af524f,
    0x715ea49e, 0xe2bd493c, 0xc57a9279, 0x8af524f3],
   [0xc785da0a, 0x8f0bb415, 0x1e17682b, 0x3c2ed056, 0x785da0ac, 0xf0bb4158, 0xe17682b1, 0xc2ed0563,
    0x85da0ac7, 0x0bb4158f, 0x17682b1e, 0x2ed0563c, 0x5da0ac78, 0xbb4158f0, 0x7682b1e1, 0xed0563c2,
    0xda0ac785, 0xb4158f0b, 0x682b1e17, 0xd0563c2e, 0xa0ac785d, 0x4158f0bb, 0x82b1e176, 0x0563c2ed,
    0x0ac785da, 0x158f0bb4, 0x2b1e1768, 0x563c2ed0, 0xac785da0, 0x58f0bb41, 0xb1e17682, 0x63c2ed05,
    0xc785da0a, 0x8f0bb415, 0x1e17682b, 0x3c2ed056],
   [0xe04ef22a, 0xc09de455, 0x813bc8ab, 0x02779157, 0x04ef22ae, 0x09de455c, 0x13bc8ab8, 0x27791570,
    0x4ef22ae0, 0x9de455c0, 0x3bc8ab81, 0x77915702, 0xef22ae04, 0xde455c09, 0xbc8ab813, 0x79157027,
    0xf22ae04e, 0xe455c09d, 0xc8ab813b, 0x91570277, 0x22ae04ef, 0x455c09de, 0x8ab813bc, 0x15702779,
    0x2ae04ef2, 0x55c09de4, 0xab813bc8, 0x57027791, 0xae04ef22, 0x5c09de45, 0xb813bc8a, 0x70277915,
    0xe04ef22a, 0xc09de455, 0x813bc8ab, 0x02779157],
   [0xe5c40957, 0xcb8812af, 0x9710255f, 0x2e204abf, 0x5c40957e, 0xb8812afc, 0x710255f9, 0xe204abf2,
    0xc40957e5, 0x8812afcb, 0x10255f97, 0x204abf2e, 0x40957e5c, 0x812afcb8, 0x0255f971, 0x04abf2e2,
    0x0957e5c4, 0x12afcb88, 0x255f9710, 0x4abf2e20, 0x957e5c40, 0x2afcb881, 0x55f97102, 0xabf2e204,
    0x57e5c409, 0xafcb8812, 0x5f971025, 0xbf2e204a, 0x7e5c4095, 0xfcb8812a, 0xf9710255, 0xf2e204ab,
    0xe5c40957, 0xcb8812af, 0x9710255f, 0x2e204abf]]

def delta (row col : ℕ) : Word := (deltaTable.getD row []).getD col 0

/-- A line `rk[a] = rk[b] = … = ROL(word + delta[row][col], rot)`, where `word` is what the line
before it stored. -/
structure KeyLine where
  slots : List ℕ
  row : ℕ
  col : ℕ
  rot : ℕ

def KeyLine.value (l : KeyLine) (word : Word) : Word := rol (word + delta l.row l.col) l.rot

/-- The lines of one column, from a word of the master key on. -/
def keyColumn (rk : Vector Word 192) (word : Word) : List KeyLine → Vector Word 192
  | [] => rk
  | l :: ls =>
    keyColumn (l.slots.foldl (fun rk i => rk.setIfInBounds i (l.value word)) rk) (l.value word) ls

/-- `case 16`: line `i` of column `c`. -/
def line16 (c i : ℕ) : KeyLine where
  slots := ([[0], [1, 3, 5], [2], [4]].getD c []).map (6 * i + ·)
  row := i % 4
  col := i + c
  rot := amounts.getD c 0

def line24 (c i : ℕ) : KeyLine where
  slots := [6 * i + c]
  row := i % 6
  col := (i + c) % 32
  rot := amounts.getD c 0

/-- `case 32`: a column of eight words against six words a round. -/
def line32 (c i : ℕ) : KeyLine where
  slots := [8 * i + c]
  row := (8 * i + c) / 6 % 8
  col := ((8 * i + c) / 6 + (8 * i + c) % 6) % 32
  rot := amounts.getD ((8 * i + c) % 6) 0

/-- The columns of one case, one after the other. -/
def keyColumns (line : ℕ → ℕ → KeyLine) (columns lines : ℕ) (mk : Bytes) (rk : Vector Word 192) :
    Vector Word 192 :=
  (List.range columns).foldl
    (fun rk c => keyColumn rk (loadU32 mk c) ((List.range lines).map (line c))) rk

/-- `lea_set_key_generic`; what no line stores stays as it was in the structure. -/
def leaSetKeyGeneric (key : LeaKey) (mk : Bytes) (mk_len : ℕ) : LeaKey :=
  match mk_len with
  | 16 => ⟨keyColumns line16 4 24 mk key.rk, (mk_len >>> 1) + 16⟩
  | 24 => ⟨keyColumns line24 6 28 mk key.rk, (mk_len >>> 1) + 16⟩
  | 32 => ⟨keyColumns line32 8 24 mk key.rk, (mk_len >>> 1) + 16⟩
  | _ => key

/-- The three kinds of line of a round, named after their rotations. -/
inductive Rotation where
  | three
  | five
  | nine
  deriving DecidableEq, Repr

/-- A line mixes a register with its neighbour, `rk[first]` and `rk[first + 1]`. -/
structure Mix where
  rotation : Rotation
  first : ℕ

abbrev Line := Instr 4 Mix

/-- The four rounds that the unrolled code of `lea_encrypt` repeats, at `rk[o]`. -/
def encLines (o : ℕ) : List Line :=
  [⟨3, 2, ⟨.three, o + 4⟩, by decide⟩,
   ⟨2, 1, ⟨.five, o + 2⟩, by decide⟩,
   ⟨1, 0, ⟨.nine, o⟩, by decide⟩,
   ⟨0, 3, ⟨.three, o + 10⟩, by decide⟩,
   ⟨3, 2, ⟨.five, o + 8⟩, by decide⟩,
   ⟨2, 1, ⟨.nine, o + 6⟩, by decide⟩,
   ⟨1, 0, ⟨.three, o + 16⟩, by decide⟩,
   ⟨0, 3, ⟨.five, o + 14⟩, by decide⟩,
   ⟨3, 2, ⟨.nine, o + 12⟩, by decide⟩,
   ⟨2, 1, ⟨.three, o + 22⟩, by decide⟩,
   ⟨1, 0, ⟨.five, o + 20⟩, by decide⟩,
   ⟨0, 3, ⟨.nine, o + 18⟩, by decide⟩]

/-- The same for `lea_decrypt`. -/
def decLines (o : ℕ) : List Line :=
  [⟨0, 3, ⟨.nine, o + 18⟩, by decide⟩,
   ⟨1, 0, ⟨.five, o + 20⟩, by decide⟩,
   ⟨2, 1, ⟨.three, o + 22⟩, by decide⟩,
   ⟨3, 2, ⟨.nine, o + 12⟩, by decide⟩,
   ⟨0, 3, ⟨.five, o + 14⟩, by decide⟩,
   ⟨1, 0, ⟨.three, o + 16⟩, by decide⟩,
   ⟨2, 1, ⟨.nine, o + 6⟩, by decide⟩,
   ⟨3, 2, ⟨.five, o + 8⟩, by decide⟩,
   ⟨0, 3, ⟨.three, o + 10⟩, by decide⟩,
   ⟨1, 0, ⟨.nine, o⟩, by decide⟩,
   ⟨2, 1, ⟨.five, o + 2⟩, by decide⟩,
   ⟨3, 2, ⟨.three, o + 4⟩, by decide⟩]

/-- The lines that `lea_encrypt` runs under a key with `round` rounds. -/
def encProgram (round : ℕ) : List Line :=
  encLines 0 ++ encLines 24 ++ encLines 48 ++ encLines 72 ++ encLines 96 ++ encLines 120 ++
    (if 24 < round then encLines 144 else []) ++ (if 28 < round then encLines 168 else [])

def decProgram (round : ℕ) : List Line :=
  (if 28 < round then decLines 168 else []) ++ (if 24 < round then decLines 144 else []) ++
    decLines 120 ++ decLines 96 ++ decLines 72 ++ decLines 48 ++ decLines 24 ++ decLines 0

/-- `X = ROR((neighbour ^ rk[k]) + (X ^ rk[k+1]), 3)` and its companions. -/
def encMix (key : LeaKey) (m : Mix) (cur pre : Word) : Word :=
  let sum := (pre ^^^ key.at m.first) + (cur ^^^ key.at (m.first + 1))
  match m.rotation with
  | .three => ror sum 3
  | .five => ror sum 5
  | .nine => rol sum 9

/-- `X = (ROL(X, 3) - (neighbour ^ rk[k])) ^ rk[k+1]` and its companions. -/
def decMix (key : LeaKey) (m : Mix) (cur pre : Word) : Word :=
  let turned := match m.rotation with
    | .three => rol cur 3
    | .five => rol cur 5
    | .nine => ror cur 9
  (turned - (pre ^^^ key.at m.first)) ^^^ key.at (m.first + 1)

def loadWords (bs : Bytes) : Vector Word 4 := #v[loadU32 bs 0, loadU32 bs 1, loadU32 bs 2, loadU32 bs 3]

def storeWords (x : Vector Word 4) : Bytes :=
  storeU32 x[0] ++ storeU32 x[1] ++ storeU32 x[2] ++ storeU32 x[3]

def leaEncrypt (pt : Bytes) (key : LeaKey) : Bytes :=
  storeWords (run (encMix key) (encProgram key.round) (loadWords pt))

def leaDecrypt (ct : Bytes) (key : LeaKey) : Bytes :=
  storeWords (run (decMix key) (decProgram key.round) (loadWords ct))

/-! ### Words and bytes -/

theorem join_storeU32 (x : Word) : x.extractLsb' 24 8 ++ x.extractLsb' 16 8 ++ x.extractLsb' 8 8 ++
    x.extractLsb' 0 8 = x := by
  apply BitVec.eq_of_getLsbD_eq
  intro i hi
  simp only [BitVec.getLsbD_append, BitVec.getLsbD_extractLsb']
  grind

theorem storeU32_join (a b c d : Byte) : storeU32 (a ++ b ++ c ++ d) = [d, c, b, a] := by
  simp only [storeU32, List.cons.injEq, and_true]
  refine ⟨?_, ?_, ?_, ?_⟩ <;>
  · apply BitVec.eq_of_getLsbD_eq
    intro i hi
    simp only [BitVec.getLsbD_append, BitVec.getLsbD_extractLsb', hi, decide_true, Bool.true_and]
    grind

@[simp] theorem length_storeWords (x : Vector Word 4) : (storeWords x).length = 16 := rfl

theorem loadWords_storeWords (x : Vector Word 4) : loadWords (storeWords x) = x := by
  apply ext_registers
  intro j
  fin_cases j <;> exact join_storeU32 _

theorem storeWords_loadWords {bs : Bytes} (h : bs.length = 16) : storeWords (loadWords bs) = bs := by
  match bs, h with
  | [b0, b1, b2, b3, b4, b5, b6, b7, b8, b9, b10, b11, b12, b13, b14, b15], _ =>
    show storeU32 (b3 ++ b2 ++ b1 ++ b0) ++ storeU32 (b7 ++ b6 ++ b5 ++ b4) ++
      storeU32 (b11 ++ b10 ++ b9 ++ b8) ++ storeU32 (b15 ++ b14 ++ b13 ++ b12) = _
    rw [storeU32_join, storeU32_join, storeU32_join, storeU32_join]
    rfl

/-! ### Decryption undoes encryption -/

theorem rol_ror (x : Word) (n : ℕ) : rol (ror x n) n = x := by
  apply BitVec.eq_of_getElem_eq
  intro i hi
  simp only [ror, rol, BitVec.getElem_rotateRight, BitVec.getElem_rotateLeft]
  split <;> split <;> first | omega | (congr 1; omega)

theorem ror_rol (x : Word) (n : ℕ) : ror (rol x n) n = x := by
  apply BitVec.eq_of_getElem_eq
  intro i hi
  simp only [ror, rol, BitVec.getElem_rotateRight, BitVec.getElem_rotateLeft]
  split <;> split <;> first | omega | (congr 1; omega)

theorem xor_xor_cancel (x y : Word) : x ^^^ y ^^^ y = x := by
  rw [BitVec.xor_assoc, BitVec.xor_self, BitVec.xor_zero]

theorem add_sub_self (x y : Word) : x + y - x = y := by rw [BitVec.add_comm, BitVec.add_sub_cancel]

theorem add_sub_same (x y : Word) : x + (y - x) = y := by rw [BitVec.add_comm, BitVec.sub_add_cancel]

theorem decMix_encMix (key : LeaKey) (m : Mix) (cur pre : Word) :
    decMix key m (encMix key m cur pre) pre = cur := by
  obtain ⟨rotation, first⟩ := m
  cases rotation <;>
    simp only [decMix, encMix, rol_ror, ror_rol, add_sub_self, xor_xor_cancel]

theorem encMix_decMix (key : LeaKey) (m : Mix) (cur pre : Word) :
    encMix key m (decMix key m cur pre) pre = cur := by
  obtain ⟨rotation, first⟩ := m
  cases rotation <;>
    simp only [decMix, encMix, rol_ror, ror_rol, xor_xor_cancel, add_sub_same]

theorem decLines_eq (o : ℕ) : decLines o = (encLines o).reverse := rfl

theorem decProgram_eq (round : ℕ) : decProgram round = (encProgram round).reverse := by
  simp only [decProgram, encProgram, decLines_eq, List.reverse_append, List.append_assoc]
  split <;> split <;> rfl

theorem leaDecrypt_leaEncrypt (key : LeaKey) {pt : Bytes} (h : pt.length = 16) :
    leaDecrypt (leaEncrypt pt key) key = pt := by
  rw [leaDecrypt, leaEncrypt, loadWords_storeWords, decProgram_eq,
    run_undo (fun m v w => decMix_encMix key m v w), storeWords_loadWords h]

theorem leaEncrypt_leaDecrypt (key : LeaKey) {ct : Bytes} (h : ct.length = 16) :
    leaEncrypt (leaDecrypt ct key) key = ct := by
  have hundo := run_undo (fun m v w => encMix_decMix key m v w) (decProgram key.round) (loadWords ct)
  rw [decProgram_eq, List.reverse_reverse, ← decProgram_eq] at hundo
  rw [leaDecrypt, leaEncrypt, loadWords_storeWords, hundo, storeWords_loadWords h]

/-! ### The unrolled rounds -/

/-- The names move on by one register from round to round. -/
def turn : Equiv.Perm (Fin 4) where
  toFun i := i + 1
  invFun i := i - 1
  left_inv i := by decide +revert
  right_inv i := by decide +revert

/-- The lines of one round on registers renamed `j` times. -/
def roundLines (j : Fin 4) (o : ℕ) : List Line :=
  [⟨3 + j, 2 + j, ⟨.three, o + 4⟩, by decide +revert⟩, ⟨2 + j, 1 + j, ⟨.five, o + 2⟩, by decide +revert⟩,
   ⟨1 + j, 0 + j, ⟨.nine, o⟩, by decide +revert⟩]

def body (r : ℕ) : List Line := roundLines 0 (6 * r)

theorem encLines_eq (o : ℕ) : encLines o =
    roundLines 0 o ++ roundLines 1 (o + 6) ++ roundLines 2 (o + 12) ++ roundLines 3 (o + 18) := rfl

theorem turn_pow (j i : Fin 4) : (turn ^ j.val) i = i + j := by
  revert j i
  decide

theorem turn_pow_four (n : ℕ) : turn ^ (4 * n) = 1 := by
  have h : turn ^ 4 = 1 := Equiv.ext (by decide)
  rw [pow_mul, h, one_pow]

theorem rename_body (n : ℕ) (j : Fin 4) :
    (body (4 * n + j)).map (Instr.rename (turn ^ (4 * n + j.val))) =
      roundLines j (24 * n + 6 * j) := by
  have hkey : 6 * (4 * n + j.val) = 24 * n + 6 * j := by omega
  rw [pow_add, turn_pow_four, one_mul, body, hkey]
  simp only [roundLines, List.map_cons, List.map_nil, Instr.rename, turn_pow]
  rfl

theorem unrolled_group (n : ℕ) :
    unrolled turn body (4 * (n + 1)) = unrolled turn body (4 * n) ++ encLines (24 * n) := by
  have hgroup : unrolled turn body (4 * (n + 1)) =
      unrolled turn body (4 * n) ++ (body (4 * n + (0 : Fin 4))).map (Instr.rename (turn ^ (4 * n + (0 : Fin 4).val))) ++
      (body (4 * n + (1 : Fin 4))).map (Instr.rename (turn ^ (4 * n + (1 : Fin 4).val))) ++
      (body (4 * n + (2 : Fin 4))).map (Instr.rename (turn ^ (4 * n + (2 : Fin 4).val))) ++
      (body (4 * n + (3 : Fin 4))).map (Instr.rename (turn ^ (4 * n + (3 : Fin 4).val))) := rfl
  rw [hgroup, rename_body, rename_body, rename_body, rename_body, encLines_eq]
  simp only [List.append_assoc]
  rfl

theorem unrolled_groups (n : ℕ) :
    unrolled turn body (4 * n) = (List.range n).flatMap fun g => encLines (24 * g) := by
  induction n with
  | zero => rfl
  | succ n ih => rw [unrolled_group, ih, List.range_succ, List.flatMap_append, List.flatMap_singleton]

/-- The numbers of rounds the three key sizes ask for. -/
theorem encProgram_eq {n : ℕ} (h : n = 24 ∨ n = 28 ∨ n = 32) : encProgram n = unrolled turn body n := by
  rcases h with rfl | rfl | rfl
  · exact (unrolled_groups 6).symm
  · exact (unrolled_groups 7).symm
  · exact (unrolled_groups 8).symm

theorem permute_run_body (key : LeaKey) (r : ℕ) (x : Vector Word 4) :
    permute turn (run (encMix key) (body r) x) = round (fun k => key.at (6 * r + k)) x := by
  obtain ⟨⟨l⟩, hl⟩ := x
  match l, hl with
  | [a, b, c, d], _ => rfl

theorem rounds_eq {key : LeaKey} {s : KeySize} {mk : ℕ → Word} {n : ℕ}
    (h : ∀ i < n, ∀ k : Fin 6, key.at (6 * i + k) = s.roundKey mk i k) (x : Vector Word 4) :
    rounds (encMix key) turn body n x = s.rounds mk n x := by
  induction n with
  | zero => rfl
  | succ n ih =>
    have hkeys : (fun k : Fin 6 => key.at (6 * n + k)) = s.roundKey mk n := funext (h n n.lt_succ_self)
    rw [rounds, KeySize.rounds, ih fun i hi => h i (Nat.lt_succ_of_lt hi), permute_run_body, hkeys]

/-! ### The key schedule, column by column -/

namespace KeySize
variable (s : KeySize)

/-- The values that one word of the schedule takes. -/
def column (mk : ℕ → Word) (c : ℕ) : ℕ → Word
  | 0 => mk c
  | j + 1 => s.replace (s.words * j + c) (column mk c j)

/-- During the turn `j` the words in front have taken their next value already. -/
theorem schedule_add (mk : ℕ → Word) {c : ℕ} (hc : c < s.words) (j : ℕ) {r : ℕ} (hr : r ≤ s.words) :
    s.schedule mk (s.words * j + r) c = s.column mk c (if c < r then j + 1 else j) := by
  have hrow : ∀ j, s.schedule mk (s.words * j) c = s.column mk c j → ∀ r ≤ s.words,
      s.schedule mk (s.words * j + r) c = s.column mk c (if c < r then j + 1 else j) := by
    intro j hstart r
    induction r with
    | zero => exact fun _ => hstart
    | succ r ih =>
      intro hr
      have hmod : (s.words * j + r) % s.words = r := by
        rw [Nat.mul_add_mod, Nat.mod_eq_of_lt (by omega)]
      rw [← Nat.add_assoc, schedule, hmod, ih (by omega)]
      rcases Nat.lt_trichotomy c r with h | rfl | h
      · rw [if_neg (by omega), if_pos h, if_pos (by omega)]
      · rw [if_pos rfl, if_neg (by omega), if_pos (by omega)]
        rfl
      · rw [if_neg (by omega), if_neg (by omega), if_neg (by omega)]
  refine hrow j ?_ r hr
  clear hr r
  induction j with
  | zero => rfl
  | succ j ih =>
    have := hrow j ih s.words le_rfl
    rwa [if_pos hc, ← Nat.mul_succ] at this

theorem roundKey_eq (mk : ℕ → Word) {i c j : ℕ} {k : Fin 6} (hc : c < s.words)
    (h : s.perRound * i + s.select k = s.words * j + c) :
    s.roundKey mk i k = s.column mk c (j + 1) := by
  have hk := s.select_lt k
  have hu := s.perRound_le
  have hslot : (s.perRound * i + s.select k) % s.words = c := by
    rw [h, Nat.mul_add_mod, Nat.mod_eq_of_lt hc]
  have hend : s.perRound * (i + 1) = s.words * j + c + (s.perRound - s.select k) := by
    rw [Nat.mul_succ]
    omega
  rw [roundKey, hslot, hend]
  -- the round ends inside the turn of its word or early in the next one
  by_cases hlate : c + (s.perRound - s.select k) ≤ s.words
  · rw [Nat.add_assoc, s.schedule_add mk hc j hlate, if_pos (by omega)]
  · have hnext : s.words * j + c + (s.perRound - s.select k) =
        s.words * (j + 1) + (c + (s.perRound - s.select k) - s.words) := by
      rw [Nat.mul_succ]
      omega
    rw [hnext, s.schedule_add mk hc (j + 1) (by omega), if_neg (by omega)]

end KeySize

/-! ### The stores of the code -/

def store (rk : Vector Word 192) (ws : List (ℕ × Word)) : Vector Word 192 :=
  ws.foldl (fun rk w => rk.setIfInBounds w.1 w.2) rk

/-- Where all stores to a place agree, it holds what they stored. -/
theorem word_store {rk : Vector Word 192} {ws : List (ℕ × Word)} {i : ℕ} {v : Word} (hi : i < 192)
    (hmem : (i, v) ∈ ws) (h : ∀ u, (i, u) ∈ ws → u = v) : word (store rk ws) i = v := by
  induction ws using List.reverseRecOn with
  | nil => cases hmem
  | append_singleton ws w ih =>
    have hlast : store rk (ws ++ [w]) = (store rk ws).setIfInBounds w.1 w.2 := by
      simp [store]
    rw [hlast, word, Vector.getElem?_setIfInBounds]
    obtain ⟨k, u⟩ := w
    by_cases hk : k = i
    · subst hk
      rw [if_pos rfl, if_pos hi]
      exact h u (by simp)
    · rw [if_neg hk]
      refine ih ?_ fun u' hu => h u' (List.mem_append_left _ hu)
      simpa [Ne.symm hk] using hmem

/-- The value that line `j` of a column stores. -/
def lineValue (line : ℕ → KeyLine) (w : Word) : ℕ → Word
  | 0 => w
  | j + 1 => (line j).value (lineValue line w j)

def lineWrites (line : ℕ → KeyLine) (w : Word) (j : ℕ) : List (ℕ × Word) :=
  (line j).slots.map fun i => (i, lineValue line w (j + 1))

theorem store_append (rk : Vector Word 192) (a b : List (ℕ × Word)) :
    store rk (a ++ b) = store (store rk a) b := List.foldl_append

theorem keyColumn_eq (line : ℕ → KeyLine) (w : Word) (n k : ℕ) (rk : Vector Word 192) :
    keyColumn rk (lineValue line w k) ((List.range' k n).map line) =
      store rk ((List.range' k n).flatMap (lineWrites line w)) := by
  induction n generalizing k rk with
  | zero => rfl
  | succ n ih =>
    have hline : (line k).slots.foldl
        (fun rk i => rk.setIfInBounds i ((line k).value (lineValue line w k))) rk =
        store rk (lineWrites line w k) := by
      rw [store, lineWrites, List.foldl_map]
      rfl
    rw [List.range'_succ, List.map_cons, keyColumn, hline, List.flatMap_cons, store_append]
    exact ih (k + 1) _

theorem keyColumns_eq (line : ℕ → ℕ → KeyLine) (columns lines : ℕ) (mk : Bytes) (rk : Vector Word 192) :
    keyColumns line columns lines mk rk = store rk ((List.range columns).flatMap fun c =>
      (List.range lines).flatMap (lineWrites (line c) (loadU32 mk c))) := by
  rw [keyColumns]
  induction columns with
  | zero => rfl
  | succ n ih =>
    rw [List.range_succ, List.foldl_append, List.flatMap_append, List.flatMap_singleton, store_append, ← ih]
    simp only [List.foldl_cons, List.foldl_nil, List.range_eq_range']
    exact keyColumn_eq (line n) (loadU32 mk n) lines 0 _

/-- A place that one line of one column stores to holds the value of that line. -/
theorem word_keyColumns {line : ℕ → ℕ → KeyLine} {columns lines c j i : ℕ} {mk : Bytes}
    {rk : Vector Word 192} (hi : i < 192) (hc : c < columns) (hj : j < lines)
    (hmem : i ∈ (line c j).slots)
    (huniq : ∀ c' < columns, ∀ j' < lines, i ∈ (line c' j').slots → c' = c ∧ j' = j) :
    word (keyColumns line columns lines mk rk) i =
      lineValue (line c) (loadU32 mk c) (j + 1) := by
  rw [keyColumns_eq]
  refine word_store hi ?_ fun u hu => ?_
  · simp only [List.mem_flatMap, List.mem_range, lineWrites, List.mem_map, Prod.mk.injEq]
    exact ⟨c, hc, j, hj, i, hmem, rfl, rfl⟩
  · simp only [List.mem_flatMap, List.mem_range, lineWrites, List.mem_map, Prod.mk.injEq] at hu
    obtain ⟨c', hc', j', hj', i', hi', rfl, rfl⟩ := hu
    obtain ⟨rfl, rfl⟩ := huniq c' hc' j' hj' hi'
    rfl

theorem delta_eq {row col : ℕ} (hr : row < 8) (hc : col < 36) :
    delta row col = rol (scheduleConstants.getD row 0) col := by
  have h : ∀ row : Fin 8, ∀ col : Fin 36,
      delta row col = rol (scheduleConstants.getD row 0) col := by decide +kernel
  exact h ⟨row, hr⟩ ⟨col, hc⟩

theorem rol_mod (x : Word) (n : ℕ) : rol x (n % 32) = rol x n := BitVec.rotateLeft_mod_eq_rotateLeft

/-- The lines of a column compute the values of its word. -/
theorem lineValue_eq {s : KeySize} {line : ℕ → KeyLine} {mk : Bytes} {c n : ℕ}
    (h : ∀ j < n, ∀ w, (line j).value w = s.replace (s.words * j + c) w) {j : ℕ} (hj : j ≤ n) :
    lineValue line (loadU32 mk c) j = s.column (loadU32 mk) c j := by
  induction j with
  | zero => rfl
  | succ j ih => rw [lineValue, ih (by omega), h j (by omega), KeySize.column]

theorem line16_value {c i : ℕ} (hc : c < 4) (hi : i < 24) (w : Word) :
    (line16 c i).value w = lea128.replace (4 * i + c) w := by
  have hdiv : (4 * i + c) / 4 = i := by omega
  have hmod : (4 * i + c) % 4 = c := by omega
  simp only [KeyLine.value, line16, KeySize.replace, lea128, hdiv, hmod]
  rw [delta_eq (by omega) (by omega)]

theorem line24_value {c i : ℕ} (hc : c < 6) (w : Word) :
    (line24 c i).value w = lea192.replace (6 * i + c) w := by
  have hdiv : (6 * i + c) / 6 = i := by omega
  have hmod : (6 * i + c) % 6 = c := by omega
  simp only [KeyLine.value, line24, KeySize.replace, lea192, hdiv, hmod]
  rw [delta_eq (by omega) (by omega), rol_mod]

theorem line32_value (c i : ℕ) (w : Word) :
    (line32 c i).value w = lea256.replace (8 * i + c) w := by
  simp only [KeyLine.value, line32, KeySize.replace, lea256]
  rw [delta_eq (by omega) (by omega), rol_mod]

/-- The key schedule of the code holds the round keys of the cipher. -/
theorem setKey16 (rk : Vector Word 192) (mk : Bytes) {r : ℕ} (hr : r < 24) (k : Fin 6) :
    word (keyColumns line16 4 24 mk rk) (6 * r + k) = lea128.roundKey (loadU32 mk) r k := by
  have hk : lea128.select k < 4 := lea128.select_lt k
  have hmem : ∀ k : Fin 6, k.val ∈ [[0], [1, 3, 5], [2], [4]].getD (lea128.select k) [] := by decide
  have hplace : ∀ k : Fin 6, ∀ c < 4, ∀ p ∈ [[0], [1, 3, 5], [2], [4]].getD c [], 
      p < 6 ∧ (p = k.val → c = lea128.select k) := by decide
  rw [lea128.roundKey_eq (loadU32 mk) hk rfl, ← lineValue_eq (fun j hj => line16_value hk hj) hr]
  refine word_keyColumns (by omega) hk hr ?_ ?_
  · exact List.mem_map.mpr ⟨k, hmem k, rfl⟩
  · intro c' hc' j' hj' hin
    obtain ⟨p, hp, heq⟩ := List.mem_map.mp hin
    obtain ⟨hp6, hsel⟩ := hplace k c' hc' p hp
    have : p = k.val := by omega
    exact ⟨hsel this, by omega⟩

theorem setKey24 (rk : Vector Word 192) (mk : Bytes) {r : ℕ} (hr : r < 28) (k : Fin 6) :
    word (keyColumns line24 6 28 mk rk) (6 * r + k) = lea192.roundKey (loadU32 mk) r k := by
  rw [lea192.roundKey_eq (loadU32 mk) k.isLt rfl,
    ← lineValue_eq (fun j _ => line24_value k.isLt) hr]
  refine word_keyColumns (by omega) k.isLt hr (List.mem_singleton.mpr rfl) ?_
  intro c' hc' j' hj' hin
  have := List.mem_singleton.mp hin
  omega

theorem setKey32 (rk : Vector Word 192) (mk : Bytes) {r : ℕ} (hr : r < 32) (k : Fin 6) :
    word (keyColumns line32 8 24 mk rk) (6 * r + k) = lea256.roundKey (loadU32 mk) r k := by
  have hc : (6 * r + k.val) % 8 < 8 := Nat.mod_lt _ (by omega)
  have hsplit : 6 * r + k.val = 8 * ((6 * r + k) / 8) + (6 * r + k) % 8 := by omega
  have hj : (6 * r + k.val) / 8 < 24 := by omega
  rw [lea256.roundKey_eq (loadU32 mk) hc hsplit,
    ← lineValue_eq (fun j _ => line32_value _ j) hj]
  refine word_keyColumns (by omega) hc hj (List.mem_singleton.mpr hsplit) ?_
  intro c' hc' j' hj' hin
  have := List.mem_singleton.mp hin
  omega

/-- The key size that a length of the master key stands for. -/
def keySize : ℕ → Option KeySize
  | 16 => some lea128
  | 24 => some lea192
  | 32 => some lea256
  | _ => none

theorem count_of_keySize {mk_len : ℕ} {s : KeySize} (h : keySize mk_len = some s) :
    s.count = 24 ∨ s.count = 28 ∨ s.count = 32 := by
  unfold keySize at h
  split at h <;> cases h
  · exact Or.inl rfl
  · exact Or.inr (Or.inl rfl)
  · exact Or.inr (Or.inr rfl)

theorem leaSetKeyGeneric_spec (key : LeaKey) (mk : Bytes) {mk_len : ℕ} {s : KeySize}
    (h : keySize mk_len = some s) : (leaSetKeyGeneric key mk mk_len).round = s.count ∧
      ∀ r < s.count, ∀ k : Fin 6,
        (leaSetKeyGeneric key mk mk_len).at (6 * r + k) = s.roundKey (loadU32 mk) r k := by
  unfold keySize at h
  split at h <;> cases h
  · exact ⟨rfl, fun r hr k => setKey16 key.rk mk hr k⟩
  · exact ⟨rfl, fun r hr k => setKey24 key.rk mk hr k⟩
  · exact ⟨rfl, fun r hr k => setKey32 key.rk mk hr k⟩

theorem leaEncrypt_eq_cipher (key : LeaKey) (mk pt : Bytes) {mk_len : ℕ} {s : KeySize}
    (h : keySize mk_len = some s) : leaEncrypt pt (leaSetKeyGeneric key mk mk_len) =
      storeWords (s.cipher (loadU32 mk) (loadWords pt)) := by
  have hcount := count_of_keySize h
  obtain ⟨hround, hkeys⟩ := leaSetKeyGeneric_spec key mk h
  have hturn : turn ^ s.count = 1 := by
    obtain ⟨n, hn⟩ : ∃ n, s.count = 4 * n := ⟨s.count / 4, by omega⟩
    rw [hn, turn_pow_four]
  rw [leaEncrypt, hround, encProgram_eq hcount, run_unrolled hturn, rounds_eq hkeys, KeySize.cipher]

/-! ### The cipher of the frames -/

def Quad.words (q : Quad) : Vector Word 4 := #v[q.x0, q.x1, q.x2, q.x3]

/-- The chains of the schedule before round `i`. -/
def chains (mk : Bytes) (i : ℕ) : Quad :=
  ⟨lea128.column (loadU32 mk) 0 i, lea128.column (loadU32 mk) 1 i, lea128.column (loadU32 mk) 2 i,
    lea128.column (loadU32 mk) 3 i⟩

theorem keyRound_chains (mk : Bytes) (i : ℕ) : keyRound i (chains mk i) = chains mk (i + 1) := by
  have hc : LeaCipher.delta (i % 4) = scheduleConstants.getD (i % 4) 0 := by
    have h : ∀ r : Fin 4, LeaCipher.delta r = scheduleConstants.getD r 0 := by decide
    exact h ⟨i % 4, by omega⟩
  have hstep : ∀ c < 4, lea128.column (loadU32 mk) c (i + 1) =
      rol (lea128.column (loadU32 mk) c i + rol (scheduleConstants.getD (i % 4) 0) ((i + c) % 32))
        (amounts.getD c 0) := by
    intro c hlt
    have hdiv : (4 * i + c) / 4 = i := by omega
    have hmod : (4 * i + c) % 4 = c := by omega
    rw [KeySize.column, rol_mod]
    simp only [KeySize.replace, lea128, hdiv, hmod]
  simp only [keyRound, chains, hc, hstep 0 (by decide), hstep 1 (by decide), hstep 2 (by decide),
    hstep 3 (by decide)]
  rfl

theorem encRound_words (mk : Bytes) (i : ℕ) (x : Quad) :
    Quad.words (encRound x (chains mk (i + 1))) =
      round (lea128.roundKey (loadU32 mk) i) (Quad.words x) := by
  have hkey : ∀ k, lea128.roundKey (loadU32 mk) i k =
      lea128.column (loadU32 mk) (lea128.select k) (i + 1) := fun k =>
    lea128.roundKey_eq (loadU32 mk) (lea128.select_lt k) rfl
  simp only [round, hkey]
  rfl

theorem foldl_keyRounds (mk : Bytes) (x₀ : Vector Word 4) (n i : ℕ) (x : Quad)
    (hx : Quad.words x = lea128.rounds (loadU32 mk) i x₀) :
    Quad.words ((keyRounds n i (chains mk i)).foldl encRound x) =
      lea128.rounds (loadU32 mk) (i + n) x₀ := by
  induction n generalizing i x with
  | zero => exact hx
  | succ n ih =>
    rw [keyRounds, keyRound_chains, List.foldl_cons, ← Nat.add_assoc, Nat.add_right_comm]
    refine ih (i + 1) _ ?_
    rw [encRound_words, hx, KeySize.rounds]

/-- The cipher that the frames are encrypted with is the one of the standard for 16-byte keys. -/
theorem leaEncrypt_frames (mk pt : Bytes) : LeaCipher.leaEncrypt mk pt =
    storeWords (lea128.cipher (loadU32 mk) (loadWords pt)) := by
  have h := foldl_keyRounds mk (loadWords pt) 24 0 (loadQuad pt) rfl
  rw [Nat.zero_add] at h
  rw [KeySize.cipher, show lea128.count = 24 from rfl, ← h]
  rfl

/-- For every content of the key structure the two block functions are inverse to each other,
and behind `lea_set_key_generic` the unrolled code is the cipher, whatever was in the
structure before; for 16-byte keys it is the one that encrypts the frames. -/
theorem lea_block_cipher {block : Bytes} (hblock : block.length = 16) :
    (∀ key, leaDecrypt (leaEncrypt block key) key = block ∧
      leaEncrypt (leaDecrypt block key) key = block) ∧
    (∀ (key : LeaKey) (mk : Bytes) (mk_len : ℕ) (s : KeySize), keySize mk_len = some s →
      leaEncrypt block (leaSetKeyGeneric key mk mk_len) =
        storeWords (s.cipher (loadU32 mk) (loadWords block))) ∧
    ∀ (key : LeaKey) (mk : Bytes),
      leaEncrypt block (leaSetKeyGeneric key mk 16) = LeaCipher.leaEncrypt mk block := by
  refine ⟨fun key => ⟨leaDecrypt_leaEncrypt key hblock, leaEncrypt_leaDecrypt key hblock⟩,
    fun key mk _ _ h => leaEncrypt_eq_cipher key mk block h, fun key mk => ?_⟩
  rw [leaEncrypt_frames]
  exact leaEncrypt_eq_cipher key mk block rfl

/-- The published vector of LEA-128, behind a structure that was in use before. -/
theorem lea_block_cipher_vector :
    let mk : Bytes := [0x0f, 0x1e, 0x2d, 0x3c, 0x4b, 0x5a, 0x69, 0x78, 0x87, 0x96, 0xa5, 0xb4, 0xc3,
      0xd2, 0xe1, 0xf0]
    let block : Bytes := [0x10, 0x11, 0x12, 0x13, 0x14, 0x15, 0x16, 0x17, 0x18, 0x19, 0x1a, 0x1b, 0x1c,
      0x1d, 0x1e, 0x1f]
    let key := leaSetKeyGeneric ⟨Vector.replicate 192 0xffffffff, 32⟩ mk 16
    leaEncrypt block key = [0x9f, 0xc8, 0x4e, 0x35, 0x28, 0xc6, 0xc6, 0x18, 0x55, 0x32, 0xc7, 0xa7,
      0x04, 0x64, 0x8b, 0xfd] ∧ leaDecrypt (leaEncrypt block key) key = block := by
  intro mk block key
  obtain ⟨hinverse, hcipher, -⟩ := @lea_block_cipher block rfl
  refine ⟨?_, (hinverse key).1⟩
  rw [hcipher _ mk 16 lea128 rfl]
  decide +kernel

end ModbusSecurity.LeaCore
