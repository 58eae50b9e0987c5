import ModbusSecurity.ByteStrings

/-! # The LEA-128 block cipher of `crypto/lea_ref/lea_core.c`

`lea_set_key` and `lea_encrypt` unroll twenty-four rounds by hand; here one round
is a function and the register renaming of the unrolled code is a rotation of the
four words. -/
namespace ModbusSecurity.LeaCipher
open ByteStrings

abbrev Word := BitVec 32

/-- First column of the `delta` table; entry `j` of a row is the row rotated by `j`. -/
def delta : ℕ → Word
  | 0 => 0xc3efe9db
  | 1 => 0x44626b02
  | 2 => 0x79e27c8a
  | _ => 0x78df30ec

def rol (x : Word) (n : ℕ) : Word := x.rotateLeft n
def ror (x : Word) (n : ℕ) : Word := x.rotateRight n

/-- `loadU32`: little-endian, as on every target of the Makefile. -/
def loadU32 (bs : Bytes) (i : ℕ) : Word :=
  bs.getD (4 * i + 3) 0 ++ bs.getD (4 * i + 2) 0 ++ bs.getD (4 * i + 1) 0 ++ bs.getD (4 * i) 0

def storeU32 (x : Word) : Bytes :=
  [x.extractLsb' 0 8, x.extractLsb' 8 8, x.extractLsb' 16 8, x.extractLsb' 24 8]

/-- Four words: a cipher state, or the four chains of the key schedule. -/
structure Quad where
  x0 : Word
  x1 : Word
  x2 : Word
  x3 : Word
  deriving DecidableEq, Repr

def loadQuad (bs : Bytes) : Quad := ⟨loadU32 bs 0, loadU32 bs 1, loadU32 bs 2, loadU32 bs 3⟩

def Quad.store (q : Quad) : Bytes :=
  storeU32 q.x0 ++ storeU32 q.x1 ++ storeU32 q.x2 ++ storeU32 q.x3

/-- Round `i` of the 16-byte key schedule. The four words are `rk[6i]`, the shared
`rk[6i+1] = rk[6i+3] = rk[6i+5]`, `rk[6i+2]` and `rk[6i+4]`. -/
def keyRound (i : ℕ) (t : Quad) : Quad :=
  let d := delta (i % 4)
  ⟨rol (t.x0 + rol d (i % 32)) 1, rol (t.x1 + rol d ((i + 1) % 32)) 3,
    rol (t.x2 + rol d ((i + 2) % 32)) 6, rol (t.x3 + rol d ((i + 3) % 32)) 11⟩

/-- The round keys of rounds `i, …, i + n - 1`. -/
def keyRounds : ℕ → ℕ → Quad → List Quad
  | 0, _, _ => []
  | n + 1, i, t => keyRound i t :: keyRounds n (i + 1) (keyRound i t)

def leaSetKey (mk : Bytes) : List Quad := keyRounds 24 0 (loadQuad mk)

/-- One encryption round, followed by the renaming of the registers. -/
def encRound (x rk : Quad) : Quad :=
  ⟨rol ((x.x0 ^^^ rk.x0) + (x.x1 ^^^ rk.x1)) 9, ror ((x.x1 ^^^ rk.x2) + (x.x2 ^^^ rk.x1)) 5,
    ror ((x.x2 ^^^ rk.x3) + (x.x3 ^^^ rk.x1)) 3, x.x0⟩

/-- `lea_encrypt` under the schedule that `lea_set_key` makes of the 16-byte key. -/
def leaEncrypt (mk pt : Bytes) : Bytes := ((leaSetKey mk).foldl encRound (loadQuad pt)).store

@[simp] theorem length_leaEncrypt (mk pt : Bytes) : (leaEncrypt mk pt).length = 16 := rfl

/-- The test vector of the LEA-128 specification. -/
example : leaEncrypt
    [0x0f, 0x1e, 0x2d, 0x3c, 0x4b, 0x5a, 0x69, 0x78, 0x87, 0x96, 0xa5, 0xb4, 0xc3, 0xd2, 0xe1, 0xf0]
    [0x10, 0x11, 0x12, 0x13, 0x14, 0x15, 0x16, 0x17, 0x18, 0x19, 0x1a, 0x1b, 0x1c, 0x1d, 0x1e, 0x1f] =
    [0x9f, 0xc8, 0x4e, 0x35, 0x28, 0xc6, 0xc6, 0x18, 0x55, 0x32, 0xc7, 0xa7, 0x04, 0x64, 0x8b, 0xfd] := by
  decide +kernel

end ModbusSecurity.LeaCipher
