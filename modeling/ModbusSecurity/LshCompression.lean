import ModbusSecurity.LshFunction
import Mathlib.Data.Fintype.Basic
import Mathlib.Tactic.FinCases

/-! # The compression functions of `lsh256.c` and `lsh512.c`

The two files differ in the word width and in constants. One step writes the sixteen words of the
chaining value in place, and the sub-messages of the even and of the odd steps take turns in one
buffer. -/
namespace ModbusSecurity.LshCompression
open ByteStrings BlockStreams LshFunction
variable {w : ℕ}

/-- An array of eight, which the sources index by constants only. -/
structure Row (α : Type) where
  w0 : α
  w1 : α
  w2 : α
  w3 : α
  w4 : α
  w5 : α
  w6 : α
  w7 : α
  deriving DecidableEq, Repr

namespace Row
variable {α β γ : Type}

def map (f : α → β) (a : Row α) : Row β :=
  ⟨f a.w0, f a.w1, f a.w2, f a.w3, f a.w4, f a.w5, f a.w6, f a.w7⟩

def zipWith (f : α → β → γ) (a : Row α) (b : Row β) : Row γ :=
  ⟨f a.w0 b.w0, f a.w1 b.w1, f a.w2 b.w2, f a.w3 b.w3, f a.w4 b.w4, f a.w5 b.w5, f a.w6 b.w6,
    f a.w7 b.w7⟩

/-- `f k` to `f (k + 7)`. -/
def load (f : ℕ → α) (k : ℕ) : Row α :=
  ⟨f k, f (k + 1), f (k + 2), f (k + 3), f (k + 4), f (k + 5), f (k + 6), f (k + 7)⟩

def toList (a : Row α) : List α := [a.w0, a.w1, a.w2, a.w3, a.w4, a.w5, a.w6, a.w7]

def get (a : Row α) : Fin 8 → α := a.toList.get

end Row

/-- `cv_l` and `cv_r`. -/
structure Chaining (w : ℕ) where
  l : Row (BitVec w)
  r : Row (BitVec w)
  deriving DecidableEq, Repr

/-- `LSH256_internal` and `LSH512_internal`. -/
structure Internal (w : ℕ) where
  submsgEL : Row (BitVec w)
  submsgER : Row (BitVec w)
  submsgOL : Row (BitVec w)
  submsgOR : Row (BitVec w)

def loadMsgBlk (w : ℕ) (msgblk : Bytes) : Internal w :=
  ⟨Row.load (leWord w msgblk) 0, Row.load (leWord w msgblk) 8, Row.load (leWord w msgblk) 16,
    Row.load (leWord w msgblk) 24⟩

/-- One half of `msg_exp_even` and `msg_exp_odd`: the next sub-message replaces `e`. -/
def expandRow : Row (BitVec w) → Row (BitVec w) → Row (BitVec w)
  | ⟨e0, e1, e2, e3, e4, e5, e6, e7⟩, o =>
    let temp := e0
    let e0 := o.w0 + e3
    let e3 := o.w3 + e1
    let e1 := o.w1 + e2
    let e2 := o.w2 + temp
    let temp := e4
    let e4 := o.w4 + e7
    let e7 := o.w7 + e6
    let e6 := o.w6 + e5
    let e5 := o.w5 + temp
    ⟨e0, e1, e2, e3, e4, e5, e6, e7⟩

def msgExpEven (i_state : Internal w) : Internal w :=
  { i_state with
    submsgEL := expandRow i_state.submsgEL i_state.submsgOL
    submsgER := expandRow i_state.submsgER i_state.submsgOR }

def msgExpOdd (i_state : Internal w) : Internal w :=
  { i_state with
    submsgOL := expandRow i_state.submsgOL i_state.submsgEL
    submsgOR := expandRow i_state.submsgOR i_state.submsgER }

def msgAddEven (cv : Chaining w) (i_state : Internal w) : Chaining w :=
  ⟨cv.l.zipWith (· ^^^ ·) i_state.submsgEL, cv.r.zipWith (· ^^^ ·) i_state.submsgER⟩

def msgAddOdd (cv : Chaining w) (i_state : Internal w) : Chaining w :=
  ⟨cv.l.zipWith (· ^^^ ·) i_state.submsgOL, cv.r.zipWith (· ^^^ ·) i_state.submsgOR⟩

def addBlk (cv_l cv_r : Row (BitVec w)) : Row (BitVec w) := cv_l.zipWith (· + ·) cv_r

def rotateBlk (cv : Row (BitVec w)) (rot_value : ℕ) : Row (BitVec w) :=
  cv.map fun x => x.rotateLeft rot_value

def xorWithConst (cv_l const_v : Row (BitVec w)) : Row (BitVec w) :=
  cv_l.zipWith (· ^^^ ·) const_v

/-- The words that the sources leave out have rotation 0. -/
def rotateMsgGamma (gamma : Row ℕ) (cv_r : Row (BitVec w)) : Row (BitVec w) :=
  cv_r.zipWith (fun x rot => x.rotateLeft rot) gamma

def wordPerm : Chaining w → Chaining w
  | ⟨⟨l0, l1, l2, l3, l4, l5, l6, l7⟩, ⟨r0, r1, r2, r3, r4, r5, r6, r7⟩⟩ =>
    let temp := l0
    let l0 := l6
    let l6 := r6
    let r6 := r2
    let r2 := l1
    let l1 := l4
    let l4 := r4
    let r4 := r0
    let r0 := l2
    let l2 := l5
    let l5 := r7
    let r7 := r1
    let r1 := temp
    let temp := l3
    let l3 := l7
    let l7 := r5
    let r5 := r3
    let r3 := temp
    ⟨⟨l0, l1, l2, l3, l4, l5, l6, l7⟩, ⟨r0, r1, r2, r3, r4, r5, r6, r7⟩⟩

def mix (gamma : Row ℕ) (cv : Chaining w) (const_v : Row (BitVec w)) (rot_alpha rot_beta : ℕ) :
    Chaining w :=
  let cv_l := addBlk cv.l cv.r
  let cv_l := rotateBlk cv_l rot_alpha
  let cv_l := xorWithConst cv_l const_v
  let cv_r := addBlk cv.r cv_l
  let cv_r := rotateBlk cv_r rot_beta
  let cv_l := addBlk cv_l cv_r
  ⟨cv_l, rotateMsgGamma gamma cv_r⟩

/-- The constants of a file; its table is the one that `GenStepConstants` fills. -/
structure Constants (w : ℕ) where
  /-- Half of `NUM_STEPS`. -/
  pairs : ℕ
  evenAlpha : ℕ
  evenBeta : ℕ
  oddAlpha : ℕ
  oddBeta : ℕ
  gamma : Row ℕ
  gStepConstants : List (BitVec w)
  pairs_pos : 0 < pairs
  length_constants : gStepConstants.length = 8 * (2 * pairs)
  generated : ∀ i < 8 * (2 * pairs) - 8, gStepConstants.getD (i + 8) 0 =
    (gStepConstants.getD i 0).rotateLeft 8 + gStepConstants.getD i 0

def loadSc (c : Constants w) (i : ℕ) : Row (BitVec w) := Row.load (c.gStepConstants.getD · 0) i

/-- Two steps without a message: a turn of the loop in `lsh256_init` and `lsh512_init`. -/
def mixPair (c : Constants w) (i : ℕ) (cv : Chaining w) : Chaining w :=
  let cv := wordPerm (mix c.gamma cv (loadSc c (16 * i)) c.evenAlpha c.evenBeta)
  wordPerm (mix c.gamma cv (loadSc c (16 * i + 8)) c.oddAlpha c.oddBeta)

/-- A turn of the loop in `compress`. -/
def stepPair (c : Constants w) (s : Chaining w × Internal w) (i : ℕ) : Chaining w × Internal w :=
  let (cv, i_state) := s
  let i_state := msgExpEven i_state
  let cv := msgAddEven cv i_state
  let cv := wordPerm (mix c.gamma cv (loadSc c (16 * i)) c.evenAlpha c.evenBeta)
  let i_state := msgExpOdd i_state
  let cv := msgAddOdd cv i_state
  (wordPerm (mix c.gamma cv (loadSc c (16 * i + 8)) c.oddAlpha c.oddBeta), i_state)

def compress (c : Constants w) (cv : Chaining w) (pdMsgBlk : Bytes) : Chaining w :=
  let i_state := loadMsgBlk w pdMsgBlk
  let cv := msgAddEven cv i_state
  let cv := wordPerm (mix c.gamma cv (loadSc c 0) c.evenAlpha c.evenBeta)
  let cv := msgAddOdd cv i_state
  let cv := wordPerm (mix c.gamma cv (loadSc c 8) c.oddAlpha c.oddBeta)
  let (cv, i_state) := (List.range' 1 (c.pairs - 1)).foldl (stepPair c) (cv, i_state)
  msgAddEven cv (msgExpEven i_state)

def constants256 : Constants 32 where
  pairs := 13
  evenAlpha := 29
  evenBeta := 1
  oddAlpha := 5
  oddBeta := 17
  gamma := ⟨0, 8, 16, 24, 24, 16, 8, 0⟩
  gStepConstants := [
    0x917caf90, 0x6c1b10a2, 0x6f352943, 0xcf778243, 0x2ceb7472, 0x29e96ff2, 0x8a9ba428, 0x2eeb2642,
    0x0e2c4021, 0x872bb30e, 0xa45e6cb2, 0x46f9c612, 0x185fe69e, 0x1359621b, 0x263fccb2, 0x1a116870,
    0x3a6c612f, 0xb2dec195, 0x02cb1f56, 0x40bfd858, 0x784684b6, 0x6cbb7d2e, 0x660c7ed8, 0x2b79d88a,
    0xa6cd9069, 0x91a05747, 0xcdea7558, 0x00983098, 0xbecb3b2e, 0x2838ab9a, 0x728b573e, 0xa55262b5,
    0x745dfa0f, 0x31f79ed8, 0xb85fce25, 0x98c8c898, 0x8a0669ec, 0x60e445c2, 0xfde295b0, 0xf7b5185a,
    0xd2580983, 0x29967709, 0x182df3dd, 0x61916130, 0x90705676, 0x452a0822, 0xe07846ad, 0xaccd7351,
    0x2a618d55, 0xc00d8032, 0x4621d0f5, 0xf2f29191, 0x00c6cd06, 0x6f322a67, 0x58bef48d, 0x7a40c4fd,
    0x8beee27f, 0xcd8db2f2, 0x67f2c63b, 0xe5842383, 0xc793d306, 0xa15c91d6, 0x17b381e5, 0xbb05c277,
    0x7ad1620a, 0x5b40a5bf, 0x5ab901a2, 0x69a7a768, 0x5b66d9cd, 0xfdee6877, 0xcb3566fc, 0xc0c83a32,
    0x4c336c84, 0x9be6651a, 0x13baa3fc, 0x114f0fd1, 0xc240a728, 0xec56e074, 0x009c63c7, 0x89026cf2,
    0x7f9ff0d0, 0x824b7fb5, 0xce5ea00f, 0x605ee0e2, 0x02e7cfea, 0x43375560, 0x9d002ac7, 0x8b6f5f7b,
    0x1f90c14f, 0xcdcb3537, 0x2cfeafdd, 0xbf3fc342, 0xeab7b9ec, 0x7a8cb5a3, 0x9d2af264, 0xfacedb06,
    0xb052106e, 0x99006d04, 0x2bae8d09, 0xff030601, 0xa271a6d6, 0x0742591d, 0xc81d5701, 0xc9a9e200,
    0x02627f1e, 0x996d719d, 0xda3b9634, 0x02090800, 0x14187d78, 0x499b7624, 0xe57458c9, 0x738be2c9,
    0x64e19d20, 0x06df0f36, 0x15d1cb0e, 0x0b110802, 0x2c95f58c, 0xe5119a6d, 0x59cd22ae, 0xff6eac3c,
    0x467ebd84, 0xe5ee453c, 0xe79cd923, 0x1c190a0d, 0xc28b81b8, 0xf6ac0852, 0x26efd107, 0x6e1ae93b,
    0xc53c41ca, 0xd4338221, 0x8475fd0a, 0x35231729, 0x4e0d3a7a, 0xa2b45b48, 0x16c0d82d, 0x890424a9,
    0x017e0c8f, 0x07b5a3f5, 0xfa73078e, 0x583a405e, 0x5b47b4c8, 0x570fa3ea, 0xd7990543, 0x8d28ce32,
    0x7f8a9b90, 0xbd5998fc, 0x6d7a9688, 0x927a9eb6, 0xa2fc7d23, 0x66b38e41, 0x709e491a, 0xb5f700bf,
    0x0a262c0f, 0x16f295b9, 0xe8111ef5, 0x0d195548, 0x9f79a0c5, 0x1a41cfa7, 0x0ee7638a, 0xacf7c074,
    0x30523b19, 0x09884ecf, 0xf93014dd, 0x266e9d55, 0x191a6664, 0x5c1176c1, 0xf64aed98, 0xa4b83520,
    0x828d5449, 0x91d71dd8, 0x2944f2d6, 0x950bf27b, 0x3380ca7d, 0x6d88381d, 0x4138868e, 0x5ced55c4,
    0x0fe19dcb, 0x68f4f669, 0x6e37c8ff, 0xa0fe6e10, 0xb44b47b0, 0xf5c0558a, 0x79bf14cf, 0x4a431a20,
    0xf17f68da, 0x5deb5fd1, 0xa600c86d, 0x9f6c7eb0, 0xff92f864, 0xb615e07f, 0x38d3e448, 0x8d5d3a6a,
    0x70e843cb, 0x494b312e, 0xa6c93613, 0x0beb2f4f, 0x928b5d63, 0xcbf66035, 0x0cb82c80, 0xea97a4f7,
    0x592c0f3b, 0x947c5f77, 0x6fff49b9, 0xf71a7e5a, 0x1de8c0f5, 0xc2569600, 0xc4e4ac8c, 0x823c9ce1]
  pairs_pos := by decide
  length_constants := by decide +kernel
  generated := by decide +kernel

def constants512 : Constants 64 where
  pairs := 14
  evenAlpha := 23
  evenBeta := 59
  oddAlpha := 7
  oddBeta := 3
  gamma := ⟨0, 16, 32, 48, 8, 24, 40, 56⟩
  gStepConstants := [
    0x97884283c938982a, 0xba1fca93533e2355, 0xc519a2e87aeb1c03, 0x9a0fc95462af17b1,
    0xfc3dda8ab019a82b, 0x02825d079a895407, 0x79f2d0a7ee06a6f7, 0xd76d15eed9fdf5fe,
    0x1fcac64d01d0c2c1, 0xd9ea5de69161790f, 0xdebc8b6366071fc8, 0xa9d91db711c6c94b,
    0x3a18653ac9c1d427, 0x84df64a223dd5b09, 0x6cc37895f4ad9e70, 0x448304c8d7f3f4d5,
    0xea91134ed29383e0, 0xc4484477f2da88e8, 0x9b47eec96d26e8a6, 0x82f6d4c8d89014f4,
    0x527da0048b95fb61, 0x644406c60138648d, 0x303c0e8aa24c0edc, 0xc787cda0cbe8ca19,
    0x7ba46221661764ca, 0x0c8cbc6acd6371ac, 0xe336b836940f8f41, 0x79cb9da168a50976,
    0xd01da49021915cb3, 0xa84accc7399cf1f1, 0x6c4a992cee5aeb0c, 0x4f556e6cb4b2e3e0,
    0x200683877d7c2f45, 0x9949273830d51db8, 0x19eeeecaa39ed124, 0x45693f0a0dae7fef,
    0xedc234b1b2ee1083, 0xf3179400d68ee399, 0xb6e3c61b4945f778, 0xa4c3db216796c42f,
    0x268a0b04f9ab7465, 0xe2705f6905f2d651, 0x08ddb96e426ff53d, 0xaea84917bc2e6f34,
    0xaff6e664a0fe9470, 0x0aab94d765727d8c, 0x9aa9e1648f3d702e, 0x689efc88fe5af3d3,
    0xb0950ffea51fd98b, 0x52cfc86ef8c92833, 0xe69727b0b2653245, 0x56f160d3ea9da3e2,
    0xa6dd4b059f93051f, 0xb6406c3cd7f00996, 0x448b45f3ccad9ec8, 0x079b8587594ec73b,
    0x45a50ea3c4f9653b, 0x22983767c1f15b85, 0x7dbed8631797782b, 0x485234be88418638,
    0x842850a5329824c5, 0xf6aca914c7f9a04c, 0xcfd139c07a4c670c, 0xa3210ce0a8160242,
    0xeab3b268be5ea080, 0xbacf9f29b34ce0a7, 0x3c973b7aaf0fa3a8, 0x9a86f346c9c7be80,
    0xac78f5d7cabcea49, 0xa355bddcc199ed42, 0xa10afa3ac6b373db, 0xc42ded88be1844e5,
    0x9e661b271cff216a, 0x8a6ec8dd002d8861, 0xd3d2b629beb34be4, 0x217a3a1091863f1a,
    0x256ecda287a733f5, 0xf9139a9e5b872fe5, 0xac0535017a274f7c, 0xf21b7646d65d2aa9,
    0x048142441c208c08, 0xf937a5dd2db5e9eb, 0xa688dfe871ff30b7, 0x9bb44aa217c5593b,
    0x943c702a2edb291a, 0x0cae38f9e2b715de, 0xb13a367ba176cc28, 0x0d91bd1d3387d49b,
    0x85c386603cac940c, 0x30dd830ae39fd5e4, 0x2f68c85a712fe85d, 0x4ffeecb9dd1e94d6,
    0xd0ac9a590a0443ae, 0xbae732dc99ccf3ea, 0xeb70b21d1842f4d9, 0x9f4eda50bb5c6fa8,
    0x4949e69ce940a091, 0x0e608dee8375ba14, 0x983122cba118458c, 0x4eeba696fbb36b25,
    0x7d46f3630e47f27e, 0xa21a0f7666c0dea4, 0x5c22cf355b37cec4, 0xee292b0c17cc1847,
    0x9330838629e131da, 0x6eee7c71f92fce22, 0xc953ee6cb95dd224, 0x3a923d92af1e9073,
    0xc43a5671563a70fb, 0xbc2985dd279f8346, 0x7ef2049093069320, 0x17543723e3e46035,
    0xc3b409b00b130c6d, 0x5d6aee6b28fdf090, 0x1d425b26172ff6ed, 0xcccfd041cdaf03ad,
    0xfe90c7c790ab6cbf, 0xe5af6304c722ca02, 0x70f695239999b39e, 0x6b8b5b07c844954c,
    0x77bdb9bb1e1f7a30, 0xc859599426ee80ed, 0x5f9d813d4726e40a, 0x9ca0120f7cb2b179,
    0x8f588f583c182cbd, 0x951267cbe9eccce7, 0x678bb8bd334d520e, 0xf6e662d00cd9e1b7,
    0x357774d93d99aaa7, 0x21b2edbb156f6eb5, 0xfd1ebe846e0aee69, 0x3cb2218c2f642b15,
    0xe7e7e7945444ea4c, 0xa77a33b5d6b9b47c, 0xf34475f0809f6075, 0xdd4932dce6bb99ad,
    0xacec4e16d74451dc, 0xd4a0a8d084de23d6, 0x1bdd42f278f95866, 0xeed3adbb938f4051,
    0xcfcf7be8992f3733, 0x21ade98c906e3123, 0x37ba66711fffd668, 0x267c0fc3a255478a,
    0x993a64ee1b962e88, 0x754979556301faaa, 0xf920356b7251be81, 0xc281694f22cf923f,
    0x9f4b6481c8666b02, 0xcf97761cfe9f5444, 0xf220d7911fd63e9f, 0xa28bd365f79cd1b0,
    0xd39f5309b1c4b721, 0xbec2ceb864fca51f, 0x1955a0ddc410407a, 0x43eab871f261d201,
    0xeaafe64a2ed16da1, 0x670d931b9df39913, 0x12f868b0f614de91, 0x2e5f395d946e8252,
    0x72f25cbb767bd8f4, 0x8191871d61a1c4dd, 0x6ef67ea1d450ba93, 0x2ea32a645433d344,
    0x9a963079003f0f8b, 0x74a0aeb9918cac7a, 0x0b6119a70af36fa3, 0x8d9896f202f0d480,
    0x654f1831f254cd66, 0x1318a47f0366a25e, 0x65752076250b4e01, 0xd1cd8eb888071772,
    0x30c6a9793f4e9b25, 0x154f684b1e3926ee, 0x6c7ac0b1fe6312ae, 0x262f88f4f3c5550d,
    0xb4674a24472233cb, 0x2bbd23826a090071, 0xda95969b30594f66, 0x9f5c47408f1e8a43,
    0xf77022b88de9c055, 0x64b7b36957601503, 0xe73b72b06175c11a, 0x55b87de8b91a6233,
    0x1bb16e6b6955ff7f, 0xe8e0a5ec7309719c, 0x702c31cb89a8b640, 0xfba387cfada8cde2,
    0x6792db4677aa164c, 0x1c6b1cc0b7751867, 0x22ae2311d736dc01, 0x0e3666a1d37c9588,
    0xcd1fd9d4bf557e9a, 0xc986925f7c7b0e84, 0x9c5dfd55325ef6b0, 0x9f2b577d5676b0dd,
    0xfa6e21be21c062b3, 0x8787dd782c8d7f83, 0xd0d134e90e12dd23, 0x449d087550121d96,
    0xecf9ae9414d41967, 0x5018f1dbf789934d, 0xfa5b52879155a74c, 0xca82d4d3cd278e7c,
    0x688fdfdfe22316ad, 0x0f6555a4ba0d030a, 0xa2061df720f000f3, 0xe1a57dc5622fb3da,
    0xe6a842a8e8ed8153, 0x690acdd3811ce09d, 0x55adda18e6fcf446, 0x4d57a8a0f4b60b46,
    0xf86fbfc20539c415, 0x74bafa5ec7100d19, 0xa824151810f0f495, 0x8723432791e38ebb,
    0x8eeaeb91d66ed539, 0x73d8a1549dfd7e06, 0x0387f2ffe3f13a9b, 0xa5004995aac15193,
    0x682f81c73efdda0d, 0x2fb55925d71d268d, 0xcc392d2901e58a3d, 0xaa666ab975724a42]
  pairs_pos := by decide
  length_constants := by decide +kernel
  generated := by decide +kernel

def Chaining.words (cv : Chaining w) : Words w := (cv.l.toList ++ cv.r.toList).get

def Internal.even (i_state : Internal w) : Chaining w := ⟨i_state.submsgEL, i_state.submsgER⟩

def Internal.odd (i_state : Internal w) : Chaining w := ⟨i_state.submsgOL, i_state.submsgOR⟩

def Constants.rounds (c : Constants w) : Rounds w where
  steps := 2 * c.pairs
  alpha j := if j % 2 = 0 then c.evenAlpha else c.oddAlpha
  beta j := if j % 2 = 0 then c.evenBeta else c.oddBeta
  gamma := c.gamma.get
  constants := (loadSc c 0).get

section Refinement
variable {c : Constants w}

theorem get_loadSc (c : Constants w) (i : ℕ) (l : Fin 8) :
    (loadSc c i).get l = c.gStepConstants.getD (i + l) 0 := by
  fin_cases l <;> rfl

/-- The table has the constants of every step. -/
theorem stepConstant_eq {j : ℕ} (hj : j < 2 * c.pairs) :
    stepConstant c.rounds j = (loadSc c (8 * j)).get := by
  induction j with
  | zero => rfl
  | succ j ih =>
    funext l
    have hl := l.isLt
    have hnext := c.generated (8 * j + l) (by omega)
    simp only [stepConstant, ih (by omega), get_loadSc]
    rw [← hnext]
    congr 1
    ring

theorem words_wordPerm (cv : Chaining w) : (wordPerm cv).words = fun l => cv.words (sigma l) := by
  funext l
  fin_cases l <;> rfl

theorem words_xor (a b : Chaining w) :
    Chaining.words ⟨a.l.zipWith (· ^^^ ·) b.l, a.r.zipWith (· ^^^ ·) b.r⟩ =
      fun l => a.words l ^^^ b.words l := by
  funext l
  fin_cases l <;> rfl

theorem words_expand (e o : Chaining w) :
    Chaining.words ⟨expandRow e.l o.l, expandRow e.r o.r⟩ =
      fun l => o.words l + e.words (tau l) := by
  funext l
  fin_cases l <;> rfl

theorem words_mix (j : ℕ) (cv : Chaining w) {sc : Row (BitVec w)}
    (hsc : stepConstant c.rounds j = sc.get) :
    (mix c.gamma cv sc (c.rounds.alpha j) (c.rounds.beta j)).words =
      mixHalves c.rounds j cv.words := by
  have hword : ∀ l x y, mixWords c.rounds j l x y =
      (let v := (x + y).rotateLeft (c.rounds.alpha j) ^^^ sc.get l
       let u := (y + v).rotateLeft (c.rounds.beta j)
       (v + u, u.rotateLeft (c.gamma.get l))) := by
    intro l x y
    rw [← hsc]
    rfl
  funext l
  simp only [mixHalves, hword]
  fin_cases l <;> rfl

theorem words_load (f : ℕ → BitVec w) (k : ℕ) :
    Chaining.words ⟨Row.load f k, Row.load f (k + 8)⟩ = fun l : Fin 16 => f (k + l) := by
  funext l
  fin_cases l <;> rfl

@[simp] theorem rounds_even (c : Constants w) (i : ℕ) :
    c.rounds.alpha (2 * i) = c.evenAlpha ∧ c.rounds.beta (2 * i) = c.evenBeta := by
  simp [Constants.rounds]

@[simp] theorem rounds_odd (c : Constants w) (i : ℕ) :
    c.rounds.alpha (2 * i + 1) = c.oddAlpha ∧ c.rounds.beta (2 * i + 1) = c.oddBeta := by
  simp [Constants.rounds]

theorem words_msgAddEven (cv : Chaining w) (i_state : Internal w) :
    (msgAddEven cv i_state).words = fun l => cv.words l ^^^ i_state.even.words l :=
  words_xor cv i_state.even

theorem words_msgAddOdd (cv : Chaining w) (i_state : Internal w) :
    (msgAddOdd cv i_state).words = fun l => cv.words l ^^^ i_state.odd.words l :=
  words_xor cv i_state.odd

theorem words_mixPerm {j : ℕ} (hj : j < 2 * c.pairs) (cv : Chaining w) :
    (wordPerm (mix c.gamma cv (loadSc c (8 * j)) (c.rounds.alpha j) (c.rounds.beta j))).words =
      fun l => mixHalves c.rounds j cv.words (sigma l) := by
  rw [words_wordPerm, words_mix j cv (stepConstant_eq hj)]

theorem words_evenStep {i : ℕ} (hi : i < c.pairs) (cv : Chaining w) (i_state : Internal w) :
    (wordPerm (mix c.gamma (msgAddEven cv i_state) (loadSc c (16 * i)) c.evenAlpha
      c.evenBeta)).words = step c.rounds (2 * i) cv.words i_state.even.words := by
  have hstep := words_mixPerm (show 2 * i < 2 * c.pairs by omega) (msgAddEven cv i_state)
  rw [(rounds_even c i).1, (rounds_even c i).2, ← Nat.mul_assoc] at hstep
  rw [hstep, words_msgAddEven]
  rfl

theorem words_oddStep {i : ℕ} (hi : i < c.pairs) (cv : Chaining w) (i_state : Internal w) :
    (wordPerm (mix c.gamma (msgAddOdd cv i_state) (loadSc c (16 * i + 8)) c.oddAlpha
      c.oddBeta)).words = step c.rounds (2 * i + 1) cv.words i_state.odd.words := by
  have hstep := words_mixPerm (show 2 * i + 1 < 2 * c.pairs by omega) (msgAddOdd cv i_state)
  rw [(rounds_odd c i).1, (rounds_odd c i).2, Nat.mul_succ, ← Nat.mul_assoc] at hstep
  rw [hstep, words_msgAddOdd]
  rfl

theorem words_msgExpEven (i_state : Internal w) : (msgExpEven i_state).even.words =
    fun l => i_state.odd.words l + i_state.even.words (tau l) :=
  words_expand i_state.even i_state.odd

theorem words_msgExpOdd (i_state : Internal w) : (msgExpOdd i_state).odd.words =
    fun l => i_state.even.words l + i_state.odd.words (tau l) :=
  words_expand i_state.odd i_state.even

/-- Behind the steps `2 * k` and `2 * k + 1`: the buffers hold their sub-messages. -/
structure Reached (c : Constants w) (m : Words w × Words w) (cv : Words w) (k : ℕ)
    (s : Chaining w × Internal w) : Prop where
  even : s.2.even.words = subMessage m (2 * k)
  odd : s.2.odd.words = subMessage m (2 * k + 1)
  cv : s.1.words = stepsOf c.rounds (subMessage m) (2 * k + 2) cv

theorem Reached.next {m : Words w × Words w} {cv : Words w} {k : ℕ} {s : Chaining w × Internal w}
    (h : Reached c m cv k s) (hk : k + 1 < c.pairs) :
    Reached c m cv (k + 1) (stepPair c s (k + 1)) := by
  have heven : (msgExpEven s.2).even.words = subMessage m (2 * (k + 1)) := by
    rw [words_msgExpEven, h.odd, h.even]
    rfl
  have hodd : (msgExpOdd (msgExpEven s.2)).odd.words = subMessage m (2 * (k + 1) + 1) := by
    rw [words_msgExpOdd, heven]
    exact congrArg (fun t l => subMessage m (2 * (k + 1)) l + t (tau l)) h.odd
  refine ⟨heven, hodd, ?_⟩
  rw [stepsOf_two]
  simp only [stepPair]
  rw [words_oddStep hk, words_evenStep hk, h.cv, heven, hodd]
  rfl

theorem reached_loop {m : Words w × Words w} {cv : Words w} {s : Chaining w × Internal w}
    (h : Reached c m cv 0 s) {n : ℕ} (hn : n < c.pairs) :
    Reached c m cv n ((List.range' 1 n).foldl (stepPair c) s) := by
  induction n with
  | zero => exact h
  | succ n ih =>
    rw [List.range'_1_concat, List.foldl_append, List.foldl_cons, List.foldl_nil, Nat.add_comm 1 n]
    exact (ih (by omega)).next hn

/-- The code compresses as the function does. -/
theorem words_compress (c : Constants w) (cv : Chaining w) (block : Bytes) :
    (compress c cv block).words = LshFunction.compress c.rounds cv.words (blockWords block) := by
  let i_state := loadMsgBlk w block
  let cv₁ := wordPerm (mix c.gamma (msgAddEven cv i_state) (loadSc c 0) c.evenAlpha c.evenBeta)
  let cv₂ := wordPerm (mix c.gamma (msgAddOdd cv₁ i_state) (loadSc c 8) c.oddAlpha c.oddBeta)
  let s := (List.range' 1 (c.pairs - 1)).foldl (stepPair c) (cv₂, i_state)
  have heven : i_state.even.words = (blockWords block).1 := by
    refine (words_load (leWord w block) 0).trans ?_
    simp [blockWords]
  have hodd : i_state.odd.words = (blockWords block).2 := words_load (leWord w block) 16
  have hstart : Reached c (blockWords block) cv.words 0 (cv₂, i_state) := by
    refine ⟨heven, hodd, ?_⟩
    have hfirst : cv₁.words = _ := words_evenStep c.pairs_pos cv i_state
    have hsecond : cv₂.words = _ := words_oddStep c.pairs_pos cv₁ i_state
    rw [hsecond, hfirst, heven, hodd, stepsOf_two]
    rfl
  have hend : Reached c (blockWords block) cv.words (c.pairs - 1) s :=
    reached_loop hstart (Nat.sub_lt c.pairs_pos one_pos)
  have hlast : 2 * (c.pairs - 1) + 2 = c.rounds.steps := by
    have := c.pairs_pos
    simp only [Constants.rounds]
    omega
  have hsub : (msgExpEven s.2).even.words = subMessage (blockWords block) c.rounds.steps := by
    rw [words_msgExpEven, hend.odd, hend.even, ← hlast]
    rfl
  have hcompress : compress c cv block = msgAddEven s.1 (msgExpEven s.2) := rfl
  rw [hcompress, words_msgAddEven, hend.cv, hsub, hlast]
  rfl

/-- The chaining value that the loop without messages makes. -/
theorem words_mixPairs (c : Constants w) (cv : Chaining w) {n : ℕ} (hn : n ≤ c.pairs) :
    ((List.range n).foldl (fun cv i => mixPair c i cv) cv).words =
      stepsOf c.rounds (fun _ _ => 0) (2 * n) cv.words := by
  induction n with
  | zero => rfl
  | succ n ih =>
    have hzero : ∀ j (t : Words w), step c.rounds j t (fun _ => 0) =
        fun l => mixHalves c.rounds j t (sigma l) := by
      intro j t
      funext l
      simp [step]
    have heven := words_mixPerm (show 2 * n < 2 * c.pairs by omega)
      ((List.range n).foldl (fun cv i => mixPair c i cv) cv)
    have hodd := fun cv : Chaining w =>
      words_mixPerm (c := c) (show 2 * n + 1 < 2 * c.pairs by omega) cv
    rw [(rounds_even c n).1, (rounds_even c n).2, ← Nat.mul_assoc] at heven
    simp only [(rounds_odd c n).1, (rounds_odd c n).2, Nat.mul_succ, ← Nat.mul_assoc] at hodd
    rw [List.range_succ, List.foldl_append, List.foldl_cons, List.foldl_nil, Nat.mul_succ,
      stepsOf_two, hzero, hzero, ← ih (by omega), ← heven]
    exact hodd _

end Refinement

end ModbusSecurity.LshCompression
