import Mathlib.Data.Fin.VecNotation
import Mathlib.Data.Fin.Tuple.Basic
import ModbusSecurity.BlockStreams

/-! # The LSH hash functions

What the functions are for: a chaining value of sixteen words takes one message block after
another. The word width, the number of steps and the constants are parameters. -/
namespace ModbusSecurity.LshFunction
open ByteStrings BlockStreams
variable {w : ℕ}

abbrev Words (w : ℕ) := Fin 16 → BitVec w

/-- The rotations of step `j` and the constants of step 0. -/
structure Rounds (w : ℕ) where
  steps : ℕ
  alpha : ℕ → ℕ
  beta : ℕ → ℕ
  gamma : Fin 8 → ℕ
  constants : Fin 8 → BitVec w

/-- The word of the last but one sub-message that goes into each word of the next one. -/
def tau : Fin 16 → Fin 16 := ![3, 2, 0, 1, 7, 4, 5, 6, 11, 10, 8, 9, 15, 12, 13, 14]

/-- Where each word comes from at the end of a step. -/
def sigma : Fin 16 → Fin 16 := ![6, 4, 5, 7, 12, 15, 14, 13, 2, 0, 1, 3, 8, 11, 10, 9]

/-- The two halves of the block, and then each sub-message from the two before it. -/
def subMessage (m : Words w × Words w) : ℕ → Words w
  | 0 => m.1
  | 1 => m.2
  | j + 2 => fun l => subMessage m (j + 1) l + subMessage m j (tau l)

def stepConstant (r : Rounds w) : ℕ → Fin 8 → BitVec w
  | 0 => r.constants
  | j + 1 => fun l => (stepConstant r j l).rotateLeft 8 + stepConstant r j l

/-- Word `l` of the left half against word `l` of the right half. -/
def mixWords (r : Rounds w) (j : ℕ) (l : Fin 8) (x y : BitVec w) : BitVec w × BitVec w :=
  let v := (x + y).rotateLeft (r.alpha j) ^^^ stepConstant r j l
  let u := (y + v).rotateLeft (r.beta j)
  (v + u, u.rotateLeft (r.gamma l))

def mixHalves (r : Rounds w) (j : ℕ) (t : Words w) : Words w :=
  @Fin.append 8 8 _ (fun l => (mixWords r j l (t (l.castAdd 8)) (t (l.natAdd 8))).1)
    (fun l => (mixWords r j l (t (l.castAdd 8)) (t (l.natAdd 8))).2)

def step (r : Rounds w) (j : ℕ) (cv m : Words w) : Words w :=
  fun l => mixHalves r j (fun l => cv l ^^^ m l) (sigma l)

/-- The first `k` steps. -/
def stepsOf (r : Rounds w) (m : ℕ → Words w) (k : ℕ) (cv : Words w) : Words w :=
  (List.range k).foldl (fun cv j => step r j cv (m j)) cv

def compress (r : Rounds w) (cv : Words w) (m : Words w × Words w) : Words w :=
  fun l => stepsOf r (subMessage m) r.steps cv l ^^^ subMessage m r.steps l

theorem stepsOf_succ (r : Rounds w) (m : ℕ → Words w) (k : ℕ) (cv : Words w) :
    stepsOf r m (k + 1) cv = step r k (stepsOf r m k cv) (m k) := by
  rw [stepsOf, stepsOf, List.range_succ, List.foldl_append, List.foldl_cons, List.foldl_nil]

theorem stepsOf_two (r : Rounds w) (m : ℕ → Words w) (k : ℕ) (cv : Words w) :
    stepsOf r m (k + 2) cv =
      step r (k + 1) (step r k (stepsOf r m k cv) (m k)) (m (k + 1)) := by
  rw [stepsOf_succ, stepsOf_succ]

/-- Word `i` of a byte string, lowest byte first. -/
def leWord (w : ℕ) (bs : Bytes) (i : ℕ) : BitVec w :=
  BitVec.ofNat w (beValue ((bs.drop (w / 8 * i)).take (w / 8)).reverse)

def leBytes (x : BitVec w) : Bytes := (beBytes (w / 8) x.toNat).reverse

@[simp] theorem length_leBytes (x : BitVec w) : (leBytes x).length = w / 8 := by simp [leBytes]

def blockWords (bs : Bytes) : Words w × Words w :=
  (fun l => leWord w bs l, fun l => leWord w bs (16 + l))

/-- The chaining value in front of the first block. -/
def initial (r : Rounds w) (maxBytes hashBits : ℕ) : Words w :=
  stepsOf r (fun _ _ => 0) r.steps
    (fun l => if l = 0 then BitVec.ofNat w maxBytes else if l = 1 then BitVec.ofNat w hashBits else 0)

/-- The left half is folded with the right half. -/
def folded (cv : Words w) : Bytes :=
  (List.finRange 8).flatMap fun l => leBytes (cv (l.castAdd 8) ^^^ cv (l.natAdd 8))

theorem length_folded (cv : Words w) : (folded cv).length = w / 8 * 8 := by
  have hwords := length_flatMap_of_length (fun l : Fin 8 =>
    length_leBytes (cv (l.castAdd 8) ^^^ cv (l.natAdd 8))) (List.finRange 8)
  rw [folded, hwords, List.length_finRange]

def compressBits (r : Rounds w) (cv : Words w) (block : List Bool) : Words w :=
  compress r cv (blockWords (bytesOf block))

def chain (r : Rounds w) (maxBytes hashBits : ℕ) (message : List Bool) : Words w :=
  hashBlocks (compressBits r) (32 * w) (initial r maxBytes hashBits) message

/-- The first `hashBits` bits. -/
def digest (r : Rounds w) (maxBytes hashBits : ℕ) (message : List Bool) : List Bool :=
  (bitsOf (folded (chain r maxBytes hashBits message))).take hashBits

end ModbusSecurity.LshFunction
