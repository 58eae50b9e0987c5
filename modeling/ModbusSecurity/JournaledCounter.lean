import Mathlib.Data.List.Chain
import Mathlib.Algebra.BigOperators.Group.List.Basic
import Mathlib.Algebra.GroupWithZero.Nat

/-! # A wrapping counter with a journal

A counter hands out consecutive ranges of `w`-bit numbers. Its value stands in memory, which
may be lost or loaded from the journal, and in the journal, which is written at each range.
`none` stands for a counter that is not set. -/
namespace ModbusSecurity.JournaledCounter
variable {w : ℕ}

/-- A first number, and how many there are. -/
abbrev Range (w : ℕ) := BitVec w × ℕ

def Range.stop (r : Range w) : BitVec w := r.1 + BitVec.ofNat w r.2

def Within (r : Range w) (x : BitVec w) : Prop := (x - r.1).toNat < r.2

def Apart (r s : Range w) : Prop := ∀ x, Within r x → ¬ Within s x

def Consecutive (rs : List (Range w)) : Prop := rs.IsChain fun a b => b.1 = a.stop

def total (rs : List (Range w)) : ℕ := (rs.map Prod.snd).sum

theorem within_ofNat {r : Range w} {x : ℕ} (hx : r.1.toNat ≤ x) (hx' : x < r.1.toNat + r.2)
    (hlap : r.2 ≤ 2 ^ w) : Within r (BitVec.ofNat w x) := by
  have hsub : BitVec.ofNat w x - r.1 = BitVec.ofNat w (x - r.1.toNat) := by
    apply BitVec.eq_of_toNat_eq
    have hr := r.1.isLt
    rw [BitVec.toNat_sub, BitVec.toNat_ofNat, BitVec.toNat_ofNat, Nat.add_mod_mod,
      show 2 ^ w - r.1.toNat + x = 2 ^ w + (x - r.1.toNat) by omega, Nat.add_mod_left]
  rw [Within, hsub, BitVec.toNat_ofNat, Nat.mod_eq_of_lt (by omega)]
  omega

/-- Where the ranges behind `r` start, counted from the end of `r`. -/
private theorem offsets {r : Range w} {rs : List (Range w)} (h : Consecutive (r :: rs)) :
    ∀ s ∈ rs, ∃ d, s.1 = r.1 + BitVec.ofNat w (r.2 + d) ∧ d + s.2 ≤ total rs := by
  induction rs generalizing r with
  | nil => simp
  | cons t rs ih =>
    obtain ⟨ht, hrest⟩ := List.isChain_cons_cons.mp h
    intro s hs
    simp only [total, List.map_cons, List.sum_cons] at ih ⊢
    rcases List.mem_cons.mp hs with rfl | hs
    · exact ⟨0, ht, by omega⟩
    · obtain ⟨d, hd, hle⟩ := ih hrest s hs
      refine ⟨t.2 + d, ?_, by omega⟩
      rw [hd, ht, Range.stop, BitVec.ofNat_add r.2, BitVec.add_assoc]

/-- Up to one lap, consecutive ranges have no number in common. -/
theorem apart_of_consecutive {rs : List (Range w)} (h : Consecutive rs) (hlap : total rs ≤ 2 ^ w) :
    rs.Pairwise Apart := by
  induction rs with
  | nil => exact .nil
  | cons r rs ih =>
    simp only [total, List.map_cons, List.sum_cons] at hlap
    refine .cons (fun s hs x hr hsx => ?_) (ih h.tail (by simp only [total]; omega))
    obtain ⟨d, hd, hle⟩ := offsets h s hs
    simp only [total] at hle
    have hx : x - s.1 + s.1 = x := BitVec.sub_add_cancel x s.1
    have hi : x - r.1 = BitVec.ofNat w (r.2 + d) + (x - s.1) := by
      generalize x - s.1 = j at hx
      rw [← hx, hd, BitVec.add_comm r.1, ← BitVec.add_assoc, BitVec.add_sub_cancel, BitVec.add_comm]
    have hnat := congrArg BitVec.toNat hi
    rw [BitVec.toNat_add, BitVec.toNat_ofNat, Nat.mod_add_mod] at hnat
    simp only [Within] at hr hsx
    rw [Nat.mod_eq_of_lt (by omega)] at hnat
    omega

structure Ledger (w : ℕ) where
  memory : Option (BitVec w)
  journal : Option (BitVec w)
  taken : List (Range w)

/-- The end of the last range. -/
def Ledger.stop (l : Ledger w) : Option (BitVec w) := l.taken.getLast?.map Range.stop

/-- The journal is where the last range ends, and so is the memory if it is set. -/
structure Ledger.Sound (l : Ledger w) : Prop where
  consecutive : Consecutive l.taken
  recorded : ∀ v, l.stop = some v → l.journal = some v
  agrees : ∀ v u, l.stop = some v → l.memory = some u → u = v

/-- What the journal has, the memory has. -/
def Ledger.Covered (l : Ledger w) : Prop := l.journal.isSome → l.memory.isSome

section Steps
variable {l : Ledger w}

theorem sound_nil (memory journal : Option (BitVec w)) : Ledger.Sound ⟨memory, journal, []⟩ :=
  ⟨.nil, by simp [Ledger.stop], by simp [Ledger.stop]⟩

theorem stop_snoc (memory journal : Option (BitVec w)) (rs : List (Range w)) (r : Range w) :
    Ledger.stop ⟨memory, journal, rs ++ [r]⟩ = some r.stop := by simp [Ledger.stop]

theorem memory_of_covered (h : l.Sound) (hcov : l.Covered) {v : BitVec w} (hv : l.stop = some v) :
    l.memory = some v := by
  obtain ⟨u, hu⟩ := Option.isSome_iff_exists.mp (hcov (by rw [h.recorded v hv]; rfl))
  rw [hu, h.agrees v u hv hu]

/-- A range is taken and written down. -/
theorem Ledger.Sound.take (h : l.Sound) (hcov : l.Covered) {value : BitVec w}
    (hvalue : ∀ u, l.memory = some u → value = u) (k : ℕ) :
    Ledger.Sound ⟨some (value + BitVec.ofNat w k), some (value + BitVec.ofNat w k),
      l.taken ++ [(value, k)]⟩ := by
  refine ⟨?_, fun v hv => ?_, fun v u hv hu => ?_⟩
  · refine List.isChain_append.mpr ⟨h.consecutive, List.isChain_singleton _, ?_⟩
    intro a ha b hb
    obtain rfl : (value, k) = b := by simpa using hb
    have hstop : l.stop = some a.stop := by simp [Ledger.stop, show l.taken.getLast? = some a from ha]
    exact hvalue _ (memory_of_covered h hcov hstop)
  · rw [stop_snoc] at hv
    exact hv
  · rw [stop_snoc] at hv
    exact Option.some.inj (hu.symm.trans hv)

/-- The journal is written from memory. -/
theorem Ledger.Sound.rewrite (h : l.Sound) (hcov : l.Covered) :
    Ledger.Sound ⟨l.memory, l.memory, l.taken⟩ :=
  ⟨h.consecutive, fun _ hv => memory_of_covered h hcov hv, h.agrees⟩

/-- The memory is loaded; it may be anything where the journal has nothing. -/
theorem Ledger.Sound.load (h : l.Sound) {memory : Option (BitVec w)}
    (hload : ∀ v, l.journal = some v → memory = some v) :
    Ledger.Sound ⟨memory, l.journal, l.taken⟩ := by
  refine ⟨h.consecutive, h.recorded, fun v u hv hu => ?_⟩
  exact Option.some.inj (hu.symm.trans (hload v (h.recorded v hv)))

/-- The memory is lost. -/
theorem Ledger.Sound.forget (h : l.Sound) : Ledger.Sound ⟨none, l.journal, l.taken⟩ :=
  ⟨h.consecutive, h.recorded, fun _ _ _ hu => by cases hu⟩

end Steps
end ModbusSecurity.JournaledCounter
