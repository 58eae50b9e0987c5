import Mathlib.Data.List.Pairwise
import Mathlib.Data.List.Sublists
import Mathlib.Algebra.BigOperators.Group.List.Basic
import Mathlib.Algebra.GroupWithZero.Nat

/-! # Ranges handed out by a counter that wraps

Items of various sizes are placed one behind the other on the number line. A counter
modulo `N` hands each item the numbers from its place modulo `N` on; the range itself does
not wrap. The question is when no number is handed out twice. -/
namespace ModbusSecurity.CyclicCounters
variable {α : Type*} (size : α → ℕ)

def total (as : List α) : ℕ := (as.map size).sum

/-- The items with their places, from `p` on. -/
def places : ℕ → List α → List (ℕ × α)
  | _, [] => []
  | p, a :: as => (p, a) :: places (p + size a) as

@[simp] theorem total_nil : total size [] = 0 := rfl

@[simp] theorem total_cons (a : α) (as : List α) : total size (a :: as) = size a + total size as := by
  simp [total]

section Places
variable {size} {p : ℕ} {as : List α}

@[simp] theorem map_snd_places (p : ℕ) (as : List α) : (places size p as).map Prod.snd = as := by
  induction as generalizing p with
  | nil => rfl
  | cons a as ih => simp [places, ih]

theorem places_bounds {e : ℕ × α} (h : e ∈ places size p as) :
    p ≤ e.1 ∧ e.1 + size e.2 ≤ p + total size as ∧ e.2 ∈ as := by
  induction as generalizing p with
  | nil => cases h
  | cons a as ih =>
    rw [total_cons]
    rcases List.mem_cons.mp h with rfl | h
    · exact ⟨le_rfl, by simp only; omega, by simp⟩
    · obtain ⟨h1, h2, h3⟩ := ih h
      exact ⟨by omega, by omega, by simp [h3]⟩

theorem places_increasing (p : ℕ) (as : List α) :
    (places size p as).Pairwise fun a b => a.1 + size a.2 ≤ b.1 := by
  induction as generalizing p with
  | nil => exact .nil
  | cons a as ih => exact .cons (fun e he => (places_bounds he).1) (ih _)

theorem places_ordered {a b : ℕ × α} (ha : a ∈ places size p as) (hb : b ∈ places size p as) :
    a = b ∨ a.1 + size a.2 ≤ b.1 ∨ b.1 + size b.2 ≤ a.1 := by
  induction as generalizing p with
  | nil => cases ha
  | cons x as ih =>
    rcases List.mem_cons.mp ha with rfl | ha'
    · rcases List.mem_cons.mp hb with rfl | hb'
      · exact .inl rfl
      · exact .inr (.inl (places_bounds hb').1)
    · rcases List.mem_cons.mp hb with rfl | hb'
      · exact .inr (.inr (places_bounds ha').1)
      · exact ih ha' hb'

theorem last_mem_places (p : ℕ) (h : as ≠ []) :
    (p + total size as.dropLast, as.getLast h) ∈ places size p as := by
  induction as generalizing p with
  | nil => exact absurd rfl h
  | cons a as ih =>
    cases as with
    | nil => simp [places]
    | cons b bs =>
      have hlast := ih (p + size a) (by simp)
      rw [List.dropLast_cons_cons, total_cons, ← Nat.add_assoc, List.getLast_cons (by simp)]
      exact List.mem_cons_of_mem _ hlast

/-- Every position up to the end belongs to an item. -/
theorem exists_place {q : ℕ} (hp : p ≤ q) (hq : q < p + total size as) :
    ∃ e ∈ places size p as, e.1 ≤ q ∧ q < e.1 + size e.2 := by
  induction as generalizing p with
  | nil => simp at hq; omega
  | cons a as ih =>
    rw [total_cons] at hq
    by_cases h : q < p + size a
    · exact ⟨(p, a), by simp [places], hp, h⟩
    · obtain ⟨e, he, h1, h2⟩ := ih (show p + size a ≤ q by omega) (by omega)
      exact ⟨e, by simp [places, he], h1, h2⟩

theorem place_le_last {e : ℕ × α} (h : e ∈ places size p as) :
    e.1 ≤ p + total size as.dropLast := by
  induction as generalizing p with
  | nil => cases h
  | cons a as ih =>
    cases as with
    | nil =>
      obtain rfl : e = (p, a) := by simpa [places] using h
      simp
    | cons b bs =>
      rw [List.dropLast_cons_cons, total_cons]
      rcases List.mem_cons.mp h with rfl | h
      · simp only; omega
      · have := ih h
        omega

theorem total_dropLast (h : as ≠ []) :
    total size as.dropLast + size (as.getLast h) = total size as := by
  conv_rhs => rw [← List.dropLast_append_getLast h]
  simp [total]

/-- From some place on, the item at that place comes first. -/
theorem cons_sublist_places {es : List (ℕ × α)}
    (hes : es.Pairwise fun a b => a.1 + size a.2 ≤ b.1) (hpos : ∀ a, 0 < size a) {e : ℕ × α}
    (he : e ∈ es) : (e :: es.filter fun a => decide (e.1 + size e.2 ≤ a.1)).Sublist
      (es.filter fun a => decide (e.1 ≤ a.1)) := by
  obtain ⟨front, back, rfl⟩ := List.append_of_mem he
  obtain ⟨-, -, hfront⟩ := List.pairwise_append.mp hes
  have hnone : front.filter (fun a => decide (e.1 + size e.2 ≤ a.1)) = [] := by
    refine List.filter_eq_nil_iff.mpr fun a ha => ?_
    have := hfront a ha e (by simp)
    have := hpos a.2
    simp only [decide_eq_true_eq]
    omega
  have hself : ¬ e.1 + size e.2 ≤ e.1 := by have := hpos e.2; omega
  rw [List.filter_append, List.filter_append, hnone, List.filter_cons_of_neg (by simpa using hself),
    List.filter_cons_of_pos (by simp), List.nil_append]
  refine List.Sublist.trans (List.Sublist.cons_cons e ?_) (List.sublist_append_right _ _)
  refine List.monotone_filter_right back fun a => ?_
  simp only [decide_eq_true_eq]
  omega

end Places

/-- The numbers an item gets from a counter modulo `N`. -/
def Covers (N : ℕ) (e : ℕ × α) (x : ℕ) : Prop := e.1 % N ≤ x ∧ x < e.1 % N + size e.2

def Apart (N : ℕ) (a b : ℕ × α) : Prop := ∀ x, Covers size N a x → ¬ Covers size N b x

section Apart
variable {size} {N p : ℕ} {as : List α}

instance : Std.Symm (Apart size N) where
  symm _ _ h := fun x hb ha => h x ha hb

private theorem apart_of_lap {a b : ℕ × α} (hab : a.1 + size a.2 ≤ b.1)
    (hlap : b.1 + size b.2 ≤ a.1 + N) : Apart size N a b := by
  rintro x ⟨ha1, ha2⟩ ⟨hb1, hb2⟩
  obtain ⟨i, rfl⟩ := Nat.exists_eq_add_of_le ha1
  obtain ⟨j, hj⟩ := Nat.exists_eq_add_of_le hb1
  have hmod : (a.1 + i) % N = (b.1 + j) % N := by
    rw [← Nat.mod_add_mod, hj, Nat.mod_add_mod]
  have hlt : b.1 + j - (a.1 + i) < N := by omega
  have hzero := Nat.sub_mod_eq_zero_of_mod_eq hmod.symm
  rw [Nat.mod_eq_of_lt hlt] at hzero
  omega

/-- Up to one lap, nothing is handed out twice. -/
theorem apart_of_total_le (h : total size as ≤ N) : (places size p as).Pairwise (Apart size N) := by
  refine (places_increasing p as).imp_of_mem fun {a b} ha hb hab => ?_
  have hlo := (places_bounds ha).1
  have hhi := (places_bounds hb).2.1
  exact apart_of_lap hab (by omega)

/-- While every range starts in the first lap, nothing is handed out twice. -/
theorem apart_of_last_lt (h : p + total size as.dropLast < N) :
    (places size p as).Pairwise (Apart size N) := by
  refine (places_increasing p as).imp_of_mem fun {a b} ha hb hab => ?_
  have ha' := place_le_last ha
  have hb' := place_le_last hb
  rintro x ⟨-, ha2⟩ ⟨hb1, -⟩
  rw [Nat.mod_eq_of_lt (by omega)] at ha2 hb1
  omega

/-- If the item on the last number before the wrap ends within a lap, the first number is
handed out again. -/
private theorem not_apart_of_short (hp : p < N) (hsize : ∀ a ∈ as, 0 < size a ∧ size a ≤ N)
    (htotal : N < total size as) {m : ℕ × α} (hm : m ∈ places size p as) (hm1 : m.1 ≤ N - 1)
    (hm2 : N - 1 < m.1 + size m.2) (hend : m.1 + size m.2 < N + p) :
    ¬ (places size p as).Pairwise (Apart size N) := by
  intro hapart
  have hne : as ≠ [] := by rintro rfl; simp at htotal
  obtain ⟨a, rest, rfl⟩ := List.exists_cons_of_ne_nil hne
  obtain ⟨j, hj, hj1, hj2⟩ := exists_place (show p ≤ N + p by omega)
    (show N + p < p + total size (a :: rest) by omega)
  have hfirst : (p, a) ∈ places size p (a :: rest) := List.mem_cons_self
  have hjN : N ≤ j.1 := by
    rcases places_ordered hm hj with rfl | h | h <;> omega
  have hjmod : j.1 % N = j.1 - N := by
    rw [Nat.mod_eq_sub_mod hjN, Nat.mod_eq_of_lt (by omega)]
  have hdiff : (p, a) ≠ j := by rintro rfl; omega
  refine hapart.forall hfirst hj hdiff p ⟨?_, ?_⟩ ⟨?_, ?_⟩
  · exact (Nat.mod_eq_of_lt hp).le
  · have := (hsize a (by simp)).1
    simp only [Nat.mod_eq_of_lt hp]
    omega
  · omega
  · omega

/-- If it ends a lap later or more, the item behind it starts on a number that the first lap
has handed out. -/
private theorem not_apart_of_long (hsize : ∀ a ∈ as, 0 < size a ∧ size a ≤ N) (hne : as ≠ [])
    (hlast : N ≤ p + total size as.dropLast) {m : ℕ × α} (hm : m ∈ places size p as)
    (hm1 : m.1 ≤ N - 1) (hm2 : N - 1 < m.1 + size m.2) (hend : N + p ≤ m.1 + size m.2) :
    ¬ (places size p as).Pairwise (Apart size N) := by
  intro hapart
  have hmsize := (hsize _ (places_bounds hm).2.2).2
  have hlen := @total_dropLast α size as hne
  have hlastpos := (hsize _ (List.getLast_mem hne)).1
  have hbefore : m.1 + size m.2 ≤ p + total size as.dropLast := by
    rcases places_ordered hm (last_mem_places p hne) with h | h | h
    · have := congrArg Prod.fst h
      simp only at this
      omega
    · exact h
    · simp only at h
      omega
  obtain ⟨k, hk, hk1, hk2⟩ := exists_place (show p ≤ m.1 + size m.2 by omega)
    (show m.1 + size m.2 < p + total size as by omega)
  have hkpos : k.1 = m.1 + size m.2 := by
    rcases places_ordered hm hk with rfl | h | h <;> omega
  have hkmod : k.1 % N = k.1 - N := by
    rw [Nat.mod_eq_sub_mod (by omega), Nat.mod_eq_of_lt (by omega)]
  obtain ⟨j, hj, hj1, hj2⟩ := exists_place (show p ≤ k.1 - N by omega)
    (show k.1 - N < p + total size as by omega)
  have hjmod : j.1 % N = j.1 := Nat.mod_eq_of_lt (by omega)
  have hdiff : j ≠ k := by rintro rfl; omega
  exact hapart.forall hj hk hdiff (k.1 - N) ⟨by omega, by omega⟩ ⟨by omega, by omega⟩

/-- Past one lap, a range that starts behind the wrap meets one from before it. -/
theorem not_apart_of_lap (hp : p < N) (hsize : ∀ a ∈ as, 0 < size a ∧ size a ≤ N)
    (htotal : N < total size as) (hlast : N ≤ p + total size as.dropLast) :
    ¬ (places size p as).Pairwise (Apart size N) := by
  have hne : as ≠ [] := by rintro rfl; simp at htotal
  obtain ⟨m, hm, hm1, hm2⟩ := exists_place (show p ≤ N - 1 by omega)
    (show N - 1 < p + total size as by omega)
  by_cases hend : m.1 + size m.2 < N + p
  · exact not_apart_of_short hp hsize htotal hm hm1 hm2 hend
  · exact not_apart_of_long hsize hne hlast hm hm1 hm2 (by omega)

/-- No number is handed out twice exactly while the items fit into one lap or the last of
them starts before the counter wraps. -/
theorem apart_places_iff (hp : p < N) (hsize : ∀ a ∈ as, 0 < size a ∧ size a ≤ N) :
    (places size p as).Pairwise (Apart size N) ↔
      total size as ≤ N ∨ p + total size as.dropLast < N := by
  constructor
  · intro h
    by_contra hcon
    obtain ⟨htotal, hlast⟩ := not_or.mp hcon
    exact not_apart_of_lap hp hsize (by omega) (by omega) h
  · rintro (h | h)
    · exact apart_of_total_le h
    · exact apart_of_last_lt h

end Apart
end ModbusSecurity.CyclicCounters
