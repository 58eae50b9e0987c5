import Mathlib.Order.Lattice
import Mathlib.Data.List.Basic

/-! # Admission by the highest item so far

Items of a linear order arrive one after another. One that lies below the highest item
admitted so far is turned away, and before the first there is a floor instead. -/
namespace ModbusSecurity.AdmissionWindow
variable {α : Type*} [LinearOrder α]

/-- The verdict on an item, and the highest item after it. -/
def judge (floor : α) (high : Option α) (x : α) : Bool × Option α :=
  if x < high.getD floor then (false, high) else (true, some x)

def admissions (floor : α) : Option α → List α → List (α × Bool)
  | _, [] => []
  | high, x :: xs =>
    (x, (judge floor high x).1) :: admissions floor (judge floor high x).2 xs

def admitted {α : Type*} (log : List (α × Bool)) : List α := (log.filter Prod.snd).map Prod.fst

section Rules
variable {floor : α} {high : Option α}

theorem admitted_cons {α : Type*} (x : α) (verdict : Bool) (log : List (α × Bool)) :
    admitted ((x, verdict) :: log) = if verdict then x :: admitted log else admitted log := by
  cases verdict <;> rfl

theorem admitted_map {α β : Type*} (f : α → β) (log : List (α × Bool)) :
    admitted (log.map (Prod.map f id)) = (admitted log).map f := by
  induction log with
  | nil => rfl
  | cons e log ih =>
    obtain ⟨x, verdict⟩ := e
    rw [List.map_cons, Prod.map_apply, id_eq, admitted_cons, admitted_cons, ih]
    cases verdict <;> rfl

theorem le_of_mem_admitted {x : α} {xs : List α} (h : x ∈ admitted (admissions floor high xs)) :
    high.getD floor ≤ x := by
  induction xs generalizing high with
  | nil => cases h
  | cons y xs ih =>
    rw [admissions, admitted_cons, judge] at h
    by_cases hy : y < high.getD floor
    · simp only [if_pos hy, Bool.false_eq_true, if_false] at h
      exact ih h
    · simp only [if_neg hy, if_true, List.mem_cons] at h
      rcases h with rfl | h
      · exact not_lt.mp hy
      · exact (not_lt.mp hy).trans (ih h)

/-- The admitted items never go down. -/
theorem admitted_pairwise (floor : α) (high : Option α) (xs : List α) :
    (admitted (admissions floor high xs)).Pairwise (· ≤ ·) := by
  induction xs generalizing high with
  | nil => exact .nil
  | cons y xs ih =>
    rw [admissions, admitted_cons]
    by_cases hy : y < high.getD floor
    · simp only [judge, if_pos hy]
      exact ih _
    · simp only [judge, if_neg hy]
      exact .cons (fun x hx => le_of_mem_admitted hx) (ih _)

private theorem max?_judge (x : α) (ys : List α) :
    ((judge floor high x).2.toList ++ ys).max? =
      (high.toList ++ (if (judge floor high x).1 then x :: ys else ys)).max? := by
  by_cases hx : x < high.getD floor
  · rw [judge, if_pos hx]
    rfl
  · rw [judge, if_neg hx]
    cases high with
    | none => rfl
    | some y =>
      have hle : y ≤ x := not_lt.mp hx
      show (x :: ys).max? = (y :: x :: ys).max?
      rw [List.max?_cons', List.max?_cons', List.foldl_cons, max_eq_right hle]

/-- An item is turned away exactly when it lies below the highest one before it. -/
theorem verdict_iff {xs : List α} {before after : List (α × Bool)} {x : α} {verdict : Bool}
    (h : admissions floor high xs = before ++ (x, verdict) :: after) :
    verdict = false ↔ x < ((high.toList ++ admitted before).max?).getD floor := by
  induction xs generalizing high before with
  | nil => simp [admissions] at h
  | cons y xs ih =>
    rw [admissions] at h
    cases before with
    | nil =>
      obtain ⟨hhead, -⟩ := List.cons.inj h
      obtain ⟨rfl, rfl⟩ := Prod.mk.inj hhead
      have hhigh : (high.toList ++ admitted []).max? = high := by cases high <;> rfl
      rw [hhigh, judge]
      by_cases hy : y < high.getD floor
      · simp [hy]
      · simp [hy]
    | cons b before =>
      obtain ⟨rfl, htail⟩ := List.cons.inj h
      rw [ih htail, max?_judge, admitted_cons]

end Rules
end ModbusSecurity.AdmissionWindow
