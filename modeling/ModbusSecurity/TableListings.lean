import Mathlib.Logic.Function.Basic
import Mathlib.Data.List.Basic

/-! # Tables that are written out as lists of entries

A table maps keys to values; some values are blank. A listing names the cells that are
not blank, and reading a list of entries back overwrites the cells it names and no other. -/
namespace ModbusSecurity.TableListings
variable {κ ν : Type*} [DecidableEq κ]

/-- Store the entries one after another. -/
def overlay (entries : List (κ × ν)) (table : κ → ν) : κ → ν :=
  entries.foldl (fun t e => Function.update t e.1 e.2) table

/-- The entry that decides a cell: the last one of its key. -/
def lastEntry (entries : List (κ × ν)) (k : κ) : Option ν := entries.reverse.lookup k

def listing (cells : List κ) (blank : ν → Bool) (table : κ → ν) : List (κ × ν) :=
  (cells.filter fun k => !blank (table k)).map fun k => (k, table k)

theorem overlay_apply (entries : List (κ × ν)) (table : κ → ν) (k : κ) :
    overlay entries table k = (lastEntry entries k).getD (table k) := by
  rw [overlay, lastEntry, List.foldl_eq_foldr_reverse]
  induction entries.reverse with
  | nil => rfl
  | cons e es ih =>
    obtain ⟨a, v⟩ := e
    rw [List.foldr_cons, Function.update_apply, ih, List.lookup_cons]
    by_cases h : k = a
    · simp [h]
    · simp [h, beq_eq_false_iff_ne.mpr h]

/-- Entries that say what a table says, whichever of them were kept. -/
theorem lastEntry_of_faithful {entries : List (κ × ν)} {table : κ → ν}
    (h : ∀ e ∈ entries, e.2 = table e.1) (k : κ) :
    lastEntry entries k = none ∨ lastEntry entries k = some (table k) := by
  rw [lastEntry]
  cases hlook : entries.reverse.lookup k with
  | none => exact .inl rfl
  | some v =>
    obtain ⟨before, after, hsplit, -⟩ := List.lookup_eq_some_iff.mp hlook
    have hmem : (k, v) ∈ entries := by
      rw [← List.mem_reverse, hsplit]
      simp
    exact .inr (congrArg some (h _ hmem))

theorem lastEntry_append_self (entries : List (κ × ν)) (k : κ) (v : ν) :
    lastEntry (entries ++ [(k, v)]) k = some v := by
  simp [lastEntry]

omit [DecidableEq κ] in
theorem listing_faithful {cells : List κ} {blank : ν → Bool} {table : κ → ν} {e : κ × ν}
    (he : e ∈ listing cells blank table) : e.2 = table e.1 ∧ blank e.2 = false := by
  obtain ⟨k, hk, rfl⟩ := List.mem_map.mp he
  exact ⟨rfl, by simpa using (List.mem_filter.mp hk).2⟩

private theorem lookup_map_self (ks : List κ) (table : κ → ν) (k : κ) :
    (ks.map fun k => (k, table k)).lookup k = if k ∈ ks then some (table k) else none := by
  induction ks with
  | nil => rfl
  | cons a ks ih =>
    by_cases h : k = a
    · simp [h]
    · simp [List.lookup_cons, h, beq_eq_false_iff_ne.mpr h, ih]

theorem lastEntry_listing {cells : List κ} (hcells : ∀ k, k ∈ cells) (blank : ν → Bool)
    (table : κ → ν) (k : κ) :
    lastEntry (listing cells blank table) k =
      if blank (table k) then none else some (table k) := by
  rw [lastEntry, listing, ← List.map_reverse, lookup_map_self]
  cases hb : blank (table k) <;> simp [hcells, hb]

/-- Reading a listing back restores the listed cells and keeps the others. -/
theorem overlay_listing {cells : List κ} (hcells : ∀ k, k ∈ cells) (blank : ν → Bool)
    (table old : κ → ν) (k : κ) :
    overlay (listing cells blank table) old k =
      if blank (table k) then old k else table k := by
  rw [overlay_apply, lastEntry_listing hcells]
  cases blank (table k) <;> rfl

end ModbusSecurity.TableListings
