import Mathlib.Data.List.Basic

/-! # Paths, working directories and the files a program writes by name

A place in a file tree is the list of names that leads to it from the root. A path is walked
name by name, from the root if it begins with the separator and else from a working directory. -/
namespace ModbusSecurity.DirectoryPaths
variable {α β : Type*} [DecidableEq α]

/-- One name of a path: the empty one and a single dot lead nowhere, two dots lead back. -/
def enter (dot : α) (place : List (List α)) (name : List α) : List (List α) :=
  if name = [] ∨ name = [dot] then place
  else if name = [dot, dot] then place.dropLast
  else place ++ [name]

def resolve (sep dot : α) (cwd : List (List α)) (path : List α) : List (List α) :=
  (path.splitOn sep).foldl (enter dot) (if path.head? = some sep then [] else cwd)

/-- The name of a file, without a directory. -/
structure Plain (sep dot : α) (name : List α) : Prop where
  nonempty : name ≠ []
  single : sep ∉ name
  here : name ≠ [dot]
  back : name ≠ [dot, dot]

instance (sep dot : α) (name : List α) : Decidable (Plain sep dot name) :=
  decidable_of_iff (name ≠ [] ∧ sep ∉ name ∧ name ≠ [dot] ∧ name ≠ [dot, dot])
    ⟨fun ⟨hne, hs, hh, hb⟩ => ⟨hne, hs, hh, hb⟩, fun h => ⟨h.nonempty, h.single, h.here, h.back⟩⟩

section Resolve
variable {sep dot : α} {name name' : List α} {cwd cwd' : List (List α)}

theorem enter_plain (h : Plain sep dot name) (place : List (List α)) :
    enter dot place name = place ++ [name] := by
  rw [enter, if_neg (not_or.mpr ⟨h.nonempty, h.here⟩), if_neg h.back]

theorem resolve_plain (h : Plain sep dot name) : resolve sep dot cwd name = cwd ++ [name] := by
  have hstart : name.head? ≠ some sep := fun hc => h.single (List.mem_of_mem_head? hc)
  rw [resolve, List.splitOn_eq_singleton h.single, if_neg hstart, List.foldl_cons, List.foldl_nil,
    enter_plain h]

/-- One name, found in two working directories, is one file only if they are one directory. -/
theorem resolve_plain_inj (h : Plain sep dot name) :
    resolve sep dot cwd name = resolve sep dot cwd' name ↔ cwd = cwd' := by
  rw [resolve_plain h, resolve_plain h, List.append_left_inj]

theorem resolve_plain_injective (h : Plain sep dot name) (h' : Plain sep dot name')
    (heq : resolve sep dot cwd name = resolve sep dot cwd' name') : name = name' := by
  rw [resolve_plain h, resolve_plain h'] at heq
  exact List.singleton_inj.mp (List.append_inj' heq rfl).2

/-- A path with a directory part leads to a file of its last name. -/
theorem resolve_under (h : Plain sep dot name) (cwd : List (List α)) (dir : List α) :
    ∃ place, resolve sep dot cwd (dir ++ sep :: name) = place ++ [name] := by
  refine ⟨(dir.splitOn sep).foldl (enter dot)
    (if (dir ++ sep :: name).head? = some sep then [] else cwd), ?_⟩
  rw [resolve, List.splitOn_append_cons_self, List.splitOn_eq_singleton h.single, List.foldl_append,
    List.foldl_cons, List.foldl_nil, enter_plain h]

end Resolve

/-- The files as paths lead to them from a working directory. -/
def view (sep dot : α) (files : List (List α) → Option β) (cwd : List (List α)) :
    List α → Option β :=
  fun path => files (resolve sep dot cwd path)

/-- The file tree once the files of some names have been written in a working directory. -/
def store (sep dot : α) (names : List (List α)) (files : List (List α) → Option β)
    (cwd : List (List α)) (contents : List α → Option β) : List (List α) → Option β :=
  fun place =>
    match names.find? fun name => resolve sep dot cwd name = place with
    | some name => contents name
    | none => files place

section Store
variable {sep dot : α} {names : List (List α)} {files : List (List α) → Option β}
  {cwd : List (List α)} {contents : List α → Option β}

theorem store_name (hplain : ∀ name ∈ names, Plain sep dot name) {name : List α}
    (hname : name ∈ names) :
    store sep dot names files cwd contents (resolve sep dot cwd name) = contents name := by
  rw [store]
  cases h : names.find? fun n => resolve sep dot cwd n = resolve sep dot cwd name with
  | none => exact absurd (decide_eq_true rfl) (List.find?_eq_none.mp h name hname)
  | some found =>
    have hplace := List.find?_some h
    rw [decide_eq_true_eq] at hplace
    exact congrArg contents (resolve_plain_injective (hplain _ (List.mem_of_find?_eq_some h))
      (hplain _ hname) hplace)

theorem store_other {place : List (List α)} (h : ∀ name ∈ names, resolve sep dot cwd name ≠ place) :
    store sep dot names files cwd contents place = files place := by
  have hnone : (names.find? fun name => resolve sep dot cwd name = place) = none :=
    List.find?_eq_none.mpr fun name hname => by
      rw [decide_eq_true_eq]
      exact h name hname
  rw [store, hnone]

end Store
end ModbusSecurity.DirectoryPaths
