import Mathlib.Algebra.Group.End

/-! # In-place register programs

Straight-line code in which every instruction overwrites one register from its old value and
one other register. What undoes such a program, what a map between register contents makes
of it, and when unrolled code that renames its registers from round to round is a loop over
one round. -/
namespace ModbusSecurity.RegisterPrograms

variable {n : ℕ} {κ V W : Type*}

/-- `dst := op dst src`, where the source is another register. -/
structure Instr (n : ℕ) (κ : Type*) where
  dst : Fin n
  src : Fin n
  op : κ
  ne : src ≠ dst

/-- `sem` says what an operation makes of the old value and the source. -/
def Instr.exec (sem : κ → V → V → V) (i : Instr n κ) (x : Vector V n) : Vector V n :=
  x.set i.dst (sem i.op x[i.dst] x[i.src])

def run (sem : κ → V → V → V) (p : List (Instr n κ)) (x : Vector V n) : Vector V n :=
  p.foldl (fun x i => i.exec sem x) x

@[simp] theorem run_nil (sem : κ → V → V → V) (x : Vector V n) : run sem [] x = x := rfl

@[simp] theorem run_cons (sem : κ → V → V → V) (i : Instr n κ) (p : List (Instr n κ))
    (x : Vector V n) : run sem (i :: p) x = run sem p (i.exec sem x) := rfl

theorem run_append (sem : κ → V → V → V) (p q : List (Instr n κ)) (x : Vector V n) :
    run sem (p ++ q) x = run sem q (run sem p x) := List.foldl_append

theorem Instr.getElem_exec (sem : κ → V → V → V) (i : Instr n κ) (x : Vector V n) (j : Fin n) :
    (i.exec sem x)[j] = if i.dst = j then sem i.op x[i.dst] x[i.src] else x[j] := by
  simp only [Instr.exec, Fin.getElem_fin, Vector.getElem_set, Fin.ext_iff]

section Undo
variable {sem undo : κ → V → V → V}

theorem Instr.exec_undo (h : ∀ k v w, undo k (sem k v w) w = v) (i : Instr n κ) (x : Vector V n) :
    i.exec undo (i.exec sem x) = x := by
  have hdst : (i.exec sem x)[i.dst] = sem i.op x[i.dst] x[i.src] := by
    rw [Instr.getElem_exec, if_pos rfl]
  have hsrc : (i.exec sem x)[i.src] = x[i.src] := by
    rw [Instr.getElem_exec, if_neg i.ne.symm]
  rw [Instr.exec, hdst, hsrc, h, Instr.exec, Vector.set_set]
  exact Vector.set_getElem_self _

/-- Where every operation can be taken back with the same source, the instructions in
reverse order take the program back. -/
theorem run_undo (h : ∀ k v w, undo k (sem k v w) w = v) (p : List (Instr n κ)) (x : Vector V n) :
    run undo p.reverse (run sem p x) = x := by
  induction p generalizing x with
  | nil => rfl
  | cons i p ih => rw [run_cons, List.reverse_cons, run_append, ih, run_cons, run_nil, i.exec_undo h]

end Undo

section Maps
variable {sem : κ → V → V → V} {sem' : κ → W → W → W}

theorem Instr.map_exec {f : V → W} (h : ∀ k v w, f (sem k v w) = sem' k (f v) (f w))
    (i : Instr n κ) (x : Vector V n) : (i.exec sem x).map f = i.exec sem' (x.map f) := by
  simp [Instr.exec, h]

/-- A map that respects the operations may be applied before the program or after it. -/
theorem map_run {f : V → W} (h : ∀ k v w, f (sem k v w) = sem' k (f v) (f w))
    (p : List (Instr n κ)) (x : Vector V n) : (run sem p x).map f = run sem' p (x.map f) := by
  induction p generalizing x with
  | nil => rfl
  | cons i p ih => rw [run_cons, ih, Instr.map_exec h, run_cons]

end Maps

/-- The register `i` of the result is the register `σ i`. -/
def permute (σ : Equiv.Perm (Fin n)) (x : Vector V n) : Vector V n := Vector.ofFn fun i => x[σ i]

@[simp] theorem getElem_permute (σ : Equiv.Perm (Fin n)) (x : Vector V n) (i : Fin n) :
    (permute σ x)[i] = x[σ i] := by
  simp [permute]

theorem ext_registers {x y : Vector V n} (h : ∀ j : Fin n, x[j] = y[j]) : x = y :=
  Vector.ext fun j hj => h ⟨j, hj⟩

theorem permute_one (x : Vector V n) : permute 1 x = x :=
  ext_registers fun j => getElem_permute 1 x j

theorem permute_permute (σ τ : Equiv.Perm (Fin n)) (x : Vector V n) :
    permute τ (permute σ x) = permute (σ * τ) x := by
  apply ext_registers
  intro j
  rw [getElem_permute, getElem_permute, getElem_permute]
  rfl

/-- The same instruction on renamed registers. -/
def Instr.rename (σ : Equiv.Perm (Fin n)) (i : Instr n κ) : Instr n κ where
  dst := σ i.dst
  src := σ i.src
  op := i.op
  ne := σ.injective.ne i.ne

section Unrolled
variable {sem : κ → V → V → V}

theorem Instr.exec_rename (σ : Equiv.Perm (Fin n)) (i : Instr n κ) (x : Vector V n) :
    permute σ ((i.rename σ).exec sem x) = i.exec sem (permute σ x) := by
  apply ext_registers
  intro j
  rw [getElem_permute, Instr.getElem_exec, Instr.getElem_exec, getElem_permute, getElem_permute,
    getElem_permute]
  simp only [Instr.rename, σ.injective.eq_iff]

theorem run_rename (σ : Equiv.Perm (Fin n)) (p : List (Instr n κ)) (x : Vector V n) :
    permute σ (run sem (p.map (Instr.rename σ)) x) = run sem p (permute σ x) := by
  induction p generalizing x with
  | nil => rfl
  | cons i p ih => rw [List.map_cons, run_cons, ih, Instr.exec_rename, run_cons]

/-- The rounds `0, …, m - 1` written out one after the other. Instead of moving the registers
at the end of a round, the code goes on with other names for them. -/
def unrolled (σ : Equiv.Perm (Fin n)) (body : ℕ → List (Instr n κ)) : ℕ → List (Instr n κ)
  | 0 => []
  | m + 1 => unrolled σ body m ++ (body m).map (Instr.rename (σ ^ m))

/-- The loop: a round runs its body and then moves the registers. -/
def rounds (sem : κ → V → V → V) (σ : Equiv.Perm (Fin n)) (body : ℕ → List (Instr n κ)) :
    ℕ → Vector V n → Vector V n
  | 0, x => x
  | m + 1, x => permute σ (run sem (body m) (rounds sem σ body m x))

theorem permute_run_unrolled (σ : Equiv.Perm (Fin n)) (body : ℕ → List (Instr n κ)) (m : ℕ)
    (x : Vector V n) : permute (σ ^ m) (run sem (unrolled σ body m) x) = rounds sem σ body m x := by
  induction m with
  | zero => exact permute_one x
  | succ m ih => rw [rounds, ← ih, ← run_rename, permute_permute, pow_succ, unrolled, run_append]

/-- Once the names have gone all the way round, unrolled code and loop agree. -/
theorem run_unrolled {σ : Equiv.Perm (Fin n)} {m : ℕ} (hσ : σ ^ m = 1)
    (body : ℕ → List (Instr n κ)) (x : Vector V n) :
    run sem (unrolled σ body m) x = rounds sem σ body m x := by
  rw [← permute_run_unrolled, hσ, permute_one]

end Unrolled

end ModbusSecurity.RegisterPrograms
