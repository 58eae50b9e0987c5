import Mathlib.Data.List.Basic

/-! # Programs that report what they do

A program runs on a state, returns a value and reports events on the way. `Runs` is its
rule of pre- and postconditions: which events are admitted, and what holds at the end. -/
namespace ModbusSecurity.AccessTraces
variable {ε σ α β : Type}

/-- From a state to a value, the events in order and the next state. -/
def Program (ε σ α : Type) : Type := σ → α × List ε × σ

instance : Monad (Program ε σ) where
  pure a s := (a, [], s)
  bind p f s :=
    let (a, es, s) := p s
    let (b, fs, s) := f a s
    (b, es ++ fs, s)

namespace Program

def report (e : ε) : Program ε σ Unit := fun s => ((), [e], s)

def state : Program ε σ σ := fun s => (s, [], s)

def update (f : σ → σ) : Program ε σ Unit := fun s => ((), [], f s)

/-- `for (i = 0; i < n; i++)`. -/
def forLoop (body : ℕ → Program ε σ Unit) : ℕ → Program ε σ Unit
  | 0 => pure ()
  | n + 1 => do
    forLoop body n
    body n

section Apply
variable (s : σ)

theorem pure_apply (a : α) : (pure a : Program ε σ α) s = (a, [], s) := rfl

theorem bind_apply (p : Program ε σ α) (f : α → Program ε σ β) : (p >>= f) s =
    ((f (p s).1 (p s).2.2).1, (p s).2.1 ++ (f (p s).1 (p s).2.2).2.1, (f (p s).1 (p s).2.2).2.2) := rfl

theorem report_apply (e : ε) : (report e : Program ε σ Unit) s = ((), [e], s) := rfl

theorem state_apply : (state : Program ε σ σ) s = (s, [], s) := rfl

theorem update_apply (f : σ → σ) : (update f : Program ε σ Unit) s = ((), [], f s) := rfl

end Apply

end Program
open Program

/-- Run from `s`, every event is admitted, and the result meets `post`. -/
structure Runs (admitted : ε → Prop) (p : Program ε σ α) (s : σ) (post : α → σ → Prop) : Prop where
  events : ∀ e ∈ (p s).2.1, admitted e
  result : post (p s).1 (p s).2.2

section Rules
variable {admitted : ε → Prop} {s : σ} {post : α → σ → Prop} {post' : β → σ → Prop}

theorem runs_pure {a : α} (h : post a s) : Runs admitted (pure a) s post :=
  ⟨fun _ he => absurd he List.not_mem_nil, h⟩

/-- What the first part establishes is what the second one starts from. -/
theorem runs_bind {p : Program ε σ α} {f : α → Program ε σ β} (h : Runs admitted p s post)
    (hf : ∀ a s', post a s' → Runs admitted (f a) s' post') : Runs admitted (p >>= f) s post' := by
  obtain ⟨hevents, hresult⟩ := hf _ _ h.result
  refine ⟨fun e he => ?_, hresult⟩
  rcases List.mem_append.mp he with he | he
  · exact h.events e he
  · exact hevents e he

theorem runs_mono {p : Program ε σ α} {post₁ : α → σ → Prop} (h : Runs admitted p s post)
    (hpost : ∀ a s', post a s' → post₁ a s') : Runs admitted p s post₁ :=
  ⟨h.events, hpost _ _ h.result⟩

theorem runs_report {e : ε} (he : admitted e) : Runs admitted (report e) s fun _ s' => s' = s := by
  refine ⟨fun e' he' => ?_, rfl⟩
  obtain rfl := List.mem_singleton.mp he'
  exact he

theorem runs_state : Runs admitted state s fun a s' => a = s ∧ s' = s :=
  ⟨fun _ he => absurd he List.not_mem_nil, rfl, rfl⟩

theorem runs_update {f : σ → σ} : Runs admitted (update f) s fun _ s' => s' = f s :=
  ⟨fun _ he => absurd he List.not_mem_nil, rfl⟩

/-- A part that only looks at the state. -/
theorem runs_read {p : Program ε σ α} {f : α → Program ε σ β} {v : α}
    (h : Runs admitted p s fun a s' => a = v ∧ s' = s) (hf : Runs admitted (f v) s post') :
    Runs admitted (p >>= f) s post' := by
  apply runs_bind h
  rintro _ _ ⟨rfl, rfl⟩
  exact hf

theorem runs_skip {p : Program ε σ Unit} {f : Unit → Program ε σ β}
    (h : Runs admitted p s fun _ s' => s' = s) (hf : Runs admitted (f ()) s post') :
    Runs admitted (p >>= f) s post' :=
  runs_read (runs_mono h fun _ _ hs => ⟨rfl, hs⟩) hf

theorem runs_updated {f : σ → σ} {post₁ : Unit → σ → Prop} (h : post₁ () (f s)) :
    Runs admitted (update f) s post₁ := by
  apply runs_mono runs_update
  rintro _ _ rfl
  exact h

/-- A loop whose body takes the invariant one step on. -/
theorem runs_forLoop {body : ℕ → Program ε σ Unit} {n : ℕ} (inv : ℕ → σ → Prop) (h : inv 0 s)
    (hbody : ∀ i < n, ∀ s', inv i s' → Runs admitted (body i) s' fun _ => inv (i + 1)) :
    Runs admitted (forLoop body n) s fun _ => inv n := by
  induction n with
  | zero => exact runs_pure h
  | succ n ih =>
    exact runs_bind (ih fun i hi => hbody i (Nat.lt_succ_of_lt hi))
      fun _ s' hs' => hbody n n.lt_succ_self s' hs'

end Rules
end ModbusSecurity.AccessTraces
