import ModbusSecurity.ByteStrings

/-! # Runs of a deterministic system

A system is a step function from a state and an action to the next state. `Always p`
says that `p` holds of every step of a run, at the state where the step is taken. -/
namespace ModbusSecurity.TransitionRuns
variable {σ α : Type*}

def run (step : σ → α → σ) (s : σ) (as : List α) : σ := as.foldl step s

/-- Every action of the run meets `p` in the state it is taken in. -/
def Always (step : σ → α → σ) (p : σ → α → Prop) : σ → List α → Prop
  | _, [] => True
  | s, a :: as => p s a ∧ Always step p (step s a) as

section Rules
variable {step : σ → α → σ} {ok good : σ → α → Prop} {Inv : σ → Prop}

@[simp] theorem run_nil (s : σ) : run step s [] = s := rfl

@[simp] theorem run_cons (s : σ) (a : α) (as : List α) :
    run step s (a :: as) = run step (step s a) as := rfl

theorem run_append (s : σ) (as bs : List α) :
    run step s (as ++ bs) = run step (run step s as) bs := List.foldl_append

/-- What holds at the start and is kept by every admitted step holds at the end. -/
theorem invariant_run (hstep : ∀ s a, Inv s → ok s a → Inv (step s a)) {s : σ} {as : List α}
    (h : Inv s) (hok : Always step ok s as) : Inv (run step s as) := by
  induction as generalizing s with
  | nil => exact h
  | cons a as ih => exact ih (hstep s a h hok.1) hok.2

theorem always_of_forall {p : α → Prop} {as : List α} (h : ∀ a ∈ as, p a) (s : σ) :
    Always step (fun _ a => p a) s as := by
  induction as generalizing s with
  | nil => trivial
  | cons a as ih => exact ⟨h a (by simp), ih (fun b hb => h b (by simp [hb])) _⟩

/-- What an invariant implies of each admitted step holds of the whole run. -/
theorem always_of_invariant (hstep : ∀ s a, Inv s → ok s a → Inv (step s a))
    (hgood : ∀ s a, Inv s → ok s a → good s a) {s : σ} {as : List α} (h : Inv s)
    (hok : Always step ok s as) : Always step good s as := by
  induction as generalizing s with
  | nil => trivial
  | cons a as ih => exact ⟨hgood s a h hok.1, ih (hstep s a h hok.1) hok.2⟩

end Rules

section Answers
variable {τ ρ : Type*}

/-- What a system answers to each action. -/
def answersOf (step : σ → α → ρ × σ) : σ → List α → List ρ
  | _, [] => []
  | s, a :: as => (step s a).1 :: answersOf step (step s a).2 as

/-- A simulation that answers alike. -/
theorem answersOf_simulated {f : σ → α → ρ × σ} {g : τ → α → ρ × τ} {R : σ → τ → Prop}
    (hstep : ∀ s t a, R s t → (f s a).1 = (g t a).1 ∧ R (f s a).2 (g t a).2) {s : σ} {t : τ}
    (h : R s t) (as : List α) : answersOf f s as = answersOf g t as := by
  induction as generalizing s t with
  | nil => rfl
  | cons a as ih =>
    obtain ⟨hanswer, hnext⟩ := hstep s t a h
    rw [answersOf, answersOf, hanswer, ih hnext]

/-- A simulation on runs whose actions are admitted in the simulating system. -/
theorem run_simulated {f : σ → α → ρ × σ} {g : τ → α → ρ × τ} {R : σ → τ → Prop} {ok : τ → α → Prop}
    (hstep : ∀ s t a, R s t → ok t a → (f s a).1 = (g t a).1 ∧ R (f s a).2 (g t a).2) {s : σ} {t : τ}
    (h : R s t) {as : List α} (hok : Always (fun t a => (g t a).2) ok t as) :
    answersOf f s as = answersOf g t as ∧
      R (run (fun s a => (f s a).2) s as) (run (fun t a => (g t a).2) t as) := by
  induction as generalizing s t with
  | nil => exact ⟨rfl, h⟩
  | cons a as ih =>
    obtain ⟨hanswer, hnext⟩ := hstep s t a h hok.1
    obtain ⟨hrest, hlast⟩ := ih hnext hok.2
    refine ⟨?_, hlast⟩
    rw [answersOf, answersOf, hanswer, hrest]

end Answers

/-- A turn of a loop ends it, or leaves a state for the next one. -/
inductive Turn (σ ε : Type*) where
  | stopped (e : ε)
  | running (s : σ)

/-- At most `n` turns. -/
def turns {ε : Type*} (step : σ → Turn σ ε) : ℕ → σ → Turn σ ε
  | 0, s => .running s
  | n + 1, s => match step s with
    | .stopped e => .stopped e
    | .running s' => turns step n s'

section Turns
variable {ε : Type*} {step : σ → Turn σ ε} {s s' : σ} {e : ε}

theorem turns_stopped (h : step s = .stopped e) (n : ℕ) : turns step (n + 1) s = .stopped e := by
  rw [turns, h]

theorem turns_running (h : step s = .running s') (n : ℕ) :
    turns step (n + 1) s = turns step n s' := by
  rw [turns, h]

/-- What every turn that goes on keeps holds as long as the loop goes on. -/
theorem turns_invariant {Inv : σ → Prop} (hstep : ∀ s s', Inv s → step s = .running s' → Inv s')
    (h : Inv s) {n : ℕ} (hn : turns step n s = .running s') : Inv s' := by
  induction n generalizing s with
  | zero =>
    obtain rfl : s = s' := by simpa [turns] using hn
    exact h
  | succ n ih =>
    cases hs : step s with
    | stopped e =>
      rw [turns_stopped hs] at hn
      cases hn
    | running s₁ =>
      rw [turns_running hs] at hn
      exact ih (hstep s s₁ h hs) hn

/-- A loop that has ended was ended by one of its turns. -/
theorem stopped_by_turn {n : ℕ} (h : turns step n s = .stopped e) :
    ∃ k s', turns step k s = .running s' ∧ step s' = .stopped e := by
  induction n generalizing s with
  | zero => cases h
  | succ n ih =>
    cases hs : step s with
    | stopped e' =>
      rw [turns_stopped hs] at h
      exact ⟨0, s, rfl, hs.trans h⟩
    | running s₁ =>
      rw [turns_running hs] at h
      obtain ⟨k, s', hk, hlast⟩ := ih h
      exact ⟨k + 1, s', (turns_running hs k).trans hk, hlast⟩

/-- A loop that uses something up in every turn ends, or repeats itself once all is used up. -/
theorem stops_or_repeats (μ : σ → ℕ) (hless : ∀ s s', step s = .running s' → μ s ≠ 0 → μ s' < μ s)
    (hstay : ∀ s, μ s = 0 → step s = .running s) (s : σ) :
    (∃ e, ∀ n, μ s ≤ n → turns step n s = .stopped e) ∨
      ∃ s', μ s' = 0 ∧ ∀ n, μ s ≤ n → turns step n s = .running s' := by
  induction hm : μ s using Nat.strong_induction_on generalizing s with
  | _ m ih =>
    by_cases hzero : μ s = 0
    · right
      refine ⟨s, hzero, fun n _ => ?_⟩
      induction n with
      | zero => rfl
      | succ n ihn =>
        rw [turns_running (hstay s hzero)]
        exact ihn (by omega)
    · cases hs : step s with
      | stopped e =>
        left
        refine ⟨e, fun n hn => ?_⟩
        obtain ⟨k, rfl⟩ : ∃ k, n = k + 1 := ⟨n - 1, by omega⟩
        exact turns_stopped hs k
      | running s₁ =>
        have hlt := hless s s₁ hs hzero
        have hlater : ∀ n, m ≤ n → ∃ k, n = k + 1 ∧ μ s₁ ≤ k := fun n hn =>
          ⟨n - 1, by omega, by omega⟩
        rcases ih (μ s₁) (by omega) s₁ rfl with ⟨e, h⟩ | ⟨s', hdone, h⟩
        · left
          refine ⟨e, fun n hn => ?_⟩
          obtain ⟨k, rfl, hk⟩ := hlater n hn
          rw [turns_running hs, h k hk]
        · right
          refine ⟨s', hdone, fun n hn => ?_⟩
          obtain ⟨k, rfl, hk⟩ := hlater n hn
          rw [turns_running hs, h k hk]

end Turns
end ModbusSecurity.TransitionRuns
