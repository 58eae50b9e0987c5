import Mathlib.Data.List.Chain
import Mathlib.Data.List.TakeWhile

/-! # Streams of timed arrivals

Items that arrive one after another, bursts of them with pauses in between, and what has
arrived by a given time. -/
namespace ModbusSecurity.TimedStreams
variable {α : Type*} {interval gap patience : ℕ}

structure Arrival (α : Type*) where
  time : ℕ
  item : α
  deriving DecidableEq

def items (s : List (Arrival α)) : List α := s.map (·.item)

@[simp] theorem items_nil : items ([] : List (Arrival α)) = [] := rfl

@[simp] theorem items_append (s t : List (Arrival α)) : items (s ++ t) = items s ++ items t :=
  List.map_append

@[simp] theorem length_items (s : List (Arrival α)) : (items s).length = s.length :=
  List.length_map ..

/-- What has arrived by time `t`. -/
def arrived (t : ℕ) (s : List (Arrival α)) : List (Arrival α) := s.takeWhile (·.time ≤ t)

/-- What is still to come at time `t`. -/
def later (t : ℕ) (s : List (Arrival α)) : List (Arrival α) := s.dropWhile (·.time ≤ t)

@[simp] theorem arrived_append_later (t : ℕ) (s : List (Arrival α)) :
    arrived t s ++ later t s = s := List.takeWhile_append_dropWhile

theorem time_of_mem_arrived {t : ℕ} {s : List (Arrival α)} {a : Arrival α} (h : a ∈ arrived t s) :
    a.time ≤ t := by simpa using List.mem_takeWhile_imp h

/-- Takes at most `room` items of those that have arrived. -/
def takeArrived (t room : ℕ) (s : List (Arrival α)) : List (Arrival α) × List (Arrival α) :=
  s.splitAt (min room (arrived t s).length)

theorem takeArrived_append (t room : ℕ) (s : List (Arrival α)) :
    (takeArrived t room s).1 ++ (takeArrived t room s).2 = s := by
  simp [takeArrived, List.splitAt_eq]

theorem length_takeArrived (t room : ℕ) (s : List (Arrival α)) :
    (takeArrived t room s).1.length ≤ room := by
  simp only [takeArrived, List.splitAt_eq]
  exact (List.length_take_le ..).trans (Nat.min_le_left ..)

theorem take_arrived (t : ℕ) (s : List (Arrival α)) :
    s.take (arrived t s).length = arrived t s :=
  (List.prefix_iff_eq_take.mp (List.takeWhile_prefix _)).symm

theorem drop_arrived (t : ℕ) (s : List (Arrival α)) :
    s.drop (arrived t s).length = later t s := by
  have h := List.take_append_drop (arrived t s).length s
  rw [take_arrived] at h
  exact List.append_cancel_left (h.trans (arrived_append_later t s).symm)

theorem time_of_mem_takeArrived {t room : ℕ} {s : List (Arrival α)} {a : Arrival α}
    (h : a ∈ (takeArrived t room s).1) : a.time ≤ t := by
  rw [takeArrived, List.splitAt_eq, ← List.take_take, take_arrived] at h
  exact time_of_mem_arrived (List.mem_of_mem_take h)

theorem length_arrived_le {t : ℕ} {s u : List (Arrival α)} (h : ∀ a ∈ u.head?, t < a.time) :
    (arrived t (s ++ u)).length ≤ s.length := by
  induction s with
  | nil =>
    cases u with
    | nil => simp [arrived]
    | cons a u => simp [arrived, h a rfl]
  | cons a s ih =>
    rw [arrived, List.cons_append, List.takeWhile_cons]
    split
    · exact Nat.succ_le_succ ih
    · exact Nat.zero_le _

theorem time_of_mem_later {t : ℕ} {s : List (Arrival α)} {a : Arrival α}
    (h : a ∈ (later t s).head?) : t < a.time := by
  have := List.head?_dropWhile_not (fun a : Arrival α => decide (a.time ≤ t)) s
  rw [← later, show (later t s).head? = some a from h] at this
  simpa using this

/-- Where all of `s` finds room and what follows has not arrived, what is taken is a front of
`s`, and the rest of it is still to come. -/
theorem takeArrived_of_later {t room : ℕ} {a : Arrival α} {s u : List (Arrival α)}
    (ha : a.time ≤ t) (hroom : (a :: s).length ≤ room) (h : ∀ b ∈ u.head?, t < b.time) :
    ∃ got rest, a :: s = got ++ rest ∧ got ≠ [] ∧
      takeArrived t room (a :: s ++ u) = (got, rest ++ u) ∧
      (∀ b ∈ got, b.time ≤ t) ∧ ∀ b ∈ rest.head?, t < b.time := by
  have hn : (arrived t (a :: s ++ u)).length ≤ (a :: s).length := length_arrived_le h
  have hfront := take_arrived t (a :: s ++ u)
  have hback := drop_arrived t (a :: s ++ u)
  rw [List.take_append_of_le_length hn] at hfront
  rw [List.drop_append_of_le_length hn] at hback
  refine ⟨(a :: s).take (arrived t (a :: s ++ u)).length,
    (a :: s).drop (arrived t (a :: s ++ u)).length, (List.take_append_drop ..).symm, ?_, ?_,
    fun b hb => ?_, fun b hb => ?_⟩
  · rw [hfront]
    simp [arrived, ha]
  · rw [takeArrived, Nat.min_eq_right (hn.trans hroom), List.splitAt_eq,
      List.take_append_of_le_length hn, List.drop_append_of_le_length hn]
  · rw [hfront] at hb
    exact time_of_mem_arrived hb
  · apply time_of_mem_later (s := a :: s ++ u)
    rw [← hback, List.head?_append, Option.mem_def.mp hb]
    rfl

/-- The time of the last arrival, or `t` if there is none. -/
def endTime : ℕ → List (Arrival α) → ℕ
  | t, [] => t
  | _, a :: s => endTime a.time s

@[simp] theorem endTime_nil (t : ℕ) : endTime t ([] : List (Arrival α)) = t := rfl

@[simp] theorem endTime_cons (t : ℕ) (a : Arrival α) (s : List (Arrival α)) :
    endTime t (a :: s) = endTime a.time s := rfl

/-- Arrivals in order, the first no earlier than `t` and no two more than `interval` apart. -/
def Close (interval : ℕ) : ℕ → List (Arrival α) → Prop
  | _, [] => True
  | t, a :: s => t ≤ a.time ∧ a.time ≤ t + interval ∧ Close interval a.time s

instance (interval : ℕ) : ∀ (t : ℕ) (s : List (Arrival α)), Decidable (Close interval t s)
  | _, [] => .isTrue trivial
  | _, a :: s =>
    have := instDecidableClose interval a.time s
    inferInstanceAs (Decidable (_ ∧ _ ∧ _))

theorem Close.append_right {t : ℕ} {s u : List (Arrival α)} (h : Close interval t (s ++ u)) :
    Close interval (endTime t s) u := by
  induction s generalizing t with
  | nil => exact h
  | cons a s ih =>
    rw [endTime_cons]
    exact ih h.2.2

theorem Close.append_left {t : ℕ} {s u : List (Arrival α)} (h : Close interval t (s ++ u)) :
    Close interval t s := by
  induction s generalizing t with
  | nil => trivial
  | cons a s ih => exact ⟨h.1, h.2.1, ih h.2.2⟩

theorem Close.le_endTime {t : ℕ} {s : List (Arrival α)} (h : Close interval t s) :
    t ≤ endTime t s := by
  induction s generalizing t with
  | nil => exact Nat.le_refl t
  | cons a s ih =>
    rw [endTime_cons]
    exact h.1.trans (ih h.2.2)

theorem Close.time_le_endTime {t : ℕ} {s : List (Arrival α)} (h : Close interval t s) :
    ∀ a ∈ s, t ≤ a.time ∧ a.time ≤ endTime t s := by
  induction s generalizing t with
  | nil => simp
  | cons b s ih =>
    intro a ha
    rw [endTime_cons]
    rcases List.mem_cons.mp ha with rfl | ha
    · exact ⟨h.1, h.2.2.le_endTime⟩
    · obtain ⟨h1, h2⟩ := ih h.2.2 a ha
      exact ⟨h.1.trans h1, h2⟩

theorem endTime_append (t : ℕ) (s u : List (Arrival α)) :
    endTime t (s ++ u) = endTime (endTime t s) u := by
  induction s generalizing t with
  | nil => rfl
  | cons a s ih => simp [ih]

theorem endTime_le {t u : ℕ} {s : List (Arrival α)} (hne : s ≠ []) (h : ∀ a ∈ s, a.time ≤ u) :
    endTime t s ≤ u := by
  induction s generalizing t with
  | nil => exact absurd rfl hne
  | cons a s ih =>
    cases s with
    | nil => exact h a (by simp)
    | cons b s => exact ih (t := a.time) (by simp) fun c hc => h c (List.mem_cons_of_mem _ hc)

/-- Items sent from time `t` on, each so long after the one before it. -/
def paced (t : ℕ) (gap : ℕ → ℕ) : List α → List (Arrival α)
  | [] => []
  | a :: as => ⟨t + gap 0, a⟩ :: paced (t + gap 0) (fun k => gap (k + 1)) as

@[simp] theorem items_paced (t : ℕ) (gap : ℕ → ℕ) (as : List α) : items (paced t gap as) = as := by
  induction as generalizing t gap with
  | nil => rfl
  | cons a as ih => exact congrArg (a :: ·) (ih _ _)

theorem close_paced {gap : ℕ → ℕ} (h : ∀ k, gap k ≤ interval) (t : ℕ) (as : List α) :
    Close interval t (paced t gap as) := by
  induction as generalizing t gap with
  | nil => trivial
  | cons a as ih =>
    exact ⟨Nat.le_add_right _ _, Nat.add_le_add_left (h 0) t, ih (fun k => h (k + 1)) _⟩

theorem endTime_paced_le {gap : ℕ → ℕ} (h : ∀ k, gap k ≤ interval) (t : ℕ) (as : List α) :
    endTime t (paced t gap as) ≤ t + as.length * interval := by
  induction as generalizing t gap with
  | nil => simp [paced]
  | cons a as ih =>
    have h0 := h 0
    calc endTime t (paced t gap (a :: as))
        ≤ t + gap 0 + as.length * interval := ih (fun k => h (k + 1)) (t + gap 0)
      _ ≤ t + (as.length + 1) * interval := by rw [Nat.succ_mul]; omega

/-- A transmission: it is not empty and has no pause of more than `interval`. -/
structure Burst (α : Type*) (interval : ℕ) where
  first : Arrival α
  rest : List (Arrival α)
  close : Close interval first.time rest

namespace Burst

def arrivals (b : Burst α interval) : List (Arrival α) := b.first :: b.rest

def start (b : Burst α interval) : ℕ := b.first.time

def finish (b : Burst α interval) : ℕ := endTime b.start b.rest

theorem start_le_finish (b : Burst α interval) : b.start ≤ b.finish := b.close.le_endTime

/-- A first item and the rest behind it, with pauses of at most `interval`. -/
def sendPaced (t : ℕ) (gap : ℕ → ℕ) (h : ∀ k, gap (k + 1) ≤ interval) (first : α) (rest : List α) :
    Burst α interval :=
  ⟨⟨t + gap 0, first⟩, paced (t + gap 0) (fun k => gap (k + 1)) rest, close_paced h _ _⟩

section Paced
variable {t : ℕ} {gap : ℕ → ℕ} (h : ∀ k, gap (k + 1) ≤ interval) (first : α) (rest : List α)

@[simp] theorem items_sendPaced : items (sendPaced t gap h first rest).arrivals = first :: rest :=
  congrArg (first :: ·) (items_paced ..)

@[simp] theorem start_sendPaced : (sendPaced t gap h first rest).start = t + gap 0 := rfl

theorem finish_sendPaced_le :
    (sendPaced t gap h first rest).finish ≤ t + gap 0 + rest.length * interval :=
  endTime_paced_le h _ _

end Paced

/-- Everything at once. -/
def instant (interval t : ℕ) (first : α) (rest : List α) : Burst α interval where
  first := ⟨t, first⟩
  rest := rest.map fun a => ⟨t, a⟩
  close := by
    induction rest with
    | nil => trivial
    | cons a rest ih => exact ⟨Nat.le_refl _, Nat.le_add_right _ _, ih⟩

@[simp] theorem items_instant (interval t : ℕ) (first : α) (rest : List α) :
    items (instant interval t first rest).arrivals = first :: rest := by
  simp [instant, arrivals, items, Function.comp_def]

@[simp] theorem start_instant (interval t : ℕ) (first : α) (rest : List α) :
    (instant interval t first rest).start = t := rfl

@[simp] theorem finish_instant (interval t : ℕ) (first : α) (rest : List α) :
    (instant interval t first rest).finish = t := by
  simp only [finish, start, instant]
  induction rest with
  | nil => rfl
  | cons a rest ih => exact ih

end Burst

def stream (bs : List (Burst α interval)) : List (Arrival α) := bs.flatMap Burst.arrivals

@[simp] theorem stream_nil : stream ([] : List (Burst α interval)) = [] := rfl

@[simp] theorem stream_cons (b : Burst α interval) (bs : List (Burst α interval)) :
    stream (b :: bs) = b.arrivals ++ stream bs := List.flatMap_cons

/-- The first burst begins between `lo` and `hi`, and each of the others more than `gap` and
at most `patience` after the end of the one before it. -/
def Spaced (gap patience : ℕ) : ℕ → ℕ → List (Burst α interval) → Prop
  | _, _, [] => True
  | lo, hi, b :: bs => lo ≤ b.start ∧ b.start ≤ hi ∧
      Spaced gap patience (b.finish + gap + 1) (b.finish + patience) bs

/-- Nothing of the bursts behind has arrived by the time the first may begin. -/
theorem Spaced.head_time {lo hi : ℕ} {bs : List (Burst α interval)}
    (h : Spaced gap patience lo hi bs) : ∀ a ∈ (stream bs).head?, lo ≤ a.time ∧ a.time ≤ hi := by
  cases bs with
  | nil => simp
  | cons b bs =>
    intro a ha
    obtain rfl : b.first = a := by simpa [Burst.arrivals] using ha
    exact ⟨h.1, h.2.1⟩

theorem Spaced.mono {lo lo' hi hi' : ℕ} {bs : List (Burst α interval)}
    (h : Spaced gap patience lo hi bs) (hlo : lo' ≤ lo) (hhi : hi ≤ hi') :
    Spaced gap patience lo' hi' bs := by
  cases bs with
  | nil => trivial
  | cons b bs => exact ⟨hlo.trans h.1, h.2.1.trans hhi, h.2.2⟩

end ModbusSecurity.TimedStreams
