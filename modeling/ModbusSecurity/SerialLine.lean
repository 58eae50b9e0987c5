import ModbusSecurity.SecureFraming
import ModbusSecurity.TimedStreams
import ModbusSecurity.TransitionRuns

/-! # The serial line

The POSIX half of `serial_port.c`. Bytes arrive on the line at given times, in
microseconds, and wait in the driver until they are read. What the system does to each pass
of the read loop is an explicit choice: delays, interruptions by a signal and failures. -/
namespace ModbusSecurity.SerialLine
open ByteStrings TimedStreams TransitionRuns

/-! ### Rates -/

def modbusT35MinGapUs : ℕ := 20000

/-- `modbus_t35_us` for a positive rate; `3.5 * 11.0 * 1000000.0` is exact in a double, and
the cast cuts the quotient off. -/
def modbusT35Us (baud : ℕ) : ℕ :=
  let t35 := if baud > 19200 then 1750 else 38500000 / baud
  if t35 > modbusT35MinGapUs then t35 else modbusT35MinGapUs

/-- The rates that `baud_to_speed` has a constant for. -/
def supportedBauds : List ℤ := [1200, 2400, 4800, 9600, 19200, 38400, 57600, 115200, 230400]

/-! ### One pass of the read loop -/

inductive SelectCall where
  | returns
  /-- The line has hung up, which counts as readable also while no byte waits. -/
  | wakes (after : ℕ)
  /-- `EINTR`, so long after the call. -/
  | interrupted (after : ℕ)
  | fails

inductive ReadCall where
  | returns
  | interrupted
  | fails
  | hangsUp

/-- What happens to one pass: it is called `wait` behind the last one, its timer runs `late`
over, and it goes on `lag` behind the end of `select`. -/
structure Turn where
  wait : ℕ := 0
  late : ℕ := 0
  lag : ℕ := 0
  select : SelectCall := .returns
  read : ReadCall := .returns

/-- The line at one end; passes behind `turns` run without a delay. -/
structure Line where
  now : ℕ
  unread : List (Arrival Byte)
  turns : List Turn

def firstByteTimeoutUs : ℕ := 30 * 1000000

inductive Stop where
  | timeout
  | hangup
  | failure
  | full
  deriving DecidableEq

/-- How a pass ends: with `continue`, with bytes, or with the end of the loop. -/
inductive Pass where
  | again (line : Line)
  | took (got : List (Arrival Byte)) (line : Line)
  | ends (stop : Stop) (line : Line)

/-- The call of `read`, at the time that `line` shows. -/
def readCall (room : ℕ) (line : Line) : ReadCall → Pass
  | .interrupted => .again line
  | .fails => .ends .failure line
  | .hangsUp => .ends .hangup line
  | .returns =>
    let (got, unread) := takeArrived line.now room line.unread
    if got = [] then .ends .hangup line else .took got { line with unread := unread }

/-- `select` with the given timeout, and `read` if it shows a byte or a hang-up. -/
def selectAndRead (timeout room : ℕ) (line : Line) (turn : Turn) : Pass :=
  let start := line.now + turn.wait
  match turn.select with
  | .interrupted after => .again { line with now := start + after }
  | .fails => .ends .failure { line with now := start }
  | .wakes after => readCall room { line with now := start + after + turn.lag } turn.read
  | .returns =>
    let deadline := start + timeout + turn.late
    match line.unread with
    | [] => .ends .timeout { line with now := deadline + turn.lag }
    | first :: _ =>
      if deadline < first.time then .ends .timeout { line with now := deadline + turn.lag }
      else readCall room { line with now := max start first.time + turn.lag } turn.read

def pass (timeout room : ℕ) (line : Line) : Pass :=
  match line.turns with
  | [] => selectAndRead timeout room line {}
  | turn :: turns => selectAndRead timeout room { line with turns := turns } turn

/-- What a pass can do: it never changes the order of the bytes or makes one up, and it times
out only in front of a silence. -/
inductive PassSpec (timeout room : ℕ) (line : Line) : Pass → Prop
  | again (l : Line) (unread : l.unread = line.unread) (now : line.now ≤ l.now)
      (turns : l.turns <:+ line.turns) (shorter : l.turns.length < line.turns.length) :
      PassSpec timeout room line (.again l)
  | took (got : List (Arrival Byte)) (l : Line) (nonempty : got ≠ []) (fits : got.length ≤ room)
      (unread : got ++ l.unread = line.unread) (now : line.now ≤ l.now)
      (turns : l.turns <:+ line.turns) (past : ∀ a ∈ got, a.time ≤ l.now) :
      PassSpec timeout room line (.took got l)
  | ends (stop : Stop) (l : Line) (unread : l.unread = line.unread) (now : line.now ≤ l.now)
      (turns : l.turns <:+ line.turns) (full : stop ≠ .full)
      (silent : stop = .timeout → ∀ a ∈ line.unread.head?, line.now + timeout < a.time) :
      PassSpec timeout room line (.ends stop l)

section Passes
variable {timeout room : ℕ} {line : Line}

/-- A `read` that comes later, and from which only a turn that is used up goes back to `select`. -/
theorem readCall_spec {now : ℕ} {turns : List Turn} {read : ReadCall} (hnow : line.now ≤ now)
    (hsub : line.turns <:+ turns)
    (hturn : line.turns.length < turns.length ∨ read ≠ .interrupted) :
    PassSpec timeout room { line with turns := turns } (readCall room { line with now := now } read) := by
  cases read with
  | returns =>
    rw [readCall]
    simp only
    split
    · exact .ends _ _ rfl hnow hsub (by simp) (by simp)
    · rename_i hne
      exact .took _ _ hne (length_takeArrived ..) (takeArrived_append ..) hnow hsub
        fun a ha => time_of_mem_takeArrived ha
  | interrupted => exact .again _ rfl hnow hsub (hturn.resolve_right fun h => h rfl)
  | fails => exact .ends _ _ rfl hnow hsub (by simp) (by simp)
  | hangsUp => exact .ends _ _ rfl hnow hsub (by simp) (by simp)

/-- A turn that has been taken off the list, or one that lets both calls return. -/
theorem selectAndRead_spec {turn : Turn} {turns : List Turn} (hsub : line.turns <:+ turns)
    (hturn : line.turns.length < turns.length ∨ turn = {}) :
    PassSpec timeout room { line with turns := turns } (selectAndRead timeout room line turn) := by
  have hread : line.turns.length < turns.length ∨ turn.read ≠ .interrupted :=
    hturn.imp_right fun h => by simp [h]
  rw [selectAndRead]
  rcases hs : turn.select with _ | after | after | _
  · simp only
    cases hu : line.unread with
    | nil => exact .ends _ _ rfl (by simp only; omega) hsub (by simp) (by simp)
    | cons first rest =>
      simp only
      split
      · rename_i hlate
        refine .ends _ _ rfl (by simp only; omega) hsub (by simp) fun _ a ha => ?_
        obtain rfl : first = a := by simpa [hu] using ha
        simp only
        omega
      · rw [← hu]
        exact readCall_spec (by omega) hsub hread
  · exact readCall_spec (by omega) hsub hread
  · refine .again _ rfl (by simp only; omega) hsub (hturn.resolve_right fun h => ?_)
    simp [h] at hs
  · exact .ends _ _ rfl (by simp only; omega) hsub (by simp) (by simp)

theorem pass_spec (timeout room : ℕ) (line : Line) :
    PassSpec timeout room line (pass timeout room line) := by
  obtain ⟨now, unread, turns⟩ := line
  cases turns with
  | nil =>
    let line : Line := ⟨now, unread, []⟩
    have hsub : line.turns <:+ [] := List.suffix_refl _
    exact selectAndRead_spec hsub (.inr rfl)
  | cons turn turns =>
    let line : Line := ⟨now, unread, turns⟩
    have hsub : line.turns <:+ turn :: turns := List.suffix_cons ..
    exact selectAndRead_spec hsub (.inl (Nat.lt_succ_self _))

end Passes

/-! ### The read loop -/

structure ReadResult where
  buf : List (Arrival Byte)
  stop : Stop
  line : Line

/-- What the caller gets; `none` is `-1`, and the bytes read by then are lost. -/
def ReadResult.ret (r : ReadResult) : Option Bytes :=
  if r.stop = .failure then none else some (items r.buf)

/-- A pass that does not end the loop uses up a turn or takes bytes. -/
def Line.size (line : Line) : ℕ := line.turns.length + line.unread.length

def timeoutUs (interval : ℕ) (buf : List (Arrival Byte)) : ℕ :=
  if buf = [] then firstByteTimeoutUs else interval

def readLoop (interval max_len : ℕ) (line : Line) (buf : List (Arrival Byte)) : ReadResult :=
  match _h : pass (timeoutUs interval buf) (max_len - buf.length) line with
  | .again l => readLoop interval max_len l buf
  | .took got l =>
    if max_len ≤ (buf ++ got).length then ⟨buf ++ got, .full, l⟩
    else readLoop interval max_len l (buf ++ got)
  | .ends stop l => ⟨buf, stop, l⟩
termination_by line.size
decreasing_by
  all_goals
    have hspec := pass_spec (timeoutUs interval buf) (max_len - buf.length) line
    rw [_h] at hspec
    simp only [Line.size]
  · cases hspec with
    | again l unread now turns shorter =>
      rw [unread]
      omega
  · cases hspec with
    | took got l nonempty fits unread now turns past =>
      have := turns.length_le
      have := List.length_pos_iff.mpr nonempty
      rw [← unread, List.length_append]
      omega

section Equations
variable {interval max_len : ℕ} {line l : Line} {buf : List (Arrival Byte)}

theorem readLoop_of_ends {stop : Stop}
    (h : pass (timeoutUs interval buf) (max_len - buf.length) line = .ends stop l) :
    readLoop interval max_len line buf = ⟨buf, stop, l⟩ := by
  rw [readLoop]
  split <;> rename_i heq <;> rw [h] at heq <;> cases heq
  rfl

theorem readLoop_of_took {got : List (Arrival Byte)}
    (h : pass (timeoutUs interval buf) (max_len - buf.length) line = .took got l) :
    readLoop interval max_len line buf =
      if max_len ≤ (buf ++ got).length then ⟨buf ++ got, .full, l⟩
      else readLoop interval max_len l (buf ++ got) := by
  rw [readLoop]
  split <;> rename_i heq <;> rw [h] at heq <;> cases heq
  rfl

end Equations

def serialPortRead (interval max_len : ℕ) (line : Line) : ReadResult :=
  readLoop interval max_len line []

/-- `tcflush` of what has been received. -/
def serialPortDrain (line : Line) : Line := { line with unread := later line.now line.unread }

theorem serialPortDrain_of_empty {line : Line} (h : line.unread = []) : serialPortDrain line = line := by
  obtain ⟨now, unread, turns⟩ := line
  obtain rfl : unread = [] := h
  rfl

/-! ### Writing -/

inductive WriteCall where
  | writes (count : ℕ)
  | interrupted
  | fails

/-- `serial_port_write`: whether it returns 0, the bytes that went out, and the calls that
are left; calls behind the list write all they are given. -/
def serialPortWrite : List WriteCall → Bytes → Bool × Bytes × List WriteCall
  | calls, [] => (true, [], calls)
  | [], buf => (true, buf, [])
  | .writes count :: calls, buf =>
    let (ok, out, rest) := serialPortWrite calls (buf.drop count)
    (ok, buf.take count ++ out, rest)
  | .interrupted :: calls, buf => serialPortWrite calls buf
  | .fails :: calls, _ => (false, [], calls)

/-- However the calls split it up, what goes out is a front of the buffer, and all of it if
the function returns 0. -/
theorem serialPortWrite_out (calls : List WriteCall) (buf : Bytes) :
    (serialPortWrite calls buf).2.1 <+: buf ∧
      ((serialPortWrite calls buf).1 = true → (serialPortWrite calls buf).2.1 = buf) := by
  induction calls generalizing buf with
  | nil => cases buf <;> simp [serialPortWrite]
  | cons call calls ih =>
    cases buf with
    | nil => simp [serialPortWrite]
    | cons byte buf =>
      cases call with
      | writes count =>
        obtain ⟨hfront, hall⟩ := ih ((byte :: buf).drop count)
        simp only [serialPortWrite]
        refine ⟨?_, fun hok => by rw [hall hok, List.take_append_drop]⟩
        obtain ⟨rest, hrest⟩ := hfront
        exact ⟨rest, by rw [List.append_assoc, hrest, List.take_append_drop]⟩
      | interrupted => exact ih (byte :: buf)
      | fails => simp [serialPortWrite]

theorem serialPortWrite_of_no_failure {calls : List WriteCall} (h : .fails ∉ calls) (buf : Bytes) :
    (serialPortWrite calls buf).1 = true ∧ .fails ∉ (serialPortWrite calls buf).2.2 := by
  induction calls generalizing buf with
  | nil => cases buf <;> simp [serialPortWrite]
  | cons call calls ih =>
    have hrest : .fails ∉ calls := fun hmem => h (List.mem_cons_of_mem _ hmem)
    cases buf with
    | nil => exact ⟨rfl, h⟩
    | cons byte buf =>
      cases call with
      | writes count => exact ih hrest _
      | interrupted => exact ih hrest _
      | fails => simp at h

/-! ### Any environment -/

/-- The bytes that were read are the next ones of the stream, no more than there is room for;
a read that timed out stopped in front of a silence longer than its timeout. -/
structure Framed (interval max_len : ℕ) (line : Line) (r : ReadResult) : Prop where
  unread : r.buf ++ r.line.unread = line.unread
  length : r.buf.length ≤ max_len
  full : r.stop = .full → r.buf.length = max_len
  silent : r.stop = .timeout → ∀ b ∈ r.line.unread.head?,
    (r.buf = [] → line.now + firstByteTimeoutUs < b.time) ∧ ∀ a ∈ r.buf, a.time + interval < b.time

theorem readLoop_framed (interval max_len : ℕ) (line : Line) (buf : List (Arrival Byte))
    (hlen : buf.length ≤ max_len) (hpast : ∀ a ∈ buf, a.time ≤ line.now) :
    Framed interval max_len { line with unread := buf ++ line.unread }
      (readLoop interval max_len line buf) := by
  fun_induction readLoop with
  | case1 line buf l h ih =>
    have hspec := pass_spec (timeoutUs interval buf) (max_len - buf.length) line
    rw [h] at hspec
    cases hspec with
    | again l unread now turns shorter =>
      obtain ⟨hu, hl, hf, hs⟩ := ih hlen fun a ha => (hpast a ha).trans now
      refine ⟨unread ▸ hu, hl, hf, fun ht b hb => ?_⟩
      obtain ⟨h1, h2⟩ := hs ht b hb
      exact ⟨fun he => lt_of_le_of_lt (Nat.add_le_add_right now _) (h1 he), h2⟩
  | case2 line buf got l h hfull =>
    have hspec := pass_spec (timeoutUs interval buf) (max_len - buf.length) line
    rw [h] at hspec
    cases hspec with
    | took got l nonempty fits unread now turns past =>
      rw [List.length_append] at hfull
      exact ⟨by simp [← unread], by simp; omega, fun _ => by simp; omega, by simp⟩
  | case3 line buf got l h hmore ih =>
    have hspec := pass_spec (timeoutUs interval buf) (max_len - buf.length) line
    rw [h] at hspec
    cases hspec with
    | took got l nonempty fits unread now turns past =>
      rw [List.length_append] at hmore
      obtain ⟨hu, hl, hf, hs⟩ := ih (by simp; omega) fun a ha =>
        (List.mem_append.mp ha).elim (fun ha => (hpast a ha).trans now) (past a)
      refine ⟨by rw [hu, List.append_assoc, unread], hl, hf, fun ht b hb => ?_⟩
      obtain ⟨h1, h2⟩ := hs ht b hb
      exact ⟨fun he => lt_of_le_of_lt (Nat.add_le_add_right now _) (h1 he), h2⟩
  | case4 line buf stop l h =>
    have hspec := pass_spec (timeoutUs interval buf) (max_len - buf.length) line
    rw [h] at hspec
    cases hspec with
    | ends stop l unread now turns full silent =>
      refine ⟨by rw [unread], hlen, fun hs => absurd hs full, fun hs b hb => ?_⟩
      have hb' := silent hs b (unread ▸ hb)
      refine ⟨fun he => by simpa [timeoutUs, show buf = [] from he] using hb', fun a ha => ?_⟩
      have hne : buf ≠ [] := List.ne_nil_of_mem ha
      have := hpast a ha
      rw [timeoutUs, if_neg hne] at hb'
      omega

/-- What a program does with the port while it is open. -/
inductive Op where
  | read (max_len : ℕ)
  | drain
  | pause (us : ℕ)

inductive Event where
  | read (max_len : ℕ) (before : Line) (r : ReadResult)
  | drained (dropped : List (Arrival Byte))
  | paused

def perform (interval : ℕ) (line : Line) : Op → Event × Line
  | .read max_len =>
    let r := serialPortRead interval max_len line
    (.read max_len line r, r.line)
  | .drain => (.drained (arrived line.now line.unread), serialPortDrain line)
  | .pause us => (.paused, { line with now := line.now + us })

def session (interval : ℕ) (line : Line) (ops : List Op) : List Event × Line :=
  run (fun s op => (s.1 ++ [(perform interval s.2 op).1], (perform interval s.2 op).2)) ([], line) ops

def Event.taken : Event → List (Arrival Byte)
  | .read _ _ r => r.buf
  | .drained dropped => dropped
  | .paused => []

def Event.Sound (interval : ℕ) : Event → Prop
  | .read max_len before r => Framed interval max_len before r
  | _ => True

theorem perform_sound (interval : ℕ) (line : Line) (op : Op) :
    (perform interval line op).1.taken ++ (perform interval line op).2.unread = line.unread ∧
      (perform interval line op).1.Sound interval := by
  cases op with
  | read max_len =>
    have hframed := readLoop_framed interval max_len line [] (Nat.zero_le _) (by simp)
    exact ⟨hframed.unread, hframed⟩
  | drain => exact ⟨arrived_append_later .., trivial⟩
  | pause us => exact ⟨rfl, trivial⟩

/-- Whatever happens on the line and to the process: each byte is read or drained once and in
the order of its arrival, no read brings more than it has room for, and none ends with a
timeout inside a transmission without pauses longer than the interval. -/
theorem reads_keep_frames (interval : ℕ) (line : Line) (ops : List Op) :
    let s := session interval line ops
    s.1.flatMap Event.taken ++ s.2.unread = line.unread ∧ ∀ e ∈ s.1, e.Sound interval := by
  let Inv : List Event × Line → Prop := fun s =>
    s.1.flatMap Event.taken ++ s.2.unread = line.unread ∧ ∀ e ∈ s.1, e.Sound interval
  let ok : List Event × Line → Op → Prop := fun _ _ => True
  show Inv (session interval line ops)
  apply @invariant_run _ _ _ ok Inv
  · rintro s op ⟨htaken, hsound⟩ -
    obtain ⟨hunread, hnew⟩ := perform_sound interval s.2 op
    refine ⟨?_, fun e he => ?_⟩
    · rw [List.flatMap_append, List.append_assoc, List.flatMap_singleton, hunread, htaken]
    · rcases List.mem_append.mp he with he | he
      · exact hsound e he
      · rw [List.mem_singleton.mp he]
        exact hnew
  · exact ⟨rfl, by simp⟩
  · exact always_of_forall (by simp) _

/-! ### A process that keeps up -/

/-- No call fails or is interrupted, and the pass runs at most `lateness` behind. -/
def Turn.Prompt (lateness : ℕ) (turn : Turn) : Prop :=
  turn.select = .returns ∧ turn.read = .returns ∧ turn.wait + turn.late + turn.lag ≤ lateness

def Line.Prompt (lateness : ℕ) (line : Line) : Prop := ∀ turn ∈ line.turns, turn.Prompt lateness

/-- The loop inside a burst: `rest` of it is still to be read, the part in front ended at `t`,
and what follows is far behind. -/
structure Reading (interval lateness max_len t : ℕ) (line : Line) (buf rest after : List (Arrival Byte)) :
    Prop where
  prompt : line.Prompt lateness
  unread : line.unread = rest ++ after
  fits : buf.length + rest.length ≤ max_len
  close : Close interval t rest
  reach : ∀ a ∈ rest.head?, line.now ≤ a.time ∧ a.time ≤ line.now + timeoutUs interval buf
  spent : rest = [] → buf ≠ [] ∧ buf.length < max_len ∧ t ≤ line.now ∧ line.now ≤ t + lateness
  quiet : ∀ b ∈ after.head?, endTime t rest + interval + 2 * lateness < b.time

section Bursts
variable {interval lateness max_len t : ℕ} {line : Line} {buf rest after : List (Arrival Byte)}

/-- A pass in a prompt run is one with a prompt turn. -/
theorem pass_prompt (h : line.Prompt lateness) (timeout room : ℕ) :
    ∃ turn turns, turn.Prompt lateness ∧ (∀ t ∈ turns, t.Prompt lateness) ∧
      pass timeout room line = selectAndRead timeout room { line with turns := turns } turn := by
  obtain ⟨now, unread, turns⟩ := line
  cases turns with
  | nil => exact ⟨{}, [], ⟨rfl, rfl, Nat.zero_le _⟩, by simp, rfl⟩
  | cons turn turns => exact ⟨turn, turns, h turn (by simp), fun t ht => h t (by simp [ht]), rfl⟩

/-- In front of more of the burst a pass brings some of it. -/
theorem Reading.took {a : Arrival Byte}
    (h : Reading interval lateness max_len t line buf (a :: rest) after) :
    ∃ got rest' l, pass (timeoutUs interval buf) (max_len - buf.length) line = .took got l ∧
      got ≠ [] ∧ a :: rest = got ++ rest' ∧
      (¬ max_len ≤ (buf ++ got).length →
        Reading interval lateness max_len (endTime t got) l (buf ++ got) rest' after) ∧
      (max_len ≤ (buf ++ got).length → rest' = [] ∧ l.Prompt lateness ∧ l.unread = after ∧
        endTime t got ≤ l.now ∧ l.now ≤ endTime t got + lateness) := by
  obtain ⟨turn, turns, ⟨hselect, hread, hlate⟩, hturns, hpass⟩ := pass_prompt h.prompt
    (timeoutUs interval buf) (max_len - buf.length)
  obtain ⟨hnow, hreach⟩ := h.reach a rfl
  have hfits := h.fits
  have hend := (Close.time_le_endTime h.close a (by simp)).2
  rw [List.length_cons] at hfits
  let now := max (line.now + turn.wait) a.time + turn.lag
  have hlo : a.time ≤ now := by simp only [now]; omega
  have hhi : now ≤ a.time + lateness := by simp only [now]; omega
  have hafter : ∀ b ∈ after.head?, now < b.time := fun b hb => by
    have := h.quiet b hb
    omega
  have hroom : (a :: rest).length ≤ max_len - buf.length := by simp; omega
  obtain ⟨got, rest', hsplit, hne, htake, hpast, hlater⟩ := takeArrived_of_later hlo hroom hafter
  have hlen : got.length + rest'.length = rest.length + 1 := by
    rw [← List.length_append, ← hsplit, List.length_cons]
  -- the part that was taken ended before `now`, and no more than `lateness` before it
  have hgot : endTime t got ≤ now := endTime_le hne hpast
  have hgot' : now ≤ endTime t got + lateness := by
    obtain ⟨b, got, rfl⟩ := List.exists_cons_of_ne_nil hne
    obtain ⟨rfl, hsplit⟩ := List.cons.inj hsplit
    have hclose := h.close
    rw [hsplit] at hclose
    have := hclose.append_left.time_le_endTime a (by simp)
    omega
  refine ⟨got, rest', ⟨now, rest' ++ after, turns⟩, ?_, hne, hsplit, fun hmore => ?_, fun hfull => ?_⟩
  · rw [hpass, selectAndRead, hselect]
    simp only [h.unread, List.cons_append]
    rw [if_neg (by omega), hread, readCall]
    simp only [← List.cons_append]
    rw [show takeArrived now (max_len - buf.length) (a :: rest ++ after) = _ from htake]
    exact if_neg hne
  · have hclose := h.close
    rw [hsplit] at hclose
    refine ⟨hturns, rfl, by simp; omega, hclose.append_right, fun b hb => ⟨(hlater b hb).le, ?_⟩,
      fun he => ⟨by simp [hne], by omega, hgot, hgot'⟩, fun b hb => ?_⟩
    · rw [timeoutUs, if_neg (by simp [hne])]
      obtain ⟨rest', rfl⟩ : ∃ u, rest' = b :: u := List.head?_eq_some_iff.mp hb
      exact hclose.append_right.2.1.trans (Nat.add_le_add_right hgot _)
    · have := h.quiet b hb
      rwa [hsplit, endTime_append] at this
  · rw [List.length_append] at hfull
    obtain rfl : rest' = [] := List.length_eq_zero_iff.mp (by omega)
    exact ⟨rfl, hturns, rfl, hgot, hgot'⟩

/-- Behind the burst the pass times out. -/
theorem Reading.ends (h : Reading interval lateness max_len t line buf [] after) :
    ∃ l, pass (timeoutUs interval buf) (max_len - buf.length) line = .ends .timeout l ∧
      l.Prompt lateness ∧ l.unread = after ∧ t ≤ l.now ∧ l.now ≤ t + interval + 2 * lateness := by
  obtain ⟨turn, turns, ⟨hselect, hread, hlate⟩, hturns, hpass⟩ := pass_prompt h.prompt
    (timeoutUs interval buf) (max_len - buf.length)
  obtain ⟨hne, hroom, hlo, hhi⟩ := h.spent rfl
  have hquiet := h.quiet
  have hunread : line.unread = after := h.unread
  rw [endTime_nil] at hquiet
  rw [hpass, selectAndRead, hselect, hunread, timeoutUs, if_neg hne]
  cases after with
  | nil => exact ⟨_, rfl, hturns, rfl, by simp only; omega, by simp only; omega⟩
  | cons b after =>
    have := hquiet b rfl
    simp only
    rw [if_pos (by omega)]
    exact ⟨_, rfl, hturns, rfl, by simp only; omega, by simp only; omega⟩

/-- A burst is read as a whole, and the line is left in front of the next one. -/
theorem readLoop_burst (h : Reading interval lateness max_len t line buf rest after) :
    let r := readLoop interval max_len line buf
    r.buf = buf ++ rest ∧ r.stop ≠ .failure ∧ r.line.Prompt lateness ∧ r.line.unread = after ∧
      endTime t rest ≤ r.line.now ∧ r.line.now ≤ endTime t rest + interval + 2 * lateness := by
  induction hn : rest.length using Nat.strong_induction_on generalizing t line buf rest with
  | _ n ih =>
    cases rest with
    | nil =>
      obtain ⟨l, hpass, hprompt, hunread, hlo, hhi⟩ := h.ends
      rw [readLoop_of_ends hpass]
      exact ⟨by simp, by simp, hprompt, hunread, hlo, hhi⟩
    | cons a rest =>
      obtain ⟨got, rest', l, hpass, hne, hsplit, hmore, hfull⟩ := h.took
      rw [readLoop_of_took hpass, hsplit, endTime_append]
      by_cases hlen : max_len ≤ (buf ++ got).length
      · obtain ⟨rfl, hprompt, hunread, hlo, hhi⟩ := hfull hlen
        rw [if_pos hlen]
        exact ⟨by simp, by simp, hprompt, hunread, hlo, by simp only [endTime_nil]; omega⟩
      · have hshort : rest'.length < n := by
          have := List.length_pos_iff.mpr hne
          rw [← hn, hsplit, List.length_append]
          omega
        obtain ⟨hbuf, hrest⟩ := ih _ hshort (hmore hlen) rfl
        rw [if_neg hlen]
        exact ⟨by rw [hbuf, List.append_assoc], hrest⟩

/-- `serial_port_read` of a burst that begins within thirty seconds. -/
theorem serialPortRead_burst {b : Burst Byte interval} {after : List (Arrival Byte)}
    (hprompt : line.Prompt lateness) (hunread : line.unread = b.arrivals ++ after)
    (hfits : b.arrivals.length ≤ max_len) (hlo : line.now ≤ b.start)
    (hhi : b.start ≤ line.now + firstByteTimeoutUs)
    (hquiet : ∀ a ∈ after.head?, b.finish + interval + 2 * lateness < a.time) :
    let r := serialPortRead interval max_len line
    r.ret = some (items b.arrivals) ∧ r.line.Prompt lateness ∧ r.line.unread = after ∧
      b.finish ≤ r.line.now ∧ r.line.now ≤ b.finish + interval + 2 * lateness := by
  have hread : Reading interval lateness max_len b.start line [] b.arrivals after := by
    refine ⟨hprompt, hunread, by simpa using hfits,
      ⟨Nat.le_refl _, Nat.le_add_right _ _, b.close⟩, fun a ha => ?_, by simp [Burst.arrivals], hquiet⟩
    obtain rfl : b.first = a := by simpa [Burst.arrivals] using ha
    rw [timeoutUs, if_pos rfl]
    exact ⟨hlo, hhi⟩
  obtain ⟨hbuf, hstop, hp, hu, h1, h2⟩ := readLoop_burst hread
  refine ⟨?_, hp, hu, h1, h2⟩
  rw [ReadResult.ret, serialPortRead, if_neg hstop, hbuf, List.nil_append]

/-- What so many reads in a row return. -/
def readMany (interval max_len : ℕ) : ℕ → Line → List (Option Bytes) × Line
  | 0, line => ([], line)
  | n + 1, line =>
    let r := serialPortRead interval max_len line
    let (rs, line) := readMany interval max_len n r.line
    (r.ret :: rs, line)

/-- The bursts on the line are still to come. -/
structure Coming (lateness gap max_len : ℕ) (line : Line) (bs : List (Burst Byte interval)) :
    Prop where
  prompt : line.Prompt lateness
  unread : line.unread = stream bs
  fits : ∀ b ∈ bs, b.arrivals.length ≤ max_len
  spaced : Spaced gap firstByteTimeoutUs line.now (line.now + firstByteTimeoutUs) bs

variable {gap : ℕ} {b : Burst Byte interval} {bs : List (Burst Byte interval)}

/-- One of them is read, and the reader is back before the next one begins. -/
theorem Coming.read (h : Coming lateness gap max_len line (b :: bs))
    (hgap : interval + 2 * lateness ≤ gap) :
    let r := serialPortRead interval max_len line
    r.ret = some (items b.arrivals) ∧ Coming lateness gap max_len r.line bs ∧
      (b.finish ≤ r.line.now ∧ r.line.now ≤ b.finish + interval + 2 * lateness) ∧
      ∀ a ∈ r.line.unread.head?, r.line.now + gap < a.time + interval + 2 * lateness := by
  obtain ⟨hlo, hhi, hspaced⟩ := h.spaced
  obtain ⟨hret, hprompt, hunread, hfin, hnow⟩ := serialPortRead_burst h.prompt
    (by rw [h.unread, stream_cons]) (h.fits b (by simp)) hlo hhi
    fun a ha => Nat.lt_of_succ_le (by have := (hspaced.head_time a ha).1; omega)
  refine ⟨hret, ⟨hprompt, hunread, fun c hc => h.fits c (by simp [hc]),
    hspaced.mono (by omega) (by omega)⟩, ⟨hfin, hnow⟩, fun a ha => ?_⟩
  have := (hspaced.head_time a (hunread ▸ ha)).1
  omega

/-- In a process that runs at most `lateness` behind, reads bring back one burst each, when
the pauses between bursts exceed the interval by more than twice that and none begins later than
thirty seconds after the one before. -/
theorem reads_recover_bursts (interval lateness max_len : ℕ) (line : Line)
    (bs : List (Burst Byte interval)) (hprompt : line.Prompt lateness)
    (hunread : line.unread = stream bs) (hfits : ∀ b ∈ bs, b.arrivals.length ≤ max_len)
    (hspaced : Spaced (interval + 2 * lateness) firstByteTimeoutUs line.now
      (line.now + firstByteTimeoutUs) bs) :
    (readMany interval max_len bs.length line).1 = bs.map (fun b => some (items b.arrivals)) ∧
      (readMany interval max_len bs.length line).2.unread = [] := by
  have hcoming : Coming lateness _ max_len line bs := ⟨hprompt, hunread, hfits, hspaced⟩
  clear hprompt hunread hfits hspaced
  induction bs generalizing line with
  | nil => exact ⟨rfl, hcoming.unread⟩
  | cons b bs ih =>
    obtain ⟨hret, hrest, -, -⟩ := hcoming.read (Nat.le_refl _)
    obtain ⟨hmany, hunread⟩ := ih _ hrest
    simp only [List.length_cons, readMany, hret, hmany, List.map_cons]
    exact ⟨trivial, hunread⟩

/-- A drain before the next burst loses nothing of it. -/
theorem Coming.drain (h : Coming lateness gap max_len line bs) (busy : ℕ)
    (hbusy : ∀ a ∈ line.unread.head?, line.now + busy < a.time) :
    Coming lateness gap max_len (serialPortDrain { line with now := line.now + busy }) bs := by
  have hlater : later (line.now + busy) line.unread = line.unread := by
    cases hu : line.unread with
    | nil => rfl
    | cons a s =>
      have := hbusy a (by rw [hu]; rfl)
      simp [later, this]
  refine ⟨h.prompt, hlater.trans h.unread, h.fits, ?_⟩
  have hspaced := h.spaced
  cases bs with
  | nil => trivial
  | cons b bs =>
    have := hbusy b.first (by rw [h.unread]; rfl)
    exact ⟨this.le, hspaced.2.1.trans (by simp only [serialPortDrain]; omega), hspaced.2.2⟩

end Bursts

/-- Two bursts, the second pass 3 ms behind. -/
theorem reads_recover_bursts_two :
    let b₁ : Burst Byte 20000 := ⟨⟨500, 1⟩, [⟨9000, 2⟩, ⟨29000, 3⟩], by simp [Close]⟩
    let b₂ : Burst Byte 20000 := ⟨⟨60000, 4⟩, [], trivial⟩
    (readMany 20000 289 2 ⟨0, stream [b₁, b₂], [{}, { wait := 1000, lag := 2000 }]⟩).1 =
      [some [1, 2, 3], some [4]] := by
  intro b₁ b₂
  have hspaced : ∀ T, 60000 ≤ T → Spaced (20000 + 2 * 5000) T 0 (0 + T) [b₁, b₂] := by
    intro T hT
    simp only [Spaced, b₁, b₂, Burst.start, Burst.finish, endTime_cons, endTime_nil]
    exact ⟨by omega, by omega, by omega, by omega, trivial⟩
  refine (reads_recover_bursts 20000 5000 289 _ [b₁, b₂] ?_ rfl ?_ (hspaced _ (by decide))).1
  · simp [Line.Prompt, Turn.Prompt]
  · simp [b₁, b₂, Burst.arrivals]

end ModbusSecurity.SerialLine
