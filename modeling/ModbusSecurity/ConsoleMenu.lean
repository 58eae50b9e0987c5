import ModbusSecurity.FrameLengths
import ModbusSecurity.MultidropBus
import ModbusSecurity.RequestAgreement

/-! # The menu at the console

`main` over the text on its standard input: the option by `scanf`, the rest of its line
dropped, and the answers to the prompts by `fgets` into 64 bytes. -/
namespace ModbusSecurity.ConsoleMenu
open ByteStrings TextStreams KeyStore CounterState SecureFraming ModbusPdu SecureDemo ExchangeEffects
open LaunchPaths TransitionRuns RequestDecisions RequestAgreement
open FrameLengths (CarriesEmptyCrc accepted_cases emptyCrc_accepted)
open MultidropBus (channels_of_address startConfig)
open RestartHistory (History noPort demoArgv0 keyDirectory addrInput sentRequest keyed_start
  keyInit_step exchange_sent)

/-! ### Reading -/

def flushStdinLine (s : Bytes) : Bytes := (s.dropWhile (· ≠ ch '\n')).drop 1

/-- `scanf("%d", &input)`. Without a number the blanks and the sign before it are gone. -/
def scanfInt (s : Bytes) : Option Int32Bits × Bytes :=
  match scanD s with
  | some (v, rest) => (some v, rest)
  | none => (none, (scanSign (skipSpace s)).2)

/-- `strtol(line, NULL, 10)`. -/
def strtol (line : Bytes) : ℤ :=
  match scanNumber line with
  | none => 0
  | some ((neg, n), _) => if neg then max (-(n : ℤ)) (-2 ^ 63) else min (n : ℤ) (2 ^ 63 - 1)

/-- A line that is not blank. -/
def answer (line : Bytes) : Option Bytes := if line = [] then none else some line

/-- One prompt: `fgets`, cut at the first line end. At the end of the file nothing is answered. -/
def readAnswer (s : Bytes) : Option Bytes × Bytes :=
  match fgets 64 s with
  | none => (none, s)
  | some (line, rest) =>
    (answer ((cString line).takeWhile fun b => b ≠ ch '\r' && b ≠ ch '\n'), rest)

/-- A port that is typed is configured, unless it is a dash. -/
def portAnswer (line : Option Bytes) : Option Bool := line.map fun l => l ≠ [ch '-']

/-- The prompts of `do_env_config`; the baud rate is read and not part of the answers. -/
def envInput (isMaster : Bool) (s : Bytes) : ConfigInput × Bytes :=
  let (port, s) := readAnswer s
  let (_, s) := readAnswer s
  let (addr, s) := readAnswer s
  if isMaster then
    let (func, s) := readAnswer s
    let (start, s) := readAnswer s
    let (value, s) := readAnswer s
    (⟨portAnswer port, addr.map strtol, func.map strtol, start.map strtol, value.map strtol⟩, s)
  else (⟨portAnswer port, addr.map strtol, none, none, none⟩, s)

/-! ### The loop -/

structure Console where
  process : Process
  stdin : Bytes
  exchanges : ℕ

/-- Whether the exchange comes back: the `memcpy` of the PDU it opens stays in the buffer. -/
def returns (e : Exchange) : Bool :=
  (e.received.bind VerifyResult.outPduLen).all fun pdu_len => pdu_len ≤ maxPdu

/-- How `main` ends: by option 6, or within the `memcpy` of an exchange. -/
inductive Ended where
  | returned (c : Console)
  | overrun

section Loop
variable (P : Primitives) (ports : ℕ → SerialPort)

/-- One pass of the loop in `main`; `ports` is the serial port at each exchange. -/
def mainTurn (c : Console) : Turn Console Ended :=
  let (input, rest) := scanfInt c.stdin
  let stdin := flushStdinLine rest
  match input with
  | none => .running { c with stdin := stdin }
  | some v =>
    if v = 1 then .running ⟨menu P c.process .switchMode, stdin, c.exchanges⟩
    else if v = 2 then .running ⟨menu P c.process .keyInit, stdin, c.exchanges⟩
    else if v = 3 then .running ⟨menu P c.process .selfTest, stdin, c.exchanges⟩
    else if v = 4 then
      let (answers, stdin) := envInput c.process.isMaster stdin
      .running ⟨menu P c.process (.envConfig answers), stdin, c.exchanges⟩
    else if v = 5 then
      let (e, p) := doRunExchange P (ports c.exchanges) c.process
      if returns e then .running ⟨p, stdin, c.exchanges + 1⟩ else .stopped .overrun
    else if v = 6 then .stopped (.returned { c with stdin := stdin })
    else .running { c with stdin := stdin }

end Loop

/-! ### What is read is used up -/

section Consumption
variable {s : Bytes}

theorem length_flushStdinLine (s : Bytes) : (flushStdinLine s).length ≤ s.length - 1 := by
  have hdrop : (s.dropWhile (· ≠ ch '\n')).length ≤ s.length := (List.dropWhile_suffix _).length_le
  rw [flushStdinLine, List.length_drop]
  omega

theorem length_scanSign (s : Bytes) : (scanSign s).2.length ≤ s.length := by
  cases s with
  | nil => rfl
  | cons b s =>
    rw [scanSign]
    split
    · simp
    split
    · simp
    · rfl

theorem length_skipSpace (s : Bytes) : (skipSpace s).length ≤ s.length :=
  (List.dropWhile_suffix _).length_le

/-- A number is at least one digit. -/
theorem scanNumber_length {n : Bool × ℕ} {rest : Bytes} (h : scanNumber s = some (n, rest)) :
    rest.length < s.length := by
  have hskip := length_skipSpace s
  have hsign := length_scanSign (skipSpace s)
  simp only [scanNumber] at h
  split at h
  · cases h
  · rename_i hdigits
    cases h
    have hsplit := congrArg List.length
      (@List.takeWhile_append_dropWhile _ isDigit (scanSign (skipSpace s)).2)
    have hpos := List.length_pos_iff.mpr hdigits
    rw [List.length_append] at hsplit
    omega

theorem scanfInt_length (s : Bytes) : (scanfInt s).2.length ≤ s.length ∧
    ((scanfInt s).1.isSome → (scanfInt s).2.length < s.length) := by
  cases h : scanD s with
  | none =>
    have hrest : scanfInt s = (none, (scanSign (skipSpace s)).2) := by rw [scanfInt, h]
    rw [hrest]
    exact ⟨(length_scanSign _).trans (length_skipSpace s), nofun⟩
  | some r =>
    obtain ⟨v, rest⟩ := r
    have hrest : scanfInt s = (some v, rest) := by rw [scanfInt, h]
    obtain ⟨⟨n, rest'⟩, hscan, heq⟩ := Option.map_eq_some_iff.mp h
    obtain ⟨-, rfl⟩ := Prod.mk.inj heq
    have hlt := scanNumber_length hscan
    rw [hrest]
    exact ⟨hlt.le, fun _ => hlt⟩

theorem readAnswer_length (s : Bytes) : (readAnswer s).2.length ≤ s.length := by
  rw [readAnswer, fgets]
  split
  · exact le_rfl
  · rename_i h
    obtain ⟨-, hline⟩ := Option.ite_none_left_eq_some.mp h
    have hlength := takeLine_length 63 s
    rw [show takeLine 63 s = _ from Option.some.inj hline] at hlength
    simp only at hlength ⊢
    omega

theorem envInput_length (isMaster : Bool) (s : Bytes) :
    (envInput isMaster s).2.length ≤ s.length := by
  have h₁ := readAnswer_length s
  have h₂ := readAnswer_length (readAnswer s).2
  have h₃ := readAnswer_length (readAnswer (readAnswer s).2).2
  cases isMaster with
  | false => exact (h₃.trans h₂).trans h₁
  | true =>
    have h₄ := readAnswer_length (readAnswer (readAnswer (readAnswer s).2).2).2
    have h₅ := readAnswer_length (readAnswer (readAnswer (readAnswer (readAnswer s).2).2).2).2
    have h₆ := readAnswer_length
      (readAnswer (readAnswer (readAnswer (readAnswer (readAnswer s).2).2).2).2).2
    exact ((((h₆.trans h₅).trans h₄).trans h₃).trans h₂).trans h₁

end Consumption

section Turns
variable {P : Primitives} {ports : ℕ → SerialPort}

/-- A turn that goes on takes at most one option, and consumes a byte where there is one. -/
theorem mainTurn_cases (c : Console) :
    (∃ c', mainTurn P ports c = .running c' ∧
      (c'.process = c.process ∨ ∃ o, c'.process = menu P c.process o) ∧
      c'.stdin.length ≤ c.stdin.length - 1) ∨
    (∃ c', mainTurn P ports c = .stopped (.returned c') ∧ c'.process = c.process) ∨
    (mainTurn P ports c = .stopped .overrun ∧
      returns (doRunExchange P (ports c.exchanges) c.process).1 = false) := by
  have hscan := (scanfInt_length c.stdin).1
  unfold mainTurn
  generalize scanfInt c.stdin = r at *
  obtain ⟨input, rest⟩ := r
  have hflush : (flushStdinLine rest).length ≤ c.stdin.length - 1 :=
    (length_flushStdinLine rest).trans (Nat.sub_le_sub_right hscan 1)
  have henv := (envInput_length c.process.isMaster (flushStdinLine rest)).trans hflush
  cases input with
  | none => exact .inl ⟨_, rfl, .inl rfl, hflush⟩
  | some v =>
    simp only
    split
    · exact .inl ⟨_, rfl, .inr ⟨_, rfl⟩, hflush⟩
    split
    · exact .inl ⟨_, rfl, .inr ⟨_, rfl⟩, hflush⟩
    split
    · exact .inl ⟨_, rfl, .inr ⟨_, rfl⟩, hflush⟩
    split
    · exact .inl ⟨_, rfl, .inr ⟨_, rfl⟩, henv⟩
    split
    · split
      · exact .inl ⟨_, rfl, .inr ⟨.runExchange (ports c.exchanges), rfl⟩, hflush⟩
      · rename_i hlost
        exact .inr (.inr ⟨rfl, Bool.eq_false_iff.mpr hlost⟩)
    split
    · exact .inr (.inl ⟨_, rfl, rfl⟩)
    · exact .inl ⟨_, rfl, .inl rfl, hflush⟩

/-- At the end of the file the loop only turns. -/
theorem mainTurn_end {c : Console} (h : c.stdin = []) : mainTurn P ports c = .running c := by
  obtain ⟨process, stdin, exchanges⟩ := c
  obtain rfl : stdin = [] := h
  rfl

theorem mainTurn_running {c c' : Console} (h : mainTurn P ports c = .running c') :
    (c'.process = c.process ∨ ∃ o, c'.process = menu P c.process o) ∧
      c'.stdin.length ≤ c.stdin.length - 1 := by
  rcases @mainTurn_cases P ports c with ⟨d, hrun, hd⟩ | ⟨d, hstop, -⟩ | ⟨hstop, -⟩
  · obtain rfl : d = c' := by
      rw [hrun] at h
      injection h
    exact hd
  · rw [hstop] at h
    cases h
  · rw [hstop] at h
    cases h

/-- Whatever is typed, the process is one of a run of menu options. -/
theorem reached_by_options {c d : Console} {n : ℕ} (h : turns (mainTurn P ports) n c = .running d ∨
    turns (mainTurn P ports) n c = .stopped (.returned d)) :
    ∃ os, d.process = run (menu P) c.process os := by
  let Reached (d : Console) : Prop := ∃ os, d.process = run (menu P) c.process os
  have hkeep : ∀ d d', Reached d → mainTurn P ports d = .running d' → Reached d' := by
    rintro d d' ⟨os, hos⟩ hturn
    rcases (mainTurn_running hturn).1 with hsame | ⟨o, hmenu⟩
    · exact ⟨os, hsame.trans hos⟩
    · refine ⟨os ++ [o], ?_⟩
      rw [hmenu, hos, run_append]
      rfl
  have hstart : Reached c := ⟨[], rfl⟩
  rcases h with hrun | hstop
  · have hreached : Reached d := turns_invariant hkeep hstart hrun
    exact hreached
  · obtain ⟨k, d', hrun, hlast⟩ := stopped_by_turn hstop
    have hreached : Reached d' := turns_invariant hkeep hstart hrun
    obtain ⟨os, hos⟩ := hreached
    rcases @mainTurn_cases P ports d' with ⟨e, hturn, -⟩ | ⟨e, hturn, hsame⟩ | ⟨hturn, -⟩
    · cases hturn.symm.trans hlast
    · obtain rfl : e = d := by
        cases hturn.symm.trans hlast
        rfl
      exact ⟨os, hsame.trans hos⟩
    · cases hturn.symm.trans hlast

end Turns

/-! ### Exchanges that do not come back -/

/-- The exchange opens a frame around `FF FF`, the CRC16 of nothing. -/
def OpensEmptyCrc (P : Primitives) (port : SerialPort) (p : Process) : Prop :=
  ∃ n rx dir, (doRunExchange P port p).1.received =
      some (secureFrameVerifyAndDecrypt P n rx p.config.slaveAddr dir).1 ∧
    CarriesEmptyCrc P n rx p.config.slaveAddr dir

section Overrun
variable {P : Primitives} {p : Process}

theorem outPduLen_of_ne_ok {n : Node} {wire : Bytes} {expected_addr : Byte} {dir : KeyDirection}
    (h : (secureFrameVerifyAndDecrypt P n wire expected_addr dir).1.status ≠ .ok) :
    (secureFrameVerifyAndDecrypt P n wire expected_addr dir).1.outPduLen = none := by
  revert h
  unfold secureFrameVerifyAndDecrypt
  split
  · exact fun _ => rfl
  simp only
  split
  · exact fun _ => rfl
  split
  · exact fun _ => rfl
  split
  · exact fun _ => rfl
  split
  · exact fun _ => rfl
  split
  · exact fun _ => rfl
  · exact fun h => absurd rfl h

/-- What an exchange receives is what the decoder gives for some frame. -/
theorem received_cases (port : SerialPort) (p : Process) :
    (doRunExchange P port p).1.received = none ∨ ∃ n rx dir, (doRunExchange P port p).1.received =
      some (secureFrameVerifyAndDecrypt P n rx p.config.slaveAddr dir).1 := by
  cases hkeys : p.keysLoaded with
  | false =>
    rw [doRunExchange_unloaded hkeys]
    exact .inl rfl
  | true =>
    cases hmode : p.isMaster with
    | true =>
      rw [doRunExchange_master hkeys hmode]
      simp only [runAsMaster]
      split
      · exact .inl rfl
      split
      · exact .inl rfl
      split
      · exact .inl rfl
      split
      · exact .inl rfl
      split
      · exact .inl rfl
      · exact .inl rfl
      · exact .inr ⟨_, _, _, rfl⟩
    | false =>
      rw [doRunExchange_slave hkeys hmode]
      simp only [runAsSlave]
      split
      · split
        · exact .inl rfl
        · exact .inr ⟨_, _, _, processIncomingFrame_received _ _ _ _ _⟩
      split
      · exact .inl rfl
      split
      · exact .inl rfl
      · exact .inl rfl
      · exact .inr ⟨_, _, _, processIncomingFrame_received _ _ _ _ _⟩

/-- An exchange comes back unless it opens such a frame. -/
theorem returns_iff (port : SerialPort) (p : Process) :
    returns (doRunExchange P port p).1 = true ↔ ¬ OpensEmptyCrc P port p := by
  constructor
  · rintro hreturns ⟨n, rx, dir, hreceived, hempty⟩
    obtain ⟨-, hpduLen, -⟩ := emptyCrc_accepted hempty
    rw [returns, hreceived, Option.bind_some, hpduLen] at hreturns
    exact absurd hreturns (by decide)
  · intro hnone
    rcases @received_cases P port p with hreceived | ⟨n, rx, dir, hreceived⟩
    · rw [returns, hreceived]
      rfl
    rw [returns, hreceived, Option.bind_some]
    by_cases hok : (secureFrameVerifyAndDecrypt P n rx p.config.slaveAddr dir).1.status = .ok
    · rcases accepted_cases hok with hsound | hempty
      · obtain ⟨-, hfits, hpduLen⟩ := hsound.pduLen
        rw [hpduLen]
        exact decide_eq_true hfits
      · exact absurd ⟨n, rx, dir, hreceived, hempty⟩ hnone
    · rw [outPduLen_of_ne_ok hok]
      rfl

end Overrun

/-! ### The configuration -/

structure ValidConfig (c : Config) : Prop where
  slaveAddr : 1 ≤ c.slaveAddr.toNat ∧ c.slaveAddr.toNat ≤ 247
  funcCode : c.funcCode ∈ functionCodes

/-- What a request of the configuration can run into: both of its channels exist, and it is
refused for its quantity only. -/
structure Usable (c : Config) : Prop where
  channels : ∃ m2s s2m, channelIndex c.slaveAddr .masterToSlave = some m2s ∧
    channelIndex c.slaveAddr .slaveToMaster = some s2m
  refused : modbusBuildRequest c.funcCode c.startAddr c.valueOrQty = none ↔
    ∃ max, maxQuantity c.funcCode = some max ∧
      (c.valueOrQty.toNat = 0 ∨ max < c.valueOrQty.toNat)

section Configuration
variable {P : Primitives} {p : Process}

/-- A prompt gives the old value or an accepted one. -/
theorem prompt_cases {w : ℕ} (lo hi : ℤ) (accept : BitVec w → Bool) (old : BitVec w)
    (input : Option ℤ) : prompt lo hi accept old input = old ∨
      ∃ v, lo ≤ v ∧ v ≤ hi ∧ accept (BitVec.ofInt w v) = true ∧
        prompt lo hi accept old input = BitVec.ofInt w v := by
  cases input with
  | none => exact .inl rfl
  | some v =>
    simp only [prompt]
    split
    · rename_i h
      exact .inr ⟨v, h.1, h.2.1, h.2.2, rfl⟩
    · exact .inl rfl

theorem prompt_slaveAddr {old : Byte} (hold : 1 ≤ old.toNat ∧ old.toNat ≤ 247) (input : Option ℤ) :
    1 ≤ (prompt 1 247 (fun _ => true) old input).toNat ∧
      (prompt 1 247 (fun _ => true) old input).toNat ≤ 247 := by
  rcases prompt_cases 1 247 (fun _ => true) old input with h | ⟨v, hlo, hhi, -, h⟩
  · rw [h]
    exact hold
  · obtain ⟨n, rfl⟩ := Int.eq_ofNat_of_zero_le (show 0 ≤ v by omega)
    rw [h, BitVec.ofInt_natCast, BitVec.toNat_ofNat]
    omega

theorem prompt_funcCode {old : Byte} (hold : old ∈ functionCodes) (input : Option ℤ) :
    prompt 0 255 modbusFuncIsSupported old input ∈ functionCodes := by
  rcases prompt_cases 0 255 modbusFuncIsSupported old input with h | ⟨v, -, -, haccept, h⟩
  · rw [h]
    exact hold
  · rw [h]
    exact of_decide_eq_true haccept

theorem validConfig_doEnvConfig (h : ValidConfig p.config) (input : ConfigInput) :
    ValidConfig (doEnvConfig input p).config := by
  have haddr := prompt_slaveAddr h.slaveAddr input.slaveAddr
  cases hmode : p.isMaster with
  | true =>
    rw [doEnvConfig, hmode]
    exact ⟨haddr, prompt_funcCode h.funcCode input.funcCode⟩
  | false =>
    rw [doEnvConfig, hmode]
    exact ⟨haddr, h.funcCode⟩

theorem validConfig_menu (h : ValidConfig p.config) (o : MenuOption) :
    ValidConfig (menu P p o).config := by
  cases o with
  | switchMode => exact h
  | keyInit => exact h
  | selfTest => exact h
  | envConfig input => exact validConfig_doEnvConfig h input
  | runExchange port =>
    obtain ⟨-, -, hconfig, -⟩ := doRunExchange_settings (P := P) (p := p) port
    show ValidConfig (doRunExchange P port p).2.config
    rw [hconfig]
    exact h

theorem usable_of_valid {c : Config} (h : ValidConfig c) : Usable c := by
  refine ⟨channels_of_address h.slaveAddr.2, ?_⟩
  rw [← not_iff_not, ← ne_eq, Option.ne_none_iff_isSome, isSome_modbusBuildRequest]
  constructor
  · rintro ⟨-, hquantity⟩ ⟨max, hmax, hout⟩
    have hin := hquantity max hmax
    omega
  · intro hnone
    refine ⟨h.funcCode, fun max hmax => ?_⟩
    by_contra hout
    exact hnone ⟨max, hmax, by omega⟩

end Configuration

/-- Whatever is on the standard input and whatever the port brings, the loop ends within one
turn for each byte, or has then read the whole input and turns for ever. Until then, and when
`main` returns, the process is one of a run of menu options and configured for an address and
a function that exist. The only other end is within an exchange that opens a frame around the
CRC16 of nothing. -/
theorem main_stops_or_turns (P : Primitives) (ports : ℕ → SerialPort) (argv0 : Option Bytes)
    (disk : Disk) (stdin : Bytes) :
    let start : Console := ⟨newProcess argv0 disk, stdin, 0⟩
    ((∃ e, ∀ n, stdin.length ≤ n → turns (mainTurn P ports) n start = .stopped e) ∨
      ∃ c, c.stdin = [] ∧ ∀ n, stdin.length ≤ n → turns (mainTurn P ports) n start = .running c) ∧
    (∀ n c, turns (mainTurn P ports) n start = .running c ∨
        turns (mainTurn P ports) n start = .stopped (.returned c) →
      (∃ os, c.process = run (menu P) (newProcess argv0 disk) os) ∧
        ValidConfig c.process.config ∧ Usable c.process.config) ∧
    ∀ n, turns (mainTurn P ports) n start = .stopped .overrun →
      ∃ k c, turns (mainTurn P ports) k start = .running c ∧
        OpensEmptyCrc P (ports c.exchanges) c.process := by
  intro start
  refine ⟨?_, fun n c hc => ?_, fun n hover => ?_⟩
  · have hless : ∀ c c', mainTurn P ports c = .running c' → c.stdin.length ≠ 0 →
        c'.stdin.length < c.stdin.length := by
      intro c c' hturn hne
      have hused := (mainTurn_running hturn).2
      omega
    rcases stops_or_repeats (fun c : Console => c.stdin.length) hless
      (fun c hc => mainTurn_end (List.length_eq_zero_iff.mp hc)) start with h | ⟨c, hc, h⟩
    · exact .inl h
    · exact .inr ⟨c, List.length_eq_zero_iff.mp hc, h⟩
  · obtain ⟨os, hos⟩ := reached_by_options hc
    have hvalid : ValidConfig (run (menu P) (newProcess argv0 disk) os).config := by
      have hkeep : ∀ p o, ValidConfig (Process.config p) → True →
          ValidConfig (menu P p o).config := fun p o h _ => validConfig_menu h o
      refine invariant_run hkeep ?_ (always_of_forall (fun o _ => trivial) _)
      have hstart : ValidConfig startConfig := ⟨by decide, by decide⟩
      exact hstart
    have hreached : c.process.config = (run (menu P) (newProcess argv0 disk) os).config :=
      congrArg Process.config hos
    rw [← hreached] at hvalid
    exact ⟨⟨os, hos⟩, hvalid, usable_of_valid hvalid⟩
  · obtain ⟨k, c, hrun, hlast⟩ := stopped_by_turn hover
    refine ⟨k, c, hrun, ?_⟩
    rcases @mainTurn_cases P ports c with ⟨d, hturn, -⟩ | ⟨d, hturn, -⟩ | ⟨-, hlost⟩
    · cases hturn.symm.trans hlast
    · cases hturn.symm.trans hlast
    · by_contra hnone
      exact Bool.false_ne_true (hlost.symm.trans ((returns_iff _ _).mpr hnone))

/-! ### An operator who answers every prompt on a line of its own -/

/-- What the operator types. The last three answers are typed in master mode only. -/
inductive Typed where
  | switchMode
  | keyInit
  | selfTest
  | envConfig (port baud slaveAddr funcCode startAddr valueOrQty : Bytes)
  | runExchange

def Typed.lines (isMaster : Bool) : Typed → List Bytes
  | .switchMode => [[ch '1']]
  | .keyInit => [[ch '2']]
  | .selfTest => [[ch '3']]
  | .envConfig port baud addr func start value =>
    [[ch '4'], port, baud, addr] ++ if isMaster then [func, start, value] else []
  | .runExchange => [[ch '5']]

/-- The option that is meant, with the serial port as it will be. -/
def Typed.option (isMaster : Bool) (port : SerialPort) : Typed → MenuOption
  | .switchMode => .switchMode
  | .keyInit => .keyInit
  | .selfTest => .selfTest
  | .envConfig port _ addr func start value =>
    let inMaster (line : Bytes) : Option ℤ := if isMaster then (answer line).map strtol else none
    .envConfig ⟨portAnswer (answer port), (answer addr).map strtol, inMaster func, inMaster start,
      inMaster value⟩
  | .runExchange => .runExchange port

def Typed.mode (isMaster : Bool) : Typed → Bool
  | .switchMode => !isMaster
  | _ => isMaster

def Typed.exchanges : Typed → ℕ
  | .runExchange => 1
  | _ => 0

/-- A line that fits the buffer with its newline, without line ends and NUL bytes in it. -/
def Fits (line : Bytes) : Prop := line.length ≤ 62 ∧ ∀ b ∈ line, b ≠ ch '\n' ∧ b ≠ ch '\r' ∧ b ≠ 0

def Typed.Fits : Typed → Prop
  | .envConfig port baud addr func start value =>
    ∀ line ∈ [port, baud, addr, func, start, value], ConsoleMenu.Fits line
  | _ => True

/-- Lines, each with its newline. -/
def typedText (lines : List Bytes) : Bytes := lines.flatMap (· ++ [ch '\n'])

def script : Bool → List Typed → Bytes
  | _, [] => []
  | isMaster, t :: ts => typedText (t.lines isMaster) ++ script (t.mode isMaster) ts

/-- The option comes back. -/
def Returns (P : Primitives) (p : Process) : MenuOption → Prop
  | .runExchange port => returns (doRunExchange P port p).1 = true
  | _ => True

def meant (ports : ℕ → SerialPort) : Bool → ℕ → List Typed → List MenuOption
  | _, _, [] => []
  | isMaster, k, t :: ts =>
    t.option isMaster (ports k) :: meant ports (t.mode isMaster) (k + t.exchanges) ts

section Sessions
variable {P : Primitives} {ports : ℕ → SerialPort}

theorem readAnswer_line {line : Bytes} (h : Fits line) (rest : Bytes) :
    readAnswer (line ++ ch '\n' :: rest) = (answer line, rest) := by
  obtain ⟨hlen, hplain⟩ := h
  have hnewline : ch '\n' ∉ line := fun hmem => (hplain _ hmem).1 rfl
  have hread : fgets 64 (line ++ ch '\n' :: rest) = some (line ++ [ch '\n'], rest) := by
    rw [fgets, if_neg (by simp)]
    exact congrArg some (takeLine_newline 63 line rest hnewline (by omega))
  have hstring : cString (line ++ [ch '\n']) = line ++ [ch '\n'] := by
    rw [cString, List.takeWhile_eq_self_iff]
    intro b hb
    rcases List.mem_append.mp hb with hb | hb
    · exact decide_eq_true (hplain b hb).2.2
    · obtain rfl := List.mem_singleton.mp hb
      rfl
  have hcut : (line ++ [ch '\n']).takeWhile (fun b => b ≠ ch '\r' && b ≠ ch '\n') = line := by
    rw [List.takeWhile_append_of_pos]
    · exact List.append_nil line
    · intro b hb
      simp only [(hplain b hb).1, (hplain b hb).2.1, ne_eq, not_false_eq_true, decide_true,
        Bool.and_self]
  rw [readAnswer, hread]
  simp only
  rw [hstring, hcut]

/-- The text of a line, and what is typed behind it. -/
theorem typedText_cons (line : Bytes) (lines : List Bytes) (rest : Bytes) :
    typedText (line :: lines) ++ rest = line ++ ch '\n' :: (typedText lines ++ rest) := by
  simp [typedText]

theorem typedText_nil (rest : Bytes) : typedText [] ++ rest = rest := rfl

theorem envInput_lines {port baud addr func start value : Bytes}
    (h : (Typed.envConfig port baud addr func start value).Fits) (isMaster : Bool)
    (sp : SerialPort) (rest : Bytes) :
    ∃ input, (Typed.envConfig port baud addr func start value).option isMaster sp =
        .envConfig input ∧
      envInput isMaster (typedText ([port, baud, addr] ++
        if isMaster then [func, start, value] else []) ++ rest) = (input, rest) := by
  have hfits : ∀ line ∈ [port, baud, addr, func, start, value], Fits line := h
  simp only [List.forall_mem_cons] at hfits
  obtain ⟨hport, hbaud, haddr, hfunc, hstart, hvalue, -⟩ := hfits
  cases isMaster with
  | true =>
    refine ⟨_, rfl, ?_⟩
    simp only [if_true, List.cons_append, List.nil_append, typedText_cons, typedText_nil, envInput,
      readAnswer_line hport, readAnswer_line hbaud, readAnswer_line haddr, readAnswer_line hfunc,
      readAnswer_line hstart, readAnswer_line hvalue]
  | false =>
    refine ⟨_, rfl, ?_⟩
    simp only [Bool.false_eq_true, if_false, List.append_nil, typedText_cons, typedText_nil, envInput,
      readAnswer_line hport, readAnswer_line hbaud, readAnswer_line haddr]

/-- What is typed for an option is one turn of the loop, as far as the option comes back. -/
theorem typed_turn {t : Typed} (h : t.Fits) (p : Process) (k : ℕ) (rest : Bytes) :
    (Returns P p (t.option p.isMaster (ports k)) →
      mainTurn P ports ⟨p, typedText (t.lines p.isMaster) ++ rest, k⟩ =
        .running ⟨menu P p (t.option p.isMaster (ports k)), rest, k + t.exchanges⟩) ∧
    (¬ Returns P p (t.option p.isMaster (ports k)) →
      mainTurn P ports ⟨p, typedText (t.lines p.isMaster) ++ rest, k⟩ = .stopped .overrun) := by
  cases t with
  | switchMode => exact ⟨fun _ => rfl, fun hlost => absurd trivial hlost⟩
  | keyInit => exact ⟨fun _ => rfl, fun hlost => absurd trivial hlost⟩
  | selfTest => exact ⟨fun _ => rfl, fun hlost => absurd trivial hlost⟩
  | envConfig port baud addr func start value =>
    refine ⟨fun _ => ?_, fun hlost => absurd trivial hlost⟩
    obtain ⟨input, hoption, hinput⟩ := envInput_lines h p.isMaster (ports k) rest
    have hturn : ∀ s, mainTurn P ports ⟨p, ch '4' :: ch '\n' :: s, k⟩ =
        .running ⟨menu P p (.envConfig (envInput p.isMaster s).1), (envInput p.isMaster s).2, k⟩ :=
      fun _ => rfl
    show mainTurn P ports ⟨p, typedText ([ch '4'] :: ([port, baud, addr] ++ _)) ++ rest, k⟩ = _
    rw [typedText_cons, List.singleton_append, hturn, hinput, hoption]
    rfl
  | runExchange =>
    have hturn : mainTurn P ports ⟨p, typedText (Typed.runExchange.lines p.isMaster) ++ rest, k⟩ =
        if returns (doRunExchange P (ports k) p).1 then
          .running ⟨(doRunExchange P (ports k) p).2, rest, k + 1⟩
        else .stopped .overrun := rfl
    rw [hturn]
    exact ⟨fun hreturns => if_pos hreturns, fun hlost => if_neg hlost⟩

theorem typed_mode (t : Typed) (p : Process) (sp : SerialPort) :
    (menu P p (t.option p.isMaster sp)).isMaster = t.mode p.isMaster := by
  cases t with
  | switchMode => rfl
  | keyInit => rfl
  | selfTest => rfl
  | envConfig port baud addr func start value =>
    show (doEnvConfig _ p).isMaster = p.isMaster
    rfl
  | runExchange => exact (doRunExchange_settings (P := P) (p := p) sp).1

end Sessions

/-- What an operator types, followed by the option that ends, is the run of the options that
are meant, and leaves what is typed behind it unread; unless one of the exchanges does not come
back, and then `main` does not either. -/
theorem typed_session (P : Primitives) (ports : ℕ → SerialPort) (p : Process) (k : ℕ)
    (ts : List Typed) (hfits : ∀ t ∈ ts, t.Fits) (rest : Bytes) :
    let session := turns (mainTurn P ports) (ts.length + 1)
      ⟨p, script p.isMaster ts ++ (ch '6' :: ch '\n' :: rest), k⟩
    (Always (menu P) (Returns P) p (meant ports p.isMaster k ts) → ∃ exchanges, session =
      .stopped (.returned ⟨run (menu P) p (meant ports p.isMaster k ts), rest, exchanges⟩)) ∧
    (¬ Always (menu P) (Returns P) p (meant ports p.isMaster k ts) →
      session = .stopped .overrun) := by
  induction ts generalizing p k with
  | nil => exact ⟨fun _ => ⟨k, rfl⟩, fun hlost => absurd trivial hlost⟩
  | cons t ts ih =>
    intro session
    obtain ⟨hreturned, hlost⟩ := ih (menu P p (t.option p.isMaster (ports k))) (k + t.exchanges)
      fun t' hmem => hfits t' (List.mem_cons_of_mem _ hmem)
    rw [typed_mode] at hreturned hlost
    obtain ⟨hrunning, hoverrun⟩ := @typed_turn P ports t (hfits t (List.mem_cons_self ..)) p k
      (script (t.mode p.isMaster) ts ++ (ch '6' :: ch '\n' :: rest))
    have hsession : session = turns (mainTurn P ports) (ts.length + 1 + 1)
        ⟨p, typedText (t.lines p.isMaster) ++
          (script (t.mode p.isMaster) ts ++ (ch '6' :: ch '\n' :: rest)), k⟩ := by
      rw [← List.append_assoc]
      rfl
    rw [hsession]
    by_cases hturn : Returns P p (t.option p.isMaster (ports k))
    · rw [turns_running (hrunning hturn)]
      exact ⟨fun hall => hreturned hall.2, fun hnot => hlost fun hall => hnot ⟨hturn, hall⟩⟩
    · rw [turns_stopped (hoverrun hturn)]
      exact ⟨fun hall => absurd hall.1 hturn, fun _ => rfl⟩

/-- A master without a port receives nothing. -/
theorem returns_without_port {P : Primitives} {p : Process} (hmode : p.isMaster = true)
    (hport : p.config.hasPort = false) (port : SerialPort) :
    returns (doRunExchange P port p).1 = true := by
  have hnone : (doRunExchange P port p).1.received = none := by
    cases hkeys : p.keysLoaded with
    | false => rw [doRunExchange_unloaded hkeys]
    | true =>
      rw [doRunExchange_master hkeys hmode]
      simp only [runAsMaster, hport, Bool.not_false, if_true]
      split
      · rfl
      split
      · rfl
      · rfl
  rw [returns, hnone]
  rfl

/-- The keys, a start address, and the exchange of the request for it. -/
theorem typed_session_request :
    let p := newProcess demoArgv0 ⟨keyDirectory, []⟩
    let ts := [.keyInit, .envConfig [] [] [] [] [ch '7'] [], .runExchange]
    let q := run (menu demoPrimitives) p (meant (fun _ => noPort) true 0 (ts.take 2))
    (∃ wire v, (doRunExchange demoPrimitives noPort q).1.sent = some (sentRequest wire v)) ∧
    ∃ exchanges, turns (mainTurn demoPrimitives fun _ => noPort) 4
        ⟨p, script true ts ++ [ch '6', ch '\n'], 0⟩ = .stopped (.returned
      ⟨run (menu demoPrimitives) p (meant (fun _ => noPort) true 0 ts), [], exchanges⟩) := by
  intro p ts q
  have hd : (⟨keyDirectory, []⟩ : Disk).Reliable := (rfl : ([] : List Outcome) = [])
  have hstart := keyed_start hd (Function.update_self keysFile _ fun _ => none) demoArgv0
  obtain ⟨r, hstep, hkeyed, hkeys⟩ := keyInit_step (P := demoPrimitives) hstart []
  have hr : menu demoPrimitives p .keyInit = r := congrArg History.process hstep
  have hq : q = doEnvConfig (addrInput (some 7)) r := by
    rw [← hr]
    rfl
  have hmode : q.isMaster = true := by
    rw [hq]
    exact hkeyed.isMaster
  have hconfig : q.config = ⟨false, 0x01, funcWriteMultipleRegisters, 7, 2⟩ := by
    rw [hq]
    simp only [doEnvConfig, addrInput, hkeyed.isMaster, hkeyed.config, if_true]
    rfl
  have hport : q.config.hasPort = false := by rw [hconfig]
  obtain ⟨keys, hkey⟩ := hkeyed.key hkeys
  have hkey' : q.node.keyTable (1, 0) = ⟨true, keys, 0⟩ := by
    rw [hq]
    exact hkey
  have hdisk : q.node.disk.Reliable := by
    rw [hq]
    exact hkeyed.reliable
  have hloaded : q.keysLoaded = true := by
    rw [hq]
    exact hkeys
  obtain ⟨wire, hsent⟩ := exchange_sent (P := demoPrimitives) hdisk hloaded hmode hconfig hkey'
  refine ⟨⟨wire, _, hsent⟩, (typed_session demoPrimitives (fun _ => noPort) p 0 ts ?_ []).1
    ⟨trivial, trivial, returns_without_port hmode hport noPort, trivial⟩⟩
  have hfits : ∀ line : Bytes, line ∈ [[], [ch '7']] → Fits line := by
    unfold Fits
    decide
  intro t ht
  rcases List.mem_cons.mp ht with rfl | ht
  · trivial
  rcases List.mem_cons.mp ht with rfl | ht
  · intro line hline
    exact hfits line (by revert line; decide)
  · obtain rfl := List.mem_singleton.mp ht
    trivial

end ModbusSecurity.ConsoleMenu
