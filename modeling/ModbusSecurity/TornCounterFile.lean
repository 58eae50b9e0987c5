import ModbusSecurity.BufferedLines
import ModbusSecurity.CounterReload

/-! # A counter file that was cut short

What `ctr_state_load` makes of a prefix of the text that `ctr_state_persist` prints: whole
records, and one that ends early. -/
namespace ModbusSecurity.TornCounterFile
open ByteStrings TextStreams BufferedLines KeyStore TableListings CounterFile CounterState
open CounterReload

section Cuts
variable {ε β : Type*}

/-- A prefix of a text of records: some of the records, then at most a part of the next. -/
theorem take_flatMap (es : List ε) (f : ε → List β) (k : ℕ) :
    ∃ before after q, es = before ++ after ∧ (es.flatMap f).take k = before.flatMap f ++ q ∧
      (q = [] ∨ ∃ e rest, after = e :: rest ∧ q <+: f e ∧ q ≠ f e) := by
  induction es generalizing k with
  | nil => exact ⟨[], [], [], rfl, by simp, .inl rfl⟩
  | cons e es ih =>
    rw [List.flatMap_cons]
    rcases Nat.lt_or_ge k (f e).length with hlt | hle
    · refine ⟨[], e :: es, (f e).take k, rfl, ?_, .inr ⟨e, es, rfl, List.take_prefix .., ?_⟩⟩
      · rw [List.take_append_of_le_length hlt.le]
        rfl
      · intro h
        have := congrArg List.length h
        rw [List.length_take] at this
        omega
    · obtain ⟨before, after, q, hes, htake, hq⟩ := ih (k - (f e).length)
      refine ⟨e :: before, after, q, by rw [hes]; rfl, ?_, hq⟩
      rw [List.take_append, List.take_of_length_le hle, htake, List.flatMap_cons, List.append_assoc]

/-- A prefix that runs past a token and its blank, or ends in the token. -/
theorem prefix_token {q t r : List β} {b : β} (h : q <+: t ++ b :: r) :
    q <+: t ∨ ∃ q', q = t ++ b :: q' ∧ q' <+: r := by
  obtain ⟨s, hs⟩ := h
  rcases List.append_eq_append_iff.mp hs with ⟨a, rfl, -⟩ | ⟨c, rfl, hc⟩
  · exact .inl (List.prefix_append ..)
  · cases c with
    | nil =>
      rw [List.append_nil]
      exact .inl List.prefix_rfl
    | cons a c =>
      obtain ⟨rfl, hr⟩ := List.cons.inj hc
      exact .inr ⟨c, rfl, s, hr.symm⟩

end Cuts

section Unfinished
variable {q ds : Bytes}

private theorem scanNumber_all_digits (hd : ∀ b ∈ q, isDigit b = true) :
    scanNumber q = none ∨ ∃ v, scanNumber q = some (v, []) := by
  by_cases hq : q = []
  · subst hq
    exact .inl rfl
  · have h := scanNumber_digits hq hd endsNumber_nil
    rw [List.append_nil] at h
    exact .inr ⟨_, h⟩

/-- A conversion that meets the end of the line in its token leaves nothing for the next. -/
private theorem scanNumber_unfinished {minus : Bytes} (hminus : minus = [] ∨ minus = [ch '-'])
    (hd : ∀ b ∈ ds, isDigit b = true) (hq : q <+: minus ++ ds) :
    scanNumber q = none ∨ ∃ v, scanNumber q = some (v, []) := by
  rcases hminus with rfl | rfl
  · rw [List.nil_append] at hq
    exact scanNumber_all_digits fun b hb => hd b (hq.subset hb)
  · cases q with
    | nil => exact .inl rfl
    | cons b q =>
      rw [List.singleton_append] at hq
      obtain ⟨rfl, htail⟩ := List.cons_prefix_cons.mp hq
      have hdq : ∀ a ∈ q, isDigit a = true := fun a ha => hd a (htail.subset ha)
      by_cases hne : q = []
      · subst hne
        exact .inl rfl
      · have h := scanNumber_minus_digits hne hdq endsNumber_nil
        rw [List.append_nil] at h
        exact .inr ⟨_, h⟩

private theorem scanU_unfinished {x : Int32Bits} (hq : q <+: printU x) :
    scanU q = none ∨ ∃ v, scanU q = some (v, []) := by
  rcases scanNumber_unfinished (.inl rfl) (fun _ => isDigit_of_mem_decimal) hq with h | ⟨v, h⟩
  · exact .inl (by rw [scanU, h]; rfl)
  · exact .inr ⟨_, by rw [scanU, h]; rfl⟩

private theorem scanD_unfinished {x : Int32Bits} (hq : q <+: printD x) :
    scanD q = none ∨ ∃ v, scanD q = some (v, []) := by
  have h : scanNumber q = none ∨ ∃ v, scanNumber q = some (v, []) := by
    unfold printD at hq
    split at hq
    · exact scanNumber_unfinished (.inr rfl) (fun _ => isDigit_of_mem_decimal) hq
    · exact scanNumber_unfinished (.inl rfl) (fun _ => isDigit_of_mem_decimal) hq
  rcases h with h | ⟨v, h⟩
  · exact .inl (by rw [scanD, h]; rfl)
  · exact .inr ⟨_, by rw [scanD, h]; rfl⟩

private theorem scanS_unfinished {tok : Bytes} {width : ℕ} (ht : ∀ b ∈ tok, isSpace b = false)
    (hw : tok.length ≤ width) (hq : q <+: tok) :
    scanS width q = none ∨ ∃ v, scanS width q = some (v, []) := by
  have hsub : ∀ b ∈ q, isSpace b = false := fun b hb => ht b (hq.subset hb)
  cases q with
  | nil => exact .inl (by simp [scanS, skipSpace])
  | cons b q =>
    have hskip : skipSpace (b :: q) = b :: q := by
      simp [skipSpace, hsub b (List.mem_cons_self ..)]
    have hword : (b :: q).takeWhile (fun b => !isSpace b) = b :: q :=
      List.takeWhile_eq_self_iff.mpr fun b hb => by simp [hsub b hb]
    have htake : (b :: q).take width = b :: q :=
      List.take_of_length_le (hq.length_le.trans hw)
    refine .inr ⟨b :: q, ?_⟩
    simp only [scanS, hskip, hword, htake, reduceCtorEq, if_false, List.drop_length]

private theorem bind_unfinished {α γ : Type} {x : Option (α × Bytes)} {k : α × Bytes → Option γ}
    (hx : x = none ∨ ∃ v, x = some (v, [])) (hk : ∀ v, k (v, []) = none) : x.bind k = none := by
  rcases hx with rfl | ⟨v, rfl⟩
  · rfl
  · exact hk v

end Unfinished

/-- The part of a record in front of its last number. -/
def lineHead (c : Channel) (e : CtrEntry) : Bytes :=
  printU (BitVec.ofNat 32 c.1) ++ ch ' ' :: (dirName c.2 ++ ch ' ' ::
    (printD e.validOut ++ ch ' ' :: (printU e.nextOut ++ ch ' ' ::
      (printD e.validIn ++ [ch ' ']))))

section Line
variable (c : Channel) (e : CtrEntry) {q ds : Bytes}

theorem persistLine_eq : persistLine c e = lineHead c e ++ printU e.highIn := by
  simp [persistLine, lineHead]

/-- Six items are assigned only when the line reaches its last number. -/
theorem scanCtrLine_unfinished (hq : q <+: lineHead c e) : scanCtrLine q = none := by
  obtain ⟨hne, hsp, hlen⟩ := dirName_token c.2
  rcases prefix_token hq with h | ⟨q₁, rfl, hq₁⟩
  · exact bind_unfinished (scanU_unfinished h) fun _ => rfl
  simp only [scanCtrLine, scanU_printU _ _ (endsNumber_space _), Option.bind_eq_bind,
    Option.bind_some, scanS_space]
  rcases prefix_token hq₁ with h | ⟨q₂, rfl, hq₂⟩
  · exact bind_unfinished (scanS_unfinished hsp (by omega) h) fun _ => rfl
  simp only [scanS_token _ _ hne hsp (show _ ≤ 7 by omega), Option.bind_some, scanD_space]
  rcases prefix_token hq₂ with h | ⟨q₃, rfl, hq₃⟩
  · exact bind_unfinished (scanD_unfinished h) fun _ => rfl
  simp only [scanD_printD _ _ (endsNumber_space _), Option.bind_some, scanU_space]
  rcases prefix_token hq₃ with h | ⟨q₄, rfl, hq₄⟩
  · exact bind_unfinished (scanU_unfinished h) fun _ => rfl
  simp only [scanU_printU _ _ (endsNumber_space _), Option.bind_some, scanD_space]
  rcases prefix_token hq₄ with h | ⟨q₅, rfl, hq₅⟩
  · exact bind_unfinished (scanD_unfinished h) fun _ => rfl
  obtain rfl := List.prefix_nil.mp hq₅
  simp only [scanD_printD _ _ (endsNumber_space _), Option.bind_some]
  rfl

/-- A line that stops at or in its last number is taken for a record. -/
theorem scanCtrLine_digits (hne : ds ≠ []) (hd : ∀ b ∈ ds, isDigit b = true)
    (hlt : digitsValue ds < 2 ^ 32) : scanCtrLine (lineHead c e ++ ds) =
      some (BitVec.ofNat 32 c.1, dirName c.2, { e with highIn := BitVec.ofNat 32 (digitsValue ds) }) := by
  obtain ⟨hdir, hsp, hlen⟩ := dirName_token c.2
  have hlast : scanU ds = some (BitVec.ofNat 32 (digitsValue ds), []) := by
    have h := scanNumber_digits hne hd endsNumber_nil
    rw [List.append_nil] at h
    rw [scanU, h, Option.map_some, toUnsigned, if_neg (show ¬ 2 ^ 64 ≤ digitsValue ds by omega)]
    rfl
  simp only [scanCtrLine, lineHead, List.append_assoc, List.cons_append, List.nil_append,
    scanU_printU _ _ (endsNumber_space _), Option.bind_eq_bind, Option.bind_some, scanS_space,
    scanS_token _ _ hdir hsp (show _ ≤ 7 by omega), scanD_space, scanU_space,
    scanD_printD _ _ (endsNumber_space _), hlast]
  rfl

private theorem cString_of_lineByte (h : ∀ b ∈ q, lineByte b = true) : cString q = q := by
  rw [cString, List.takeWhile_eq_self_iff]
  intro b hb
  rw [decide_eq_true_eq]
  rintro rfl
  exact absurd (h 0 hb) (by decide)

theorem parseCtrLine_unfinished (hq : q <+: lineHead c e) : parseCtrLine q = none := by
  have hline : q <+: persistLine c e := by
    rw [persistLine_eq]
    exact hq.trans (List.prefix_append ..)
  rw [parseCtrLine, cString_of_lineByte fun b hb => lineByte_persistLine c e b (hline.subset hb),
    scanCtrLine_unfinished c e hq]

theorem digitsValue_lt (hne : ds ≠ []) {x : Int32Bits} (hds : ds <+: printU x) (hcut : ds ≠ printU x) :
    digitsValue ds < x.toNat := by
  obtain ⟨left, hleft⟩ := hds
  refine digitsValue_lt_of_cut hleft.symm hne ?_
  rintro rfl
  rw [List.append_nil] at hleft
  exact hcut hleft

theorem parseCtrLine_digits (hne : ds ≠ []) (hds : ds <+: printU e.highIn) :
    parseCtrLine (lineHead c e ++ ds) =
      some (c, { e with highIn := BitVec.ofNat 32 (digitsValue ds) }) := by
  have hline : lineHead c e ++ ds <+: persistLine c e := by
    rw [persistLine_eq]
    exact (List.prefix_append_right_inj _).mpr hds
  have hd : ∀ b ∈ ds, isDigit b = true := fun b hb => isDigit_of_mem_decimal (hds.subset hb)
  have hlt : digitsValue ds < 2 ^ 32 := by
    have hx := e.highIn.isLt
    by_cases hfull : ds = printU e.highIn
    · rw [hfull, printU, digitsValue_decimal]
      exact hx
    · have := digitsValue_lt hne hds hfull
      omega
  rw [parseCtrLine, cString_of_lineByte fun b hb => lineByte_persistLine c e b (hline.subset hb),
    scanCtrLine_digits c e hne hd hlt]
  simp only [fileChannel_line, Option.map_some]

/-- A line that was cut is passed over, is whole but for its newline, or ends in its last
number. -/
theorem parseCtrLine_prefix (hq : q <+: persistLine c e) :
    parseCtrLine q = none ∨ parseCtrLine q = some (c, e) ∨
      ∃ ds, q = lineHead c e ++ ds ∧ ds ≠ [] ∧ ds <+: printU e.highIn ∧ ds ≠ printU e.highIn := by
  obtain ⟨left, hleft⟩ := hq
  rw [persistLine_eq] at hleft
  rcases List.append_eq_append_iff.mp hleft with ⟨a, ha, -⟩ | ⟨ds, rfl, hds⟩
  · exact .inl (parseCtrLine_unfinished c e ⟨a, ha.symm⟩)
  by_cases hne : ds = []
  · subst hne
    rw [List.append_nil]
    exact .inl (parseCtrLine_unfinished c e List.prefix_rfl)
  have hprefix : ds <+: printU e.highIn := ⟨left, hds.symm⟩
  by_cases hfull : ds = printU e.highIn
  · refine .inr (.inl ?_)
    rw [parseCtrLine_digits c e hne hprefix, hfull, printU, digitsValue_decimal, BitVec.ofNat_toNat,
      BitVec.setWidth_eq]
  · exact .inr (.inr ⟨ds, rfl, hne, hprefix, hfull⟩)

end Line

def recordsText (es : List (Channel × CtrEntry)) : Bytes :=
  es.flatMap fun e => persistLine e.1 e.2 ++ [ch '\n']

/-- The cut leaves some of the digits of a record's last number, and not all. -/
def CutsHighIn (table : CtrTable) (k : ℕ) : Prop :=
  ∃ before c e after ds, listing channels CtrEntry.blank table = before ++ (c, e) :: after ∧
    (persistText table).take k = recordsText before ++ (lineHead c e ++ ds) ∧
    ds ≠ [] ∧ ds <+: printU e.highIn ∧ ds ≠ printU e.highIn

/-- Whole records, and a line that was cut. -/
theorem ctrFileEntries_torn (before : List (Channel × CtrEntry)) {c : Channel} {e : CtrEntry}
    {q : Bytes} (hq : q <+: persistLine c e) :
    ctrFileEntries (recordsText before ++ q) = before ++ (parseCtrLine q).toList := by
  obtain ⟨hnl, hlen⟩ := persistLine_fits c e
  induction before with
  | nil =>
    have hlast : ch '\n' ∉ q := fun h => hnl (hq.subset h)
    have hfit := hq.length_le
    rw [recordsText, List.flatMap_nil, List.nil_append, ctrFileEntries, fileLines_last (by omega) hlast]
    by_cases hnil : q = []
    · subst hnil
      rfl
    · rw [pieces_short hnil (by omega), List.filterMap_cons, List.filterMap_nil]
      cases parseCtrLine q <;> rfl
  | cons r before ih =>
    obtain ⟨hrnl, hrlen⟩ := persistLine_fits r.1 r.2
    rw [ctrFileEntries] at ih ⊢
    rw [recordsText, List.flatMap_cons, List.append_assoc, List.append_assoc, List.singleton_append,
      fileLines_cons _ _ hrnl hrlen, List.filterMap_cons, parseCtrLine_persistLine]
    exact congrArg _ ih

section Table
variable (table : CtrTable) (k : ℕ)

/-- A cut inside the last number of a record leaves a record with a smaller number. -/
theorem entries_of_cut (h : CutsHighIn table k) : ∃ before c value,
    value < (table c).highIn ∧ (table c).blank = false ∧
    ctrFileEntries ((persistText table).take k) = before ++ [(c, { table c with highIn := value })] := by
  obtain ⟨before, c, e, after, ds, hlist, htake, hne, hds, hshort⟩ := h
  have hmem : (c, e) ∈ listing channels CtrEntry.blank table := by
    rw [hlist]
    simp
  obtain ⟨rfl, hset⟩ : e = table c ∧ e.blank = false := listing_faithful hmem
  have hlt := digitsValue_lt hne hds hshort
  have hval : (BitVec.ofNat 32 (digitsValue ds)).toNat = digitsValue ds :=
    Nat.mod_eq_of_lt (hlt.trans (table c).highIn.isLt)
  have hline : lineHead c (table c) ++ ds <+: persistLine c (table c) := by
    rw [persistLine_eq]
    exact (List.prefix_append_right_inj _).mpr hds
  refine ⟨before, c, BitVec.ofNat 32 (digitsValue ds), ?_, hset, ?_⟩
  · exact BitVec.lt_def.mpr (by rw [hval]; exact hlt)
  · rw [htake, ctrFileEntries_torn before hline, parseCtrLine_digits c _ hne hds]
    rfl

/-- Any other cut leaves records as they were printed. -/
theorem entries_of_not_cut (h : ¬ CutsHighIn table k) :
    ∀ r ∈ ctrFileEntries ((persistText table).take k), r.2 = table r.1 := by
  obtain ⟨before, after, q, hlist, htake, hq⟩ := take_flatMap
    (listing channels CtrEntry.blank table) (fun e => persistLine e.1 e.2 ++ [ch '\n']) k
  have hbefore : ∀ r ∈ before, r.2 = table r.1 := by
    intro r hr
    have hmem : r ∈ listing channels CtrEntry.blank table := by
      rw [hlist]
      exact List.mem_append_left _ hr
    exact (listing_faithful hmem).1
  have htext : (persistText table).take k = recordsText before ++ q := htake
  rw [htext]
  rcases hq with rfl | ⟨⟨c, e⟩, rest, rfl, hq, hwhole⟩
  · rw [ctrFileEntries_torn before (List.nil_prefix (l := persistLine (0, 0) ⟨0, 0, 0, 0⟩)),
      parseCtrLine_unfinished (0, 0) ⟨0, 0, 0, 0⟩ List.nil_prefix]
    simpa using hbefore
  have hmem : (c, e) ∈ listing channels CtrEntry.blank table := by
    rw [hlist]
    simp
  obtain rfl : e = table c := (listing_faithful hmem).1
  have hline : q <+: persistLine c (table c) := by
    rcases List.prefix_concat_iff.mp hq with hq | hq
    · exact absurd hq hwhole
    · exact hq
  rw [ctrFileEntries_torn before hline]
  rcases parseCtrLine_prefix c (table c) hline with hnone | hsome | ⟨ds, rfl, hds⟩
  · rw [hnone]
    simpa using hbefore
  · rw [hsome]
    intro r hr
    rcases List.mem_append.mp hr with hr | hr
    · exact hbefore r hr
    · obtain rfl := List.mem_singleton.mp hr
      rfl
  · exact absurd ⟨before, c, table c, rest, ds, hlist, htext, hds⟩ h

end Table

/-- The counters of the process that follows `n` when only the first `k` bytes of its last
rewrite have reached the file. -/
def tornReload (n : Node) (k : ℕ) : CtrTable :=
  let torn := (ctrStatePersist { n with disk := ⟨n.disk.files, [.writesOnly k]⟩ }).2
  (ctrStateLoad (successor torn)).2.ctrTable

/-- Each channel comes back unset or as it was. -/
def TornSound (n : Node) (k : ℕ) : Prop :=
  ∀ c, tornReload n k c = emptyCtrTable c ∨ tornReload n k c = n.ctrTable c

theorem tornReload_eq (n : Node) (k : ℕ) :
    tornReload n k = loadText ((persistText n.ctrTable).take k) emptyCtrTable := by
  simp [tornReload, ctrStatePersist, Disk.write, successor, startProcess, ctrStateLoad, Disk.read]

/-- The replay bound of the record that was cut comes back too small. -/
theorem exists_lower_bound {n : Node} {k : ℕ} (h : CutsHighIn n.ctrTable k) : ∃ c value,
    value < (n.ctrTable c).highIn ∧ (n.ctrTable c).blank = false ∧
    tornReload n k c = { n.ctrTable c with highIn := value } := by
  obtain ⟨before, c, value, hlt, hset, hentries⟩ := entries_of_cut n.ctrTable k h
  refine ⟨c, value, hlt, hset, ?_⟩
  rw [tornReload_eq, loadText_apply, listed, hentries, lastEntry_append_self]
  rfl

theorem tornSound_of_not_cut {n : Node} {k : ℕ} (h : ¬ CutsHighIn n.ctrTable k) : TornSound n k := by
  intro c
  rw [tornReload_eq, loadText_apply]
  rcases lastEntry_of_faithful (entries_of_not_cut n.ctrTable k h) c with hc | hc
  · rw [listed, hc]
    exact .inl rfl
  · rw [listed, hc]
    exact .inr rfl

theorem not_tornSound_of_cut {n : Node} {k : ℕ} (h : CutsHighIn n.ctrTable k) : ¬ TornSound n k := by
  intro hsound
  obtain ⟨c, value, hlt, hset, hload⟩ := exists_lower_bound h
  rcases hsound c with hunset | hsame
  · rw [hload] at hunset
    have hblank : (n.ctrTable c).blank = true := by
      obtain ⟨hout, -, hin, -⟩ := CtrEntry.mk.inj hunset
      simp [CtrEntry.blank, hout, hin]
    exact absurd (hset.symm.trans hblank) (by decide)
  · rw [hload] at hsame
    exact absurd (congrArg CtrEntry.highIn hsame) (BitVec.ne_of_lt hlt)

/-- A counter file that was cut anywhere but inside the last number of a record gives no
wrong entry, and one that was cut there does. -/
theorem tornSound_iff (n : Node) (k : ℕ) : TornSound n k ↔ ¬ CutsHighIn n.ctrTable k :=
  ⟨fun hsound hcut => not_tornSound_of_cut hcut hsound, tornSound_of_not_cut⟩

/-- Counter 12 was accepted; after `1 m2s 0 0 1 1` the bound is 1. -/
theorem tornSound_fails_at_thirteen : ¬ TornSound
    (ctrStateValidateIncoming (startProcess ⟨fun _ => none, []⟩) 1 .masterToSlave 12).2 13 := by
  apply not_tornSound_of_cut
  refine ⟨[], (1, 0), ⟨0, 0, 1, 12⟩, [], [ch '1'], ?_, ?_, ?_⟩
  · decide +kernel
  · decide +kernel
  · decide

end ModbusSecurity.TornCounterFile
