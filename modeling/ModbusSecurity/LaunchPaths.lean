import Mathlib.Data.List.Find
import ModbusSecurity.DirectoryPaths
import ModbusSecurity.RestartHistory

/-! # Where two launches find their keys and their counters

The keys are searched in several places, one of them next to the executable; the counter
file is always a name in the working directory. -/
namespace ModbusSecurity.LaunchPaths
open ByteStrings TextStreams TableListings KeyStore CounterFile CounterState SecureFraming SecureDemo
open ExchangeEffects SelfTestEffects TransitionRuns DirectoryPaths RestartHistory

abbrev Place := List Bytes
abbrev FileSystem := Place → Option Bytes

/-- Where a path leads; symbolic links do not occur. -/
def locate (cwd : Place) (path : Bytes) : Place := resolve (ch '/') (ch '.') cwd path

/-- All that the program writes. -/
def writtenFiles : List Bytes := [ctrStateDefaultPath, recvStatePath, sentFramePath]

/-- The disk of a process in a working directory; no access fails. -/
def diskIn (fs : FileSystem) (cwd : Place) : Disk := ⟨view (ch '/') (ch '.') fs cwd, []⟩

def menu (P : Primitives) (p : Process) (o : MenuOption) : Process := (choose P p o).2

/-- Two launches of one executable: the first runs an exchange behind `before₁`, goes on with
`after₁` and exits, the second comes to its exchange behind `before₂`. -/
structure Launches where
  argv0 : Bytes
  fs : FileSystem
  cwd₁ : Place
  cwd₂ : Place
  before₁ : List MenuOption
  port₁ : SerialPort
  after₁ : List MenuOption
  before₂ : List MenuOption

section Launches
variable (P : Primitives) (l : Launches)

/-- The first process at its exchange, -/
def Launches.first : Process :=
  run (menu P) (newProcess (some l.argv0) (diskIn l.fs l.cwd₁)) l.before₁

/-- behind it, -/
def Launches.firstDone : Process := (doRunExchange P l.port₁ (l.first P)).2

/-- and the files when it has exited. -/
def Launches.between : FileSystem :=
  store (ch '/') (ch '.') writtenFiles l.fs l.cwd₁
    (run (menu P) (l.firstDone P) l.after₁).node.disk.files

def Launches.secondStart : Process := newProcess (some l.argv0) (diskIn (l.between P) l.cwd₂)

/-- The second process at its exchange. -/
def Launches.second : Process := run (menu P) (l.secondStart P) l.before₂

end Launches

/-- The number of entries in the file at a path. -/
def entryCount (files : Bytes → Option Bytes) (path : Bytes) : ℕ :=
  (keyStoreLoadFile emptyKeyTable (files path)).1.getD 0

/-- The candidate that `demo_load_keys` takes its keys from: the first one with entries. -/
def keyPath (files : Bytes → Option Bytes) (argv0 : Bytes) : Option Bytes :=
  (keyPaths (some argv0)).find? fun path => 0 < entryCount files path

/-- Where `keys.txt` next to the executable is. -/
def besideFile (cwd : Place) (argv0 : Bytes) : Place :=
  locate cwd ((argv0.reverse.dropWhile (· ≠ ch '/')).reverse ++ keysFile)

/-- The keys come from `keys.txt` next to the executable, whichever candidate leads there. -/
def FoundBeside (fs : FileSystem) (cwd : Place) (argv0 : Bytes) : Prop :=
  ∃ path, keyPath (view (ch '/') (ch '.') fs cwd) argv0 = some path ∧
    locate cwd path = besideFile cwd argv0

/-- Both launches load the same file next to the executable, and exchange in the same mode. -/
structure SharedKeys (P : Primitives) (l : Launches) : Prop where
  directory : ch '/' ∈ l.argv0
  init₁ : .keyInit ∈ l.before₁
  init₂ : .keyInit ∈ l.before₂
  found₁ : FoundBeside l.fs l.cwd₁ l.argv0
  found₂ : FoundBeside l.fs l.cwd₂ l.argv0
  sameKeys : besideFile l.cwd₁ l.argv0 = besideFile l.cwd₂ l.argv0
  sameMode : (l.first P).isMaster = (l.second P).isMaster

/-- The file that an exchange loads the counters from and persists them to. -/
def counterFile (cwd : Place) (p : Process) : Place := locate cwd (loaded p).statePath

/-- No self-test and no exchange in the mode. -/
def Idle (isMaster : Bool) (p : Process) : MenuOption → Prop
  | .selfTest => False
  | .runExchange _ => p.isMaster ≠ isMaster
  | _ => True

/-- Counters that the first launch took from its file or moved. -/
def Used (P : Primitives) (l : Launches) (c : Channel) : Prop :=
  ((l.firstDone P).node.ctrTable c).blank = false ∧
    ((fileEntry (l.first P) c).isSome ∨
      (l.firstDone P).node.ctrTable c ≠ (loaded (l.first P)).ctrTable c)

/-- One counter file, and counters that go on where they were left. -/
structure OneCounterFile (P : Primitives) (l : Launches) : Prop where
  sameFile : counterFile l.cwd₁ (l.first P) = counterFile l.cwd₂ (l.second P)
  continues : Always (menu P) (Idle (l.first P).isMaster) (l.firstDone P) l.after₁ →
    Always (menu P) (Idle (l.first P).isMaster) (l.secondStart P) l.before₂ →
      ∀ c, Used P l c → (loaded (l.second P)).ctrTable c = (l.firstDone P).node.ctrTable c

/-! ### Names -/

theorem writtenFiles_plain : ∀ name ∈ writtenFiles, Plain (ch '/') (ch '.') name := by decide

theorem keysFile_plain : Plain (ch '/') (ch '.') keysFile := by decide

theorem statePathOf_written (isMaster : Bool) : statePathOf isMaster ∈ writtenFiles := by
  cases isMaster <;> decide

/-- Next to the executable, or the name itself when there is no directory or no room. -/
theorem exeRelativePath_cases (argv0 : Bytes) : exeRelativePath argv0 keysFile 512 = keysFile ∨
    ∃ dir, exeRelativePath argv0 keysFile 512 = dir ++ ch '/' :: keysFile := by
  unfold exeRelativePath
  simp only
  split
  · rename_i h
    right
    cases hdir : argv0.reverse.dropWhile (· ≠ ch '/') with
    | nil => exact absurd (by rw [hdir]; rfl) h.1
    | cons b rest =>
      have hhead := List.head?_dropWhile_not (· ≠ ch '/') argv0.reverse
      rw [hdir] at hhead
      have hslash : b = ch '/' := by simpa using hhead
      refine ⟨rest.reverse, ?_⟩
      rw [hslash, List.reverse_cons, List.append_assoc]
      rfl
  · exact .inl rfl

/-- Every candidate is a file of that name. -/
theorem keyPaths_cases {argv0 : Option Bytes} {path : Bytes} (h : path ∈ keyPaths argv0) :
    path = keysFile ∨ ∃ dir, path = dir ++ ch '/' :: keysFile := by
  have hfixed : ∀ path ∈ keyPaths none,
      path = keysFile ∨ ∃ dir, path = dir ++ ch '/' :: keysFile := by
    intro path hmem
    simp only [keyPaths, Option.map_none, Option.toList_none, List.cons_append,
      List.nil_append, List.mem_cons, List.not_mem_nil, or_false] at hmem
    rcases hmem with rfl | rfl | rfl | rfl
    · exact .inl rfl
    · exact .inr ⟨ascii ['k', 'e', 'y', 'm', 'g', 'm', 't'], rfl⟩
    · exact .inr ⟨ascii ['s', 'e', 'c', 'u', 'r', 'i', 't', 'y', '/', 'k', 'e', 'y', 'm', 'g', 'm', 't'],
        rfl⟩
    · exact .inr ⟨ascii ['.', '.', '/', 'k', 'e', 'y', 'm', 'g', 'm', 't'], rfl⟩
  cases argv0 with
  | none => exact hfixed path h
  | some argv0 =>
    rcases List.mem_cons.mp h with rfl | h
    · exact .inl rfl
    rcases List.mem_cons.mp h with rfl | h
    · exact exeRelativePath_cases argv0
    · exact hfixed path (List.mem_cons_of_mem _ h)

/-- Wherever a candidate leads, it leads to a file of that name. -/
theorem locate_keyPaths {argv0 : Option Bytes} {path : Bytes} (h : path ∈ keyPaths argv0)
    (cwd : Place) : ∃ place, locate cwd path = place ++ [keysFile] := by
  rcases keyPaths_cases h with rfl | ⟨dir, rfl⟩
  · exact ⟨cwd, resolve_plain keysFile_plain⟩
  · exact resolve_under keysFile_plain cwd dir

theorem keyPaths_not_written {argv0 : Option Bytes} {path : Bytes} (h : path ∈ keyPaths argv0) :
    path ∉ writtenFiles := by
  rcases keyPaths_cases h with rfl | ⟨dir, rfl⟩
  · decide
  · intro hmem
    exact (writtenFiles_plain _ hmem).single (List.mem_append_right _ (List.mem_cons_self ..))

/-- The files of key entries outlive a launch. -/
theorem between_keys (P : Primitives) (l : Launches) (place : Place) :
    l.between P (place ++ [keysFile]) = l.fs (place ++ [keysFile]) := by
  refine store_other fun name hname heq => ?_
  rw [resolve_plain (writtenFiles_plain name hname)] at heq
  have hne : keysFile ∉ writtenFiles := by decide
  exact hne (List.singleton_inj.mp (List.append_inj' heq rfl).2 ▸ hname)

/-! ### Keys -/

theorem keyStoreLoadFile_count (t t' : KeyTable) (file : Option Bytes) :
    (keyStoreLoadFile t file).1 = (keyStoreLoadFile t' file).1 := by
  cases file <;> rfl

/-- Each channel takes its last entry, and loading a file again changes nothing. -/
theorem keyStoreLoadFile_again {t : KeyTable} (file : Option Bytes) {c : Channel}
    (h : t c = emptyKeyTable c ∨ t c = (keyStoreLoadFile emptyKeyTable file).2 c) :
    (keyStoreLoadFile t file).2 c = (keyStoreLoadFile emptyKeyTable file).2 c := by
  cases file with
  | none => exact h.elim id id
  | some text =>
    have hlast : ∀ t : KeyTable, (keyStoreLoadFile t (some text)).2 c =
        (lastEntry (keyFileEntries text) c).getD (t c) := fun t => overlay_apply _ _ _
    rw [hlast, hlast] at *
    cases hentry : lastEntry (keyFileEntries text) c with
    | none =>
      rw [hentry] at h
      exact h.elim id id
    | some e => rfl

/-- The search ends at the first candidate with entries. -/
theorem loadFirst_find {files : Bytes → Option Bytes} {n : Node} (hd : n.disk.Reliable)
    {paths : List Bytes} (hfiles : ∀ path ∈ paths, n.disk.files path = files path) {path : Bytes}
    (h : (paths.find? fun path => 0 < entryCount files path) = some path) :
    0 < (loadFirst n paths).1.getD 0 ∧ (loadFirst n paths).2 =
      { n with keyTable := (keyStoreLoadFile n.keyTable (files path)).2 } := by
  induction paths with
  | nil => cases h
  | cons candidate rest ih =>
    have hcandidate := hfiles candidate (List.mem_cons_self ..)
    have hcount : entryCount files candidate =
        (keyStoreLoadFile n.keyTable (n.disk.files candidate)).1.getD 0 := by
      rw [entryCount, hcandidate, keyStoreLoadFile_count]
    rw [List.find?_cons] at h
    by_cases hsome : 0 < entryCount files candidate
    · rw [decide_eq_true hsome] at h
      obtain rfl := Option.some.inj h
      rw [hcount] at hsome
      rw [loadFirst_hit hd hsome, hcandidate]
      rw [hcandidate] at hsome
      exact ⟨hsome, rfl⟩
    · rw [decide_eq_false hsome] at h
      have hrest : rest ≠ [] := by
        rintro rfl
        cases h
      rw [hcount, Nat.not_lt, Nat.le_zero] at hsome
      rw [loadFirst_miss hd hrest hsome]
      exact ih (fun path hmem => hfiles path (List.mem_cons_of_mem _ hmem)) h

/-- A process of a launch: the files that it does not write stay, and its keys are those of the
file at `path` once they are loaded. -/
structure Settled (files : Bytes → Option Bytes) (argv0 path : Bytes) (p : Process) : Prop where
  executable : p.argv0 = some argv0
  reliable : p.node.disk.Reliable
  statePath : p.node.statePath ∈ writtenFiles
  others : ∀ path, path ∉ writtenFiles → p.node.disk.files path = files path
  keys : ∀ c, channelAddr c ≠ selfTestAddr → p.node.keyTable c =
    if p.keysLoaded then (keyStoreLoadFile emptyKeyTable (files path)).2 c else emptyKeyTable c

section Steps
variable {P : Primitives} {files : Bytes → Option Bytes} {argv0 path : Bytes} {p : Process}

theorem doKeyInit_found (h : Settled files argv0 path p) (hpath : keyPath files argv0 = some path) :
    doKeyInit p = { p with
      keysLoaded := true
      node := { p.node with keyTable := (keyStoreLoadFile p.node.keyTable (files path)).2 } } := by
  have hsearched : ∀ path ∈ keyPaths (some argv0), p.node.disk.files path = files path :=
    fun path hmem => h.others path (keyPaths_not_written hmem)
  obtain ⟨hcount, hnode⟩ := loadFirst_find h.reliable hsearched hpath
  rw [doKeyInit, demoLoadKeys, h.executable]
  simp only [hcount, hnode, decide_true]

theorem settled_start (files : Bytes → Option Bytes) (argv0 path : Bytes) :
    Settled files argv0 path (newProcess (some argv0) ⟨files, []⟩) :=
  ⟨rfl, rfl, List.mem_cons_self .., fun _ _ => rfl, fun _ _ => rfl⟩

theorem settled_keyInit (h : Settled files argv0 path p) (hpath : keyPath files argv0 = some path) :
    Settled files argv0 path (doKeyInit p) := by
  rw [doKeyInit_found h hpath]
  refine ⟨h.executable, h.reliable, h.statePath, h.others, fun c hc => ?_⟩
  refine keyStoreLoadFile_again _ ?_
  rw [h.keys c hc]
  cases p.keysLoaded
  · exact .inl rfl
  · exact .inr rfl

theorem settled_selfTest (h : Settled files argv0 path p) :
    Settled files argv0 path (doSelfTest P p).2.2 := by
  obtain ⟨htest, -⟩ := doSelfTest_effects (P := P) p h.reliable
  refine ⟨h.executable, htest.reliable, htest.statePath ▸ h.statePath, fun path hpath => ?_,
    fun c hc => (doSelfTest_keys p hc).trans (h.keys c hc)⟩
  rw [htest.files path fun heq => hpath (heq ▸ h.statePath), h.others path hpath]

theorem settled_exchange (h : Settled files argv0 path p) (port : SerialPort) :
    Settled files argv0 path (doRunExchange P port p).2 := by
  obtain ⟨hkeys, hreliable, hfiles⟩ := doRunExchange_frame (P := P) h.reliable port
  obtain ⟨-, hloaded, -, -⟩ := doRunExchange_settings (P := P) (p := p) port
  refine ⟨(doRunExchange_argv0 p port).trans h.executable, hreliable, ?_, fun path hpath => ?_,
    fun c hc => ?_⟩
  · cases hinit : p.keysLoaded with
    | false =>
      rw [doRunExchange_unloaded hinit]
      exact h.statePath
    | true =>
      rw [doRunExchange_statePath hinit h.reliable]
      exact statePathOf_written _
  · rw [hfiles path (fun heq => hpath (heq ▸ statePathOf_written _))
      (fun heq => hpath (heq ▸ by decide)), h.others path hpath]
  · rw [hkeys, hloaded, h.keys c hc]

/-- What a launch keeps to, whatever is chosen. -/
theorem settled_menu (hpath : keyPath files argv0 = some path) (h : Settled files argv0 path p)
    (o : MenuOption) : Settled files argv0 path (menu P p o) := by
  cases o with
  | switchMode => exact ⟨h.executable, h.reliable, h.statePath, h.others, h.keys⟩
  | keyInit => exact settled_keyInit h hpath
  | selfTest => exact settled_selfTest h
  | envConfig input => exact ⟨h.executable, h.reliable, h.statePath, h.others, h.keys⟩
  | runExchange port => exact settled_exchange h port

/-- Keys are not lost, and a key initialization brings them. -/
theorem menu_keysLoaded (hpath : keyPath files argv0 = some path) (h : Settled files argv0 path p)
    {o : MenuOption} (hinit : p.keysLoaded = true ∨ o = .keyInit) :
    (menu P p o).keysLoaded = true := by
  cases o with
  | keyInit =>
    show (doKeyInit p).keysLoaded = true
    rw [doKeyInit_found h hpath]
  | runExchange port =>
    obtain ⟨-, hsame, -, -⟩ := doRunExchange_settings (P := P) (p := p) port
    exact hsame.trans (hinit.resolve_right nofun)
  | switchMode => exact hinit.resolve_right nofun
  | selfTest => exact hinit.resolve_right nofun
  | envConfig input => exact hinit.resolve_right nofun

theorem settled_run (h : Settled files argv0 path p) (hpath : keyPath files argv0 = some path)
    (os : List MenuOption) : Settled files argv0 path (run (menu P) p os) ∧
      (p.keysLoaded = true ∨ MenuOption.keyInit ∈ os → (run (menu P) p os).keysLoaded = true) := by
  induction os generalizing p with
  | nil => exact ⟨h, fun hinit => hinit.resolve_right List.not_mem_nil⟩
  | cons o os ih =>
    obtain ⟨hsettled, hloaded⟩ := ih (settled_menu hpath h o)
    refine ⟨hsettled, ?_⟩
    rintro (hp | hmem)
    · exact hloaded (.inl (menu_keysLoaded hpath h (.inl hp)))
    · rcases List.mem_cons.mp hmem with ho | hos
      · exact hloaded (.inl (menu_keysLoaded hpath h (.inr ho.symm)))
      · exact hloaded (.inr hos)

/-! ### Counters -/

/-- What an exchange used is listed in its file. -/
theorem used_listed (hkeys : p.keysLoaded = true) (hd : p.node.disk.Reliable) (port : SerialPort)
    {c : Channel} (hblank : ((doRunExchange P port p).2.node.ctrTable c).blank = false)
    (hused : (fileEntry p c).isSome ∨
      (doRunExchange P port p).2.node.ctrTable c ≠ (loaded p).ctrTable c) :
    ((doRunExchange P port p).2.node.disk.files (statePathOf p.isMaster)).bind
      (fun text => listed text c) = some ((doRunExchange P port p).2.node.ctrTable c) := by
  have hdisk := (loaded_frame hd).2
  rcases doRunExchange_keptOrWritten (P := P) hkeys hd port with ⟨htable, hfile⟩ | hwritten
  · obtain ⟨e, he⟩ := Option.isSome_iff_exists.mp
      (hused.resolve_right fun hne => hne (congrFun htable c))
    rw [hfile, hdisk, htable, loaded_entry hd, he, Option.getD_some]
    exact he
  · rw [hwritten, Option.bind_some, listed_persistText, hblank]
    rfl

/-- An idle choice leaves the counter file of the mode. -/
theorem idle_menu {isMaster : Bool} (hd : p.node.disk.Reliable) {o : MenuOption}
    (hidle : Idle isMaster p o) : (menu P p o).node.disk.Reliable ∧
      (menu P p o).node.disk.files (statePathOf isMaster) =
        p.node.disk.files (statePathOf isMaster) := by
  cases o with
  | switchMode => exact ⟨hd, rfl⟩
  | keyInit =>
    obtain ⟨keyTable, hnode, -⟩ := doKeyInit_frame p hd
    show (doKeyInit p).node.disk.Reliable ∧ (doKeyInit p).node.disk.files _ = _
    rw [hnode]
    exact ⟨hd, rfl⟩
  | selfTest => exact hidle.elim
  | envConfig input => exact ⟨hd, rfl⟩
  | runExchange port =>
    obtain ⟨-, hreliable, hfiles⟩ := doRunExchange_frame (P := P) hd port
    have hne : isMaster ≠ p.isMaster := fun heq => hidle heq.symm
    exact ⟨hreliable, hfiles _ (statePathOf_ne hne) (statePathOf_ne_sent _)⟩

theorem idle_run {isMaster : Bool} (hd : p.node.disk.Reliable) {os : List MenuOption}
    (hidle : Always (menu P) (Idle isMaster) p os) :
    (run (menu P) p os).node.disk.files (statePathOf isMaster) =
      p.node.disk.files (statePathOf isMaster) := by
  have hstep : ∀ q o, q.node.disk.Reliable ∧ q.node.disk.files (statePathOf isMaster) =
      p.node.disk.files (statePathOf isMaster) → Idle isMaster q o →
      (menu P q o).node.disk.Reliable ∧ (menu P q o).node.disk.files (statePathOf isMaster) =
        p.node.disk.files (statePathOf isMaster) := by
    rintro q o ⟨hq, hfile⟩ ho
    obtain ⟨hreliable, hsame⟩ := idle_menu (P := P) hq ho
    exact ⟨hreliable, hsame.trans hfile⟩
  exact (invariant_run hstep ⟨hd, rfl⟩ hidle).2

theorem counterFile_eq (cwd : Place) (hd : p.node.disk.Reliable) :
    counterFile cwd p = locate cwd (statePathOf p.isMaster) := by
  rw [counterFile, (loaded_frame hd).1.statePath, ctrStateSetPath, statePathOf_take]

end Steps

/-! ### Two launches -/

section Launches
variable {P : Primitives} {l : Launches}

/-- The first launch has the keys of the file next to the executable. -/
theorem first_settled (h : SharedKeys P l) : ∃ path,
    Settled (view (ch '/') (ch '.') l.fs l.cwd₁) l.argv0 path (l.first P) ∧
      (l.first P).keysLoaded = true ∧
      view (ch '/') (ch '.') l.fs l.cwd₁ path = l.fs (besideFile l.cwd₁ l.argv0) := by
  obtain ⟨path, hpath, hplace⟩ := h.found₁
  obtain ⟨hsettled, hloaded⟩ := settled_run (P := P) (settled_start _ l.argv0 path) hpath l.before₁
  exact ⟨path, hsettled, hloaded (.inr h.init₁), congrArg l.fs hplace⟩

/-- The second launch searches the files that the first one searched, as they were. -/
theorem between_candidates {path : Bytes} (hmem : path ∈ keyPaths (some l.argv0)) :
    view (ch '/') (ch '.') (l.between P) l.cwd₂ path = view (ch '/') (ch '.') l.fs l.cwd₂ path := by
  obtain ⟨place, hplace⟩ := locate_keyPaths hmem l.cwd₂
  show l.between P (locate l.cwd₂ path) = l.fs (locate l.cwd₂ path)
  rw [hplace, between_keys]

theorem second_settled (h : SharedKeys P l) : ∃ path,
    Settled (view (ch '/') (ch '.') (l.between P) l.cwd₂) l.argv0 path (l.second P) ∧
      (l.second P).keysLoaded = true ∧
      view (ch '/') (ch '.') (l.between P) l.cwd₂ path = l.fs (besideFile l.cwd₂ l.argv0) := by
  obtain ⟨path, hpath, hplace⟩ := h.found₂
  have hfound : keyPath (view (ch '/') (ch '.') (l.between P) l.cwd₂) l.argv0 = some path := by
    rw [← hpath]
    refine List.find?_congr fun candidate hmem => ?_
    rw [entryCount, entryCount, between_candidates hmem]
  obtain ⟨hsettled, hloaded⟩ := settled_run (P := P) (settled_start _ l.argv0 path) hfound l.before₂
  refine ⟨path, hsettled, hloaded (.inr h.init₂), ?_⟩
  rw [between_candidates (List.mem_of_find?_eq_some hpath)]
  exact congrArg l.fs hplace

theorem keys_agree (h : SharedKeys P l) {c : Channel} (hc : channelAddr c ≠ selfTestAddr) :
    (l.second P).node.keyTable c = (l.first P).node.keyTable c := by
  obtain ⟨path, hfirst, hloaded, hfile⟩ := first_settled h
  obtain ⟨path', hsecond, hloaded', hfile'⟩ := second_settled h
  rw [hsecond.keys c hc, hfirst.keys c hc, hloaded, hloaded', hfile, hfile', h.sameKeys]

/-- In one directory the second launch loads what the first one left. -/
theorem counters_continue (h : SharedKeys P l) (hcwd : l.cwd₁ = l.cwd₂)
    (hafter : Always (menu P) (Idle (l.first P).isMaster) (l.firstDone P) l.after₁)
    (hbefore : Always (menu P) (Idle (l.first P).isMaster) (l.secondStart P) l.before₂)
    {c : Channel} (hused : Used P l c) :
    (loaded (l.second P)).ctrTable c = (l.firstDone P).node.ctrTable c := by
  obtain ⟨_, hfirst, hloaded, -⟩ := first_settled h
  obtain ⟨_, hsecond, -⟩ := second_settled h
  have hdone : (l.firstDone P).node.disk.Reliable :=
    (doRunExchange_frame (P := P) hfirst.reliable l.port₁).2.1
  have hstart : (l.secondStart P).node.disk.files (statePathOf (l.first P).isMaster) =
      (l.firstDone P).node.disk.files (statePathOf (l.first P).isMaster) := by
    rw [← idle_run hdone hafter]
    show l.between P (locate l.cwd₂ _) = _
    rw [← hcwd]
    exact store_name writtenFiles_plain (statePathOf_written _)
  have hlisted : fileEntry (l.second P) c = some ((l.firstDone P).node.ctrTable c) := by
    have hfile := idle_run (P := P) (p := l.secondStart P) rfl hbefore
    rw [fileEntry, ← h.sameMode, Launches.second, hfile, hstart]
    exact used_listed hloaded hfirst.reliable l.port₁ hused.1 hused.2
  rw [loaded_entry hsecond.reliable, hlisted, Option.getD_some]

theorem counterFile_agree (h : SharedKeys P l) :
    counterFile l.cwd₁ (l.first P) = counterFile l.cwd₂ (l.second P) ↔ l.cwd₁ = l.cwd₂ := by
  obtain ⟨_, hfirst, -⟩ := first_settled h
  obtain ⟨_, hsecond, -⟩ := second_settled h
  rw [counterFile_eq _ hfirst.reliable, counterFile_eq _ hsecond.reliable, h.sameMode]
  exact resolve_plain_inj (writtenFiles_plain _ (statePathOf_written _))

end Launches

/-! ### Two directories -/

/-- One key file, next to the executable. -/
def demoFiles : FileSystem := Function.update (fun _ => none) [ascii ['d'], keysFile] (some keyText)

def demoExecutable : Bytes := ascii ['/', 'd', '/', 'x']

/-- A key initialization and an exchange, in one directory and then in another. -/
def demoLaunches (cwd₁ cwd₂ : Place) : Launches where
  argv0 := demoExecutable
  fs := demoFiles
  cwd₁ := cwd₁
  cwd₂ := cwd₂
  before₁ := [.keyInit]
  port₁ := noPort
  after₁ := []
  before₂ := [.keyInit]

section Demo
variable {P : Primitives} {cwd₁ cwd₂ : Place}

theorem demoFiles_found {cwd : Place} (hcwd : cwd ∈ [[ascii ['a']], [ascii ['b']], [ascii ['d']]]) :
    FoundBeside demoFiles cwd demoExecutable := by
  have hhere : FoundBeside demoFiles [ascii ['d']] demoExecutable := ⟨keysFile, by decide, rfl⟩
  have haway : ∀ cwd ∈ [[ascii ['a']], [ascii ['b']]], FoundBeside demoFiles cwd demoExecutable := by
    intro cwd hcwd
    refine ⟨exeRelativePath demoExecutable keysFile 512, ?_, rfl⟩
    revert cwd
    decide
  simp only [List.mem_cons, List.not_mem_nil, or_false] at hcwd haway
  rcases hcwd with rfl | rfl | rfl
  · exact haway _ (.inl rfl)
  · exact haway _ (.inr rfl)
  · exact hhere

theorem demoLaunches_shared (h₁ : cwd₁ ∈ [[ascii ['a']], [ascii ['b']], [ascii ['d']]])
    (h₂ : cwd₂ ∈ [[ascii ['a']], [ascii ['b']], [ascii ['d']]]) :
    SharedKeys P (demoLaunches cwd₁ cwd₂) where
  directory := List.mem_cons_self ..
  init₁ := List.mem_singleton_self _
  init₂ := List.mem_singleton_self _
  found₁ := demoFiles_found h₁
  found₂ := demoFiles_found h₂
  sameKeys := rfl
  sameMode := rfl

theorem demoFiles_keys : demoFiles [ascii ['d'], keysFile] = some keyText := Function.update_self ..

/-- The key of slave 1 is loaded from next to the executable. -/
theorem demo_keys {files : Bytes → Option Bytes} {argv0 path : Bytes} {p : Process}
    (h : Settled files argv0 path p) (hkeys : p.keysLoaded = true)
    (hfile : files path = some keyText) :
    ∃ keys, p.node.keyTable (1, 0) = ⟨true, keys, 0⟩ := by
  have hentry : ∃ keys, (keyStoreLoadFile emptyKeyTable (some keyText)).2 (1, 0) = ⟨true, keys, 0⟩ :=
    ⟨_, rfl⟩
  rw [h.keys (1, 0) (by decide), hkeys, if_pos rfl, hfile]
  exact hentry

/-- An exchange behind a key initialization, in a directory without a counter file. -/
theorem demo_exchange {fs : FileSystem} {cwd : Place} {path : Bytes} {p : Process}
    (hp : p = menu P (newProcess (some demoExecutable) (diskIn fs cwd)) .keyInit)
    (h : Settled (view (ch '/') (ch '.') fs cwd) demoExecutable path p) (hkeys : p.keysLoaded = true)
    (hfile : view (ch '/') (ch '.') fs cwd path = some keyText)
    (hnone : fs (locate cwd ctrStateDefaultPath) = none) :
    ∃ wire, (doRunExchange P noPort p).1.sent = some (seedFrame wire) := by
  obtain ⟨keys, hkey⟩ := demo_keys h hkeys hfile
  obtain ⟨keyTable, hnode, -⟩ := doKeyInit_frame
    (newProcess (some demoExecutable) (diskIn fs cwd)) rfl
  have hp' : p.node = { startProcess (diskIn fs cwd) with keyTable := keyTable } := hp ▸ hnode
  have hmode : p.isMaster = true := by rw [hp]; rfl
  refine exchange_at_seed h.reliable hkeys hmode (by rw [hp]; rfl) hkey ?_ ?_
  · have hfile' : p.node.disk.files (statePathOf p.isMaster) = none := by
      rw [hmode, hp']
      exact hnone
    rw [fileEntry, hfile', Option.bind_none]
  · rw [hp']
    rfl

/-- Both exchanges encrypt under counter 0. -/
theorem demo_exchanges (P : Primitives) : ∃ wire wire',
    (doRunExchange P noPort ((demoLaunches [ascii ['a']] [ascii ['b']]).first P)).1.sent =
        some (seedFrame wire) ∧
      (doRunExchange P noPort ((demoLaunches [ascii ['a']] [ascii ['b']]).second P)).1.sent =
        some (seedFrame wire') := by
  have hshared : SharedKeys P (demoLaunches [ascii ['a']] [ascii ['b']]) :=
    demoLaunches_shared (by decide) (by decide)
  obtain ⟨path, hfirst, hloaded, hfile⟩ := first_settled hshared
  obtain ⟨path', hsecond, hloaded', hfile'⟩ := second_settled hshared
  have hnone : demoFiles (locate [ascii ['a']] ctrStateDefaultPath) = none := rfl
  have hnone' : (demoLaunches [ascii ['a']] [ascii ['b']]).between P
      (locate [ascii ['b']] ctrStateDefaultPath) = none := by
    have hother : ∀ name ∈ writtenFiles, locate [ascii ['a']] name ≠
        locate [ascii ['b']] ctrStateDefaultPath := by decide
    exact store_other hother
  obtain ⟨wire, hwire⟩ := demo_exchange rfl hfirst hloaded (hfile.trans demoFiles_keys) hnone
  obtain ⟨wire', hwire'⟩ := demo_exchange rfl hsecond hloaded' (hfile'.trans demoFiles_keys) hnone'
  exact ⟨wire, wire', hwire, hwire'⟩

theorem demo_two_files (hshared : SharedKeys P (demoLaunches [ascii ['a']] [ascii ['b']])) :
    ¬ OneCounterFile P (demoLaunches [ascii ['a']] [ascii ['b']]) := by
  intro hone
  have hcwd : [ascii ['a']] = [ascii ['b']] := (counterFile_agree hshared).mp hone.sameFile
  exact absurd hcwd (by decide)

/-- LEA with a fixed MAC. -/
def demoPrimitives : Primitives := leaPrimitives fun _ _ => ⟨List.replicate 32 0, rfl⟩

end Demo
end ModbusSecurity.LaunchPaths
