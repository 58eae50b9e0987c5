import ModbusSecurity.FrameRejection

/-! # What a counter file records

A channel's counter in the table of a process, and in a counter file on its disk. -/
namespace ModbusSecurity.CounterRecords
open ByteStrings KeyStore CounterFile CounterState SecureFraming

/-- The counter of an entry, if it is set. -/
def entryValue (e : CtrEntry) : Option (BitVec 32) := if e.validOut = 0 then none else some e.nextOut

/-- The counter that the file at `path` lists for a channel. -/
def recorded (disk : Disk) (path : Bytes) (c : Channel) : Option (BitVec 32) :=
  (disk.files path).bind fun text => (listed text c).bind entryValue

/-- The next access to the disk does not fail. -/
def WritesThrough (disk : Disk) : Prop := ∀ o ∈ disk.pending.head?, o = .succeeds

/-- Every channel that the state file lists as set is set in memory. -/
def Covers (n : Node) : Prop :=
  ∀ c, (recorded n.disk n.statePath c).isSome → (entryValue (n.ctrTable c)).isSome

theorem writesThrough_of_reliable {disk : Disk} (h : disk.Reliable) : WritesThrough disk := by
  simp [WritesThrough, show disk.pending = [] from h]

theorem files_write {disk : Disk} (h : WritesThrough disk) (path contents : Bytes) :
    (disk.write path contents).2.files = Function.update disk.files path (some contents) := by
  obtain ⟨files, pending⟩ := disk
  cases pending with
  | nil => rfl
  | cons o rest =>
    obtain rfl := h o rfl
    rfl

section Entries
variable (n : Node) (c : Channel)

theorem entryValue_eq_some {e : CtrEntry} {v : BitVec 32} :
    entryValue e = some v ↔ e.validOut ≠ 0 ∧ e.nextOut = v := by
  simp [entryValue]

theorem nextValue_of_entryValue {v : BitVec 32} (h : entryValue (n.ctrTable c) = some v) :
    nextValue n c = v := by
  obtain ⟨hset, hnext⟩ := entryValue_eq_some.mp h
  rw [nextValue_of_set hset, hnext]

theorem entryValue_reserve (e : CtrEntry) (value : BitVec 32) (msg_len : ℕ) :
    entryValue (reserve e value msg_len) = some (value + numBlocks msg_len) :=
  entryValue_eq_some.mpr ⟨reserve_validOut_ne_zero e value msg_len, rfl⟩

theorem listed_entryValue (table : CtrTable) :
    (listed (persistText table) c).bind entryValue = entryValue (table c) := by
  rw [listed_persistText]
  by_cases hblank : (table c).blank
  · have hout : (table c).validOut = 0 := by
      simp only [CtrEntry.blank, Bool.and_eq_true, beq_iff_eq] at hblank
      exact hblank.1
    rw [if_pos hblank, entryValue, if_pos hout]
    rfl
  · rw [if_neg hblank]
    rfl

/-- A table that is written out is what the file records. -/
theorem recorded_storeEntry (hw : WritesThrough n.disk) (d : Channel) (e : CtrEntry) :
    recorded (storeEntry n d e).disk n.statePath c = entryValue (Function.update n.ctrTable d e c) := by
  rw [recorded, storeEntry_disk, files_write hw, Function.update_self, Option.bind_some,
    listed_entryValue]

theorem recorded_eq_some {disk : Disk} {path : Bytes} {v : BitVec 32} :
    recorded disk path c = some v ↔
      ∃ text e, disk.files path = some text ∧ listed text c = some e ∧ entryValue e = some v := by
  simp [recorded, Option.bind_eq_some_iff]

end Entries

theorem read_cases (disk : Disk) (path : Bytes) :
    (disk.read path).2.files = disk.files ∧
      ((disk.read path).1 = none ∨ (disk.read path).1 = disk.files path) := by
  obtain ⟨files, pending⟩ := disk
  match pending with
  | [] => exact ⟨rfl, .inr rfl⟩
  | .openFails :: _ => exact ⟨rfl, .inl rfl⟩
  | .succeeds :: _ => exact ⟨rfl, .inr rfl⟩
  | .writesOnly _ :: _ => exact ⟨rfl, .inr rfl⟩

section Loading
variable (n : Node)

theorem ctrStateLoad_frame : (ctrStateLoad n).2.keyTable = n.keyTable ∧
    (ctrStateLoad n).2.statePath = n.statePath ∧
    (ctrStateLoad n).2.disk.files = n.disk.files := by
  have hfiles := (read_cases n.disk n.statePath).1
  rw [ctrStateLoad]
  generalize n.disk.read n.statePath = r at hfiles
  obtain ⟨_ | text, disk⟩ := r
  · exact ⟨rfl, rfl, hfiles⟩
  · exact ⟨rfl, rfl, hfiles⟩

/-- A load brings what the file records, or changes nothing. -/
theorem ctrStateLoad_cases : (ctrStateLoad n).2.ctrTable = n.ctrTable ∨
    ∃ text, n.disk.files n.statePath = some text ∧
      (ctrStateLoad n).2.ctrTable = loadText text n.ctrTable := by
  have hread := (read_cases n.disk n.statePath).2
  rw [ctrStateLoad]
  generalize n.disk.read n.statePath = r at hread
  obtain ⟨_ | text, disk⟩ := r
  · exact .inl rfl
  · rcases hread with hread | hread
    · cases hread
    · exact .inr ⟨text, hread.symm, rfl⟩

theorem entryValue_loadText {text : Bytes} {c : Channel} {v : BitVec 32}
    (htext : n.disk.files n.statePath = some text)
    (hrec : recorded n.disk n.statePath c = some v) (table : CtrTable) :
    entryValue (loadText text table c) = some v := by
  obtain ⟨text', e, htext', hlisted, hv⟩ := (recorded_eq_some c).mp hrec
  obtain rfl : text = text' := Option.some.inj (htext.symm.trans htext')
  rw [loadText_apply, hlisted]
  exact hv

end Loading
end ModbusSecurity.CounterRecords
