import HavyOs.Fs.Directory
import HavyOs.Fs.ReadBack

/-!
# Which names are found again

`write_file` cuts a name at 64 bytes and pads it with zeros, while a lookup decodes the bytes in
front of the first zero and takes bytes that are not UTF-8 for the empty name. So a name is found
again when it has between 1 and 64 bytes and no zero among them. The empty name is special: it
finds the first entry whose bytes are not UTF-8, and a write under it frees the place of that
entry.
-/

namespace HavyOs.Fs

open HavyOs.Lib CacheMem DirEntry FileSystemState FileSystemState List

/-- A read of `name` on the device gives `result`. -/
def Reads (dev : BlockDev) (name : String) (result : Option (List UInt8)) : Prop :=
  ∃ dev', FileSystemState.readFile name dev = .ok result dev'

/-- If a write of `name` and the `sync` behind it return, the data is read under the name, and under
every other name what was read before. -/
def FoundAgain (m : FsMem) (name : String) (data : List UInt8) : Prop :=
  ∀ m₁ m₂ count, FileSystemState.writeFile name data m = .ok () m₁ → FileSystemState.sync m₁ = .ok count m₂ →
    Reads m₂.dev name (some data) ∧ ∀ other, other ≠ name → ∀ result, Reads m₂.dev other result ↔
    Reads m.dev other result

/-- The second entry whose name is not UTF-8 holds `data`: this is what the empty name finds once
the place of the first one is free. -/
def NextUnreadable (disk : Nat → Block) (data : List UInt8) : Prop :=
  ∃ first, firstSlot (DirEntry.isNamed "") disk = some first ∧ Holds (storeAt disk first noEntry) "" (some data)

/-! ## Lookups -/

section Lookup

variable {disk disk' : Nat → Block} {slot : Slot} {name other : String}

theorem DirEntry.isNamed_unique {e : DirEntry} (named : e.isNamed name = true) (named' : e.isNamed other = true) :
    name = other := by
  simp only [isNamed, Bool.and_eq_true, beq_iff_eq] at named named'
  exact named.2.symm.trans named'.2

theorem DirEntry.isNamed_of_unused {e : DirEntry} (unused : e.used = false) : e.isNamed name = false := by
  rw [isNamed, unused, Bool.false_and]

theorem lookup_of_not_storable (nonempty : name ≠ "") (not : ¬ Storable name) :
    firstSlot (isNamed name) disk = none := by
  cases lookup : firstSlot (isNamed name) disk with
  | none => rfl
  | some t =>
    have named := (firstSlot_some lookup).1
    have raw := rawName_of_isNamed nonempty named
    refine absurd ⟨?_, ?_, fun nul => ?_⟩ not
    · rw [← raw]
      exact length_pos_iff.mpr (used_iff.mp (used_of_isNamed named))
    · rw [← raw]
      have short := (takeWhile_sublist (· != 0) (l := (entryOn disk t).name.toList)).length_le
      rwa [Vector.length_toList] at short
    · rw [isNamed_nul nul] at named
      cases named

/-- The first place stays the first when only its own entry is replaced by one that is found too. -/
theorem firstSlot_replaced {p : DirEntry → Bool} (others : ∀ t, t ≠ slot → entryOn disk' t = entryOn disk t)
    (first : firstSlot p disk = some slot ∨ firstSlot p disk = none) (after : p (entryOn disk' slot) = true) :
    firstSlot p disk' = some slot := by
  cases lookup : firstSlot p disk' with
  | none =>
    rw [firstSlot_none lookup slot] at after
    cases after
  | some t =>
    by_cases same : t = slot
    · rw [same]
    · obtain ⟨found, earlier⟩ := firstSlot_some lookup
      rw [others t same] at found
      rcases first with was | missing
      · -- both are the first, in the old and in the new directory
        have notBelow : ¬ slot.rank < t.rank := fun lower => by
          rw [earlier slot lower] at after
          cases after
        have notAbove : ¬ t.rank < slot.rank := fun lower => by
          rw [(firstSlot_some was).2 t lower] at found
          cases found
        exact absurd (Slot.rank_inj (by omega)) same
      · rw [firstSlot_none missing t] at found
        cases found

theorem Holds.unique {value value' : Option (List UInt8)} (h : Holds disk name value) (h' : Holds disk name value') :
    value = value' := by
  cases h with
  | absent none =>
    cases h' with
    | absent _ => rfl
    | present found _ => exact absurd (none.symm.trans found) (by simp)
  | present found linked =>
    cases h' with
    | absent none => exact absurd (none.symm.trans found) (by simp)
    | present found' linked' =>
      cases found.symm.trans found'
      rw [linked.unique linked']

/-- A change at one place that the name does not find, before and after, and outside the blocks in use. -/
theorem Holds.elsewhere {inUse : Nat → Prop} {value : Option (List UInt8)} (h : Holds disk name value)
    (intact : Intact disk inUse)
    (others : ∀ t, t ≠ slot → entryOn disk' t = entryOn disk t) (before : (entryOn disk slot).isNamed name = false)
    (after : (entryOn disk' slot).isNamed name = false) (blocks : ∀ s, inUse s → disk' s = disk s) :
    Holds disk' name value := by
  refine h.frame (firstSlot_unchanged others before after) (fun t found => others t ?_)
    fun t found chain linked b member => ?_
  · exact found_ne before found
  · exact blocks _ (intact.linked (used_of_isNamed (firstSlot_some found).1) linked member)

end Lookup

theorem reads_iff {dev : BlockDev} (reliable : dev.Reliable) {name : String} {value : Option (List UInt8)}
    (holds : Holds dev.disk name value) {result : Option (List UInt8)} : Reads dev name result ↔ result = value := by
  obtain ⟨_, dev', read, rfl, -⟩ := wp_returns (readFile_holds reliable holds)
  constructor
  · rintro ⟨_, again⟩
    rw [read] at again
    exact (EStateM.Result.ok.inj again).1.symm
  · rintro rfl
    exact ⟨dev', read⟩

/-! ## A write and its `sync` -/

/-- The device after a write from a clean state and the `sync` behind it. -/
structure Rewritten (name : String) (data : List UInt8) (slot : Slot) (m m₂ : FsMem) : Prop where
  selected : selectSlot m.disk name = some slot
  reliable : m₂.dev.Reliable
  stored : ∃ blocks, entryOn m₂.disk slot = newEntry name data.length blocks ∧
    Linked m₂.disk (newEntry name data.length blocks).head blocks ∧
    fileOf m₂.disk (newEntry name data.length blocks) blocks = data
  others : ∀ t, t ≠ slot → entryOn m₂.disk t = entryOn m.disk t
  blocks : ∀ s, m.inUse s → m₂.disk s = m.disk s

section Rewrite

variable {m m₁ m₂ : FsMem} {name : String} {data : List UInt8} {slot : Slot} {count : Nat}

theorem Consistent.rewritten (h : Consistent m) (clean : m.mem.Clean) {blocks : List UInt32}
    (written : Written name data slot blocks m m₁) (synced : sync m₁ = .ok count m₂) :
    Rewritten name data slot m m₂ := by
  have view : m.view = m.disk := h.ready.coherent.view_eq_disk clean
  obtain ⟨reliable, entries, elsewhere⟩ := sync_holds (written.ready h.ready) (written.low h.low) synced
  have stored : ∀ b ∈ blocks, m₂.disk b.toNat = m₁.view b.toNat := fun b member =>
    disk_inUse elsewhere (written.inUse_fresh (mem_sectors.mpr ⟨b, member, rfl⟩))
  refine ⟨written.selected, reliable, ⟨blocks, by rw [entries, written.entry], written.linked.frame stored, ?_⟩, ?_, ?_⟩
  · rw [fileOf_frame _ stored, written.holds]
  · intro t apart
    rw [entries, written.entries t apart, view]
  · intro s inUse
    rw [disk_inUse elsewhere (written.inUse_mono h.low inUse), written.view_inUse inUse, view]

/-- Neither before nor after does the place answer to another name than the one a storable name is
written for. -/
theorem Rewritten.other (h : Rewritten name data slot m m₂) (intact : Intact m.disk m.inUse) {other : String}
    (different : other ≠ name) (after : (entryOn m₂.disk slot).isNamed other = false) (reliable : m.dev.Reliable)
    (result : Option (List UInt8)) : Reads m₂.dev other result ↔ Reads m.dev other result := by
  obtain ⟨_, holds⟩ := intact.exists_holds other
  have before : (entryOn m.disk slot).isNamed other = false := by
    apply Bool.eq_false_iff.mpr
    intro named
    rcases selectSlot_cases h.selected with found | ⟨-, unused⟩
    · exact different (isNamed_unique named (firstSlot_some found).1)
    · rw [isNamed_of_unused unused] at named
      cases named
  rw [reads_iff h.reliable (holds.elsewhere intact h.others before after h.blocks), reads_iff reliable holds]

theorem Rewritten.holds (h : Rewritten name data slot m m₂) (storable : Storable name) :
    Holds m₂.disk name (some data) := by
  obtain ⟨_, entry, linked, contents⟩ := h.stored
  have named : (entryOn m₂.disk slot).isNamed name = true := by
    rw [entry]
    exact (newEntry_isNamed storable storable _ _).mpr rfl
  have first : firstSlot (isNamed name) m.disk = some slot ∨ firstSlot (isNamed name) m.disk = none := by
    rcases selectSlot_cases h.selected with found | ⟨missing, -⟩
    · exact Or.inl found
    · exact Or.inr missing
  rw [← contents, ← entry]
  exact .present (firstSlot_replaced h.others first named) (by rw [entry]; exact linked)

/-- The entry of the empty name marks its place as free. -/
theorem newEntry_empty_used (length : Nat) (blocks : List UInt32) : (newEntry "" length blocks).used = false := by
  rw [Bool.eq_false_iff, ne_eq, used_iff, rawName, newEntry, fixedName_toList (by decide)]
  decide

/-- Under the empty name the next entry is found whose name is not UTF-8. -/
theorem Rewritten.empty_reads (h : Rewritten "" data slot m m₂) (intact : Intact m.disk m.inUse) :
    Reads m₂.dev "" (some data) ↔ NextUnreadable m.disk data := by
  have after : (entryOn m₂.disk slot).isNamed "" = false := by
    obtain ⟨blocks, entry, -⟩ := h.stored
    rw [entry]
    exact isNamed_of_unused (newEntry_empty_used _ _)
  cases lookup : firstSlot (isNamed "") m.disk with
  | none =>
    have missing : Holds m₂.disk "" none :=
      (Holds.absent lookup).elsewhere intact h.others (firstSlot_none lookup slot) after h.blocks
    rw [reads_iff h.reliable missing]
    constructor
    · intro absurd
      cases absurd
    · rintro ⟨first, found, -⟩
      rw [lookup] at found
      cases found
  | some first =>
    obtain rfl : first = slot := by
      have selected := h.selected
      rw [selectSlot, lookup] at selected
      exact Option.some.inj selected
    have cleared := intact.storeAt_noEntry (fun s inUse => inUse.inData) first
    obtain ⟨value, holds⟩ := cleared.exists_holds ""
    have before : (entryOn (storeAt m.disk first noEntry) first).isNamed "" = false :=
      isNamed_of_unused (used_storeAt_noEntry _ _)
    have now : Holds m₂.disk "" value := by
      refine holds.elsewhere cleared (fun t apart => ?_) before after fun s inUse => ?_
      · rw [h.others t apart, entryOn_storeAt_other m.disk apart noEntry_length]
      · rw [h.blocks s inUse, storeAt_other _ (Slot.sector_ne inUse.inData)]
    rw [reads_iff h.reliable now]
    constructor
    · rintro rfl
      exact ⟨first, lookup, holds⟩
    · rintro ⟨_, found, next⟩
      cases lookup.symm.trans found
      exact next.unique holds

end Rewrite

theorem Rewritten.not_reads {m m₂ : FsMem} {name : String} {data : List UInt8} {slot : Slot}
    (h : Rewritten name data slot m m₂)
    (nonempty : name ≠ "") (not : ¬ Storable name) : Reads m₂.dev name none :=
  (reads_iff h.reliable (.absent (lookup_of_not_storable nonempty not))).mpr rfl

/-- **Names that are found again.** In a consistent state with nothing dirty, a write and its
`sync` give the data back and leave the other names alone exactly when the name is storable, or
the write does not return for want of a place or of blocks, or, under the empty name, the next
entry whose name is not UTF-8 happens to hold the same data. -/
theorem found_again_iff {m : FsMem} (consistent : Consistent m) (clean : m.mem.Clean) (name : String)
    (data : List UInt8) :
    FoundAgain m name data ↔ Storable name ∨ selectSlot m.disk name = none ∨
      freeCount m.fs.bitmapCache < blocksFor data.length ∨ (name = "" ∧ NextUnreadable m.disk data) := by
  have ready := consistent.ready
  have view : m.view = m.disk := ready.coherent.view_eq_disk clean
  have intact := consistent.intact
  rw [view] at intact
  constructor
  · intro found
    by_contra none
    simp only [not_or] at none
    obtain ⟨unstorable, place, short, empty⟩ := none
    obtain ⟨m₁, slot, blocks, wrote, written⟩ := writeFile_returns ready place (Nat.le_of_not_lt short)
    have consistent₁ := consistent.written written
    obtain ⟨count, m₂, synced, -⟩ := wp_returns (sync_spec consistent₁.ready consistent₁.low)
    have rewritten := consistent.rewritten clean written synced
    obtain ⟨reads, -⟩ := found m₁ m₂ count wrote synced
    by_cases nothing : name = ""
    · subst nothing
      exact empty ⟨rfl, (rewritten.empty_reads intact).mp reads⟩
    · obtain ⟨_, missing⟩ := rewritten.not_reads nothing unstorable
      obtain ⟨_, read⟩ := reads
      rw [missing] at read
      cases (EStateM.Result.ok.inj read).1
  · intro condition m₁ m₂ count wrote synced
    obtain ⟨slot, blocks, written⟩ := wp_of_ok (writeFile_spec ready name data) wrote
    have rewritten := consistent.rewritten clean written synced
    obtain ⟨stored, entry, -⟩ := rewritten.stored
    rcases condition with storable | place | short | ⟨rfl, next⟩
    · refine ⟨(reads_iff rewritten.reliable (rewritten.holds storable)).mpr rfl, fun other different => ?_⟩
      refine rewritten.other intact different ?_ ready.reliable
      rw [entry]
      apply Bool.eq_false_iff.mpr
      intro named
      exact different (isNamed_unique named ((newEntry_isNamed storable storable _ _).mpr rfl))
    · rw [written.selected] at place
      cases place
    · have free := written.free
      have taken := written.count
      omega
    · refine ⟨(rewritten.empty_reads intact).mpr next, fun other different => ?_⟩
      refine rewritten.other intact different ?_ ready.reliable
      rw [entry]
      exact isNamed_of_unused (newEntry_empty_used _ _)

/-- A name with a character of two bytes on an empty image. -/
theorem found_again_iff_blank : blankState.mem.Clean ∧ FoundAgain blankState "/é" [1] := by
  refine ⟨blankState_mounted.clean, ?_⟩
  rw [found_again_iff blankState_mounted.consistent blankState_mounted.clean]
  exact Or.inl ⟨by decide, by decide, by decide⟩

def longName : String := String.ofList (replicate 65 'a')

/-- The write and the `sync` return, and the name is not found. -/
theorem long_name_lost : ∃ m₁ m₂ count, writeFile longName [1] blankState = .ok () m₁ ∧
    sync m₁ = .ok count m₂ ∧ Reads m₂.dev longName none := by
  have long : ¬ Storable longName := fun storable => absurd storable.fits (by decide +kernel)
  have consistent := blankState_mounted.consistent
  obtain ⟨m₁, _, _, wrote, written⟩ := @blankState_writes longName [1] (by decide)
  have consistent₁ := consistent.written written
  obtain ⟨count, m₂, synced, -⟩ := wp_returns (sync_spec consistent₁.ready consistent₁.low)
  have rewritten := consistent.rewritten blankState_mounted.clean written synced
  exact ⟨m₁, m₂, count, wrote, synced, rewritten.not_reads (by decide +kernel) long⟩

/-! ## Runs -/

/-- **One call.** Whatever the names, and however the call ends. -/
theorem Consistent.step {m m' : FsMem} (h : Consistent m) {op : FsOp} (step : op.step m m') : Consistent m' := by
  cases FsOp.step_effect h.ready h.low step with
  | browsed browsed => exact h.aside (.of_browsed h.ready browsed)
  | written _ written => exact h.written written
  | failed browsed failed =>
    exact (h.aside (.of_browsed h.ready browsed)).aside (.of_failed (browsed.ready h.ready) failed)
  | removed removed => exact h.removed removed
  | synced run => exact h.synced run

/-- **Whole runs.** From a mounted image every sequence of calls, with any names, leads to
consistent states. -/
theorem consistent_of_run {m m' : FsMem} {ops : List FsOp} (mounted : Mounted m) (run : Run FsOp.step m ops m') :
    Consistent m' :=
  run.invariant (fun _ _ _ h step => h.step step) mounted.consistent

/-- A write under the empty name, and a `sync`. -/
theorem consistent_of_run_unnamed : ∃ m', Run FsOp.step blankState [.writeFile "" [1], .sync] m' ∧ Consistent m' := by
  have ends : ∀ (m : FsMem) (op : FsOp), ∃ m', op.step m m' := by
    intro m op
    cases ran : op.exec m with
    | ok _ m' => exact ⟨m', .inl ran⟩
    | error e m' => exact ⟨m', .inr ⟨e, ran⟩⟩
  obtain ⟨m₁, wrote⟩ := ends blankState (.writeFile "" [1])
  obtain ⟨m₂, synced⟩ := ends m₁ .sync
  have run : Run FsOp.step blankState [.writeFile "" [1], .sync] m₂ := .cons wrote (.cons synced (.nil m₂))
  exact ⟨m₂, run, consistent_of_run blankState_mounted run⟩

end HavyOs.Fs
