import HavyOs.Fs.GlobalSfs

/-!
# The filesystem as a map from names to contents

What `GlobalSfs` is for: a map from names to byte strings, with a number of free blocks
and of free places in the directory that decide whether a write succeeds. Since every
successful write is followed by its own `sync`, between two calls the device holds the
directory and every chain as the cache shows them, and the reads, which go to the
device, see what was written. A write that runs out of blocks leaves them taken, but
neither an entry nor a block of a file changes.
-/

namespace HavyOs.Fs

open HavyOs.Lib CacheMem DirEntry GlobalSfs Function List

/-- The calls a client makes of `GlobalSfs`. -/
inductive SfsCall where
  | writeFile (path : String) (data : List UInt8)
  | remove (path : String)
  | readFile (path : String)

inductive Answer where
  | done
  | failed (error : String)
  | contents (result : Option (List UInt8))

structure FileMap where
  files : String → Option (List UInt8)
  freeBlocks : Nat
  freeSlots : Nat

def FileMap.call (f : FileMap) : SfsCall → Answer × FileMap
  | .writeFile path data =>
    if f.files path = none ∧ f.freeSlots = 0 then (.failed "Root dir full", f)
    else if f.freeBlocks < blocksFor data.length then (.failed "Disk full", { f with freeBlocks := 0 })
    else (.done,
      { files := Function.update f.files path (some data)
        freeBlocks := f.freeBlocks - blocksFor data.length
        freeSlots := if f.files path = none then f.freeSlots - 1 else f.freeSlots })
  | .remove path =>
    if f.files path = none then (.failed "File not found", f)
    else (.done, { f with files := Function.update f.files path none, freeSlots := f.freeSlots + 1 })
  | .readFile path => (.contents (f.files path), f)

def GlobalSfs.call (m : FsMem) : SfsCall → Answer × FsMem
  | .writeFile path data =>
    match GlobalSfs.writeFile path data m with
    | .ok _ m' => (.done, m')
    | .error e m' => (.failed e, m')
  | .remove path =>
    match GlobalSfs.remove path m with
    | .ok _ m' => (.done, m')
    | .error e m' => (.failed e, m')
  | .readFile path =>
    match GlobalSfs.readFile path m with
    | .ok result m' => (.contents result, m')
    | .error e m' => (.failed e, m')

/-- The calls considered: names an entry can hold, and no removal of a directory. -/
def SfsCall.Admitted : SfsCall → Prop
  | .writeFile path _ => Storable path
  | .remove path => Storable path ∧ endsWithSlash path = false
  | .readFile path => Storable path

/-- `value` is what the directory of `disk` holds under `name`. -/
inductive Holds (disk : Nat → Block) (name : String) : Option (List UInt8) → Prop where
  | absent (lookup : firstSlot (DirEntry.isNamed name) disk = none) : Holds disk name none
  | present {slot : Slot} {blocks : List UInt32} (lookup : firstSlot (DirEntry.isNamed name) disk = some slot)
      (linked : Linked disk (entryOn disk slot).head blocks) :
      Holds disk name (some (fileOf disk (entryOn disk slot) blocks))

/-- `files` is what the directory of `disk` holds under the names an entry can hold. -/
def Represents (disk : Nat → Block) (files : String → Option (List UInt8)) : Prop :=
  ∀ name, Storable name → Holds disk name (files name)

def freeSlots (disk : Nat → Block) : Nat := slots.countP fun slot => !(entryOn disk slot).used

/-- The directory and the blocks of every file are on the device as the cache shows them. -/
structure Settled (m : FsMem) : Prop where
  ready : Ready m
  low : LowUncached m
  dirs : ∀ slot : Slot, m.view slot.sector = m.disk slot.sector
  intact : Intact m.disk fun s => m.inUse s ∧ m.view s = m.disk s
  distinct : Distinct m.disk

/-- The state between two calls and the map it stands for. -/
structure Refines (m : FsMem) (f : FileMap) : Prop extends Settled m where
  files : Represents m.disk f.files
  blocks : f.freeBlocks = freeCount m.fs.bitmapCache
  slots : f.freeSlots = freeSlots m.disk

variable {m : FsMem} {disk : Nat → Block} {name : String} {files : String → Option (List UInt8)}

theorem Settled.entries (h : Settled m) (slot : Slot) : entryOn m.view slot = entryOn m.disk slot := by
  rw [entryOn, h.dirs, entryOn]

theorem Settled.intact_view (h : Settled m) : Intact m.view m.inUse :=
  h.intact.frame h.entries (fun _ inside => inside.2) fun _ inside => inside.1

theorem Settled.of_synced (synced : Synced m) (low : LowUncached m) (intact : Intact m.disk m.inUse)
    (distinct : Distinct m.disk) : Settled m :=
  ⟨synced.ready, low, fun _ => congrFun synced.view _,
    intact.frame (fun _ => rfl) (fun _ _ => rfl) fun s inside => ⟨inside, congrFun synced.view s⟩, distinct⟩

theorem Mounted.settled (h : Mounted m) : Settled m := by
  refine Settled.of_synced ⟨h.ready, h.clean, h.view⟩ (fun s _ => h.uncached s) ?_ h.valid.distinct
  rw [h.inUse]
  exact h.valid.intact

/-! ## Lookups in a changed directory -/

section Lookup

variable {disk disk' : Nat → Block} {slot : Slot} {p : DirEntry → Bool} {name : String}

theorem firstSlot_eq (found : p (entryOn disk slot) = true)
    (only : ∀ t, p (entryOn disk t) = true → t = slot) : firstSlot p disk = some slot := by
  cases lookup : firstSlot p disk with
  | none =>
    rw [firstSlot_none lookup slot] at found
    cases found
  | some t => rw [only t (firstSlot_some lookup).1]

theorem DirEntry.used_of_isNamed {e : DirEntry} (named : e.isNamed name = true) : e.used = true := by
  simp only [isNamed, Bool.and_eq_true] at named
  exact named.1

theorem firstSlot_named (storable : Storable name)
    (found : firstSlot (isNamed name) disk = some slot) :
    (entryOn disk slot).used = true ∧ (entryOn disk slot).rawName = asBytes name := by
  have named := (firstSlot_some found).1
  exact ⟨used_of_isNamed named, (isNamed_iff storable).mp named⟩

theorem found_ne (failing : p (entryOn disk slot) = false) {t : Slot} (found : firstSlot p disk = some t) :
    t ≠ slot := by
  rintro rfl
  rw [(firstSlot_some found).1] at failing
  cases failing

section

variable (others : ∀ t, t ≠ slot → entryOn disk' t = entryOn disk t)
include others

/-- An entry that is not `name`'s, before and after, does not matter to the lookup of `name`. -/
theorem firstSlot_unchanged (before : p (entryOn disk slot) = false) (after : p (entryOn disk' slot) = false) :
    firstSlot p disk' = firstSlot p disk := by
  have agree : (fun t => p (entryOn disk' t)) = fun t => p (entryOn disk t) := by
    funext t
    by_cases same : t = slot
    · rw [same, before, after]
    · rw [others t same]
  rw [firstSlot, firstSlot, agree]

theorem freeSlots_change :
    freeSlots disk' + (!(entryOn disk slot).used).toNat = freeSlots disk + (!(entryOn disk' slot).used).toNat := by
  have agree : ∀ t, t ≠ slot → (!(entryOn disk' t).used) = !(entryOn disk t).used :=
    fun t other => by rw [others t other]
  exact countP_change slots_nodup (mem_slots slot) agree

end

theorem freeSlots_eq_zero : freeSlots disk = 0 ↔ firstSlot (fun e => !e.used) disk = none := by
  rw [freeSlots, countP_eq_zero, firstSlot, find?_eq_none]

/-- The place a write selects is free or holds the name already. -/
theorem selectSlot_cases (selected : selectSlot disk name = some slot) :
    firstSlot (isNamed name) disk = some slot ∨
      firstSlot (isNamed name) disk = none ∧ (entryOn disk slot).used = false := by
  unfold selectSlot at selected
  cases lookup : firstSlot (isNamed name) disk with
  | some t =>
    rw [lookup] at selected
    exact Or.inl selected
  | none =>
    rw [lookup, Option.none_or] at selected
    exact Or.inr ⟨rfl, by simpa using (firstSlot_some selected).1⟩

theorem selectSlot_none : selectSlot disk name = none ↔ firstSlot (isNamed name) disk = none ∧ freeSlots disk = 0 := by
  rw [freeSlots_eq_zero, selectSlot, Option.or_eq_none_iff]

end Lookup

theorem Holds.frame {disk' : Nat → Block} {value : Option (List UInt8)} (h : Holds disk name value)
    (lookup : firstSlot (isNamed name) disk' = firstSlot (isNamed name) disk)
    (entry : ∀ slot, firstSlot (isNamed name) disk = some slot → entryOn disk' slot = entryOn disk slot)
    (blocks : ∀ slot, firstSlot (isNamed name) disk = some slot → ∀ chain,
      Linked disk (entryOn disk slot).head chain → ∀ b ∈ chain, disk' b.toNat = disk b.toNat) :
      Holds disk' name value := by
  cases h with
  | absent none => exact .absent (lookup.trans none)
  | @present slot chain found linked =>
    have agree := blocks slot found chain linked
    rw [← fileOf_frame _ agree, ← entry slot found]
    exact .present (lookup.trans found) (by rw [entry slot found]; exact linked.frame agree)

theorem FileSystemState.readFile_holds {dev : BlockDev} (reliable : dev.Reliable)
    {value : Option (List UInt8)} (h : Holds dev.disk name value) {E : String → BlockDev → Prop} :
    wp (readFile name) (fun result after => result = value ∧ BlockDev.Untouched dev after) E dev := by
  cases h with
  | absent none => exact readFile_absent reliable none
  | present found linked => exact readFile_present reliable found linked

/-! ## One call -/

namespace Refines

variable {m m' : FsMem} {f : FileMap}

theorem keep (h : Refines m f) (ready : Ready m') (low : LowUncached m')
    (dirs : ∀ slot : Slot, m'.disk slot.sector = m.disk slot.sector ∧ m'.view slot.sector = m.disk slot.sector)
    (blocks : ∀ s, m.inUse s → m.view s = m.disk s → m'.inUse s ∧ m'.disk s = m.disk s ∧ m'.view s = m.disk s) :
    Refines m' { f with freeBlocks := freeCount m'.fs.bitmapCache } := by
  have entries : ∀ slot, entryOn m'.disk slot = entryOn m.disk slot := by
    intro slot
    rw [entryOn, (dirs slot).1, entryOn]
  have intact : Intact m'.disk fun s => m'.inUse s ∧ m'.view s = m'.disk s := by
    refine h.intact.frame entries (fun s inside => (blocks s inside.1 inside.2).2.1) fun s inside => ?_
    obtain ⟨inUse, disk, view⟩ := blocks s inside.1 inside.2
    exact ⟨inUse, view.trans disk.symm⟩
  refine ⟨⟨ready, low, fun slot => (dirs slot).2.trans (dirs slot).1.symm, intact, h.distinct.frame entries⟩, ?_, rfl,
    ?_⟩
  · intro name storable
    refine (h.files name storable).frame (firstSlot_congr entries) (fun _ _ => entries _)
      fun slot found chain linked b member => ?_
    obtain ⟨inUse, view⟩ := h.intact.linked (firstSlot_named storable found).1 linked member
    exact (blocks _ inUse view).2.1
  · rw [h.slots, freeSlots, freeSlots]
    simp [entries]

theorem same (h : Refines m f) (same : Same m m') : Refines m' f := by
  have disk : m'.disk = m.disk := same.dev.disk
  have kept := h.keep (same.ready h.ready) ?_ (fun slot => ⟨by rw [disk], by rw [same.view]; exact h.dirs slot⟩)
    fun s inUse view => ⟨?_, by rw [disk], by rw [same.view]; exact view⟩
  · have free : freeCount m'.fs.bitmapCache = f.freeBlocks := by rw [same.fs, h.blocks]
    rwa [free] at kept
  · intro s small cached
    have cache : m'.mem.cache = m.mem.cache := congrArg FileSystemState.cache same.fs
    rw [Cached, cache] at cached
    exact h.low s small cached
  · unfold FsMem.inUse
    rw [disk, same.fs]
    exact inUse

theorem exhausted (h : Refines m f) {blocks : List UInt32} (taken : Taken 0 blocks m m')
    (full : freeCount m'.fs.bitmapCache = 0) : Refines m' { f with freeBlocks := 0 } := by
  have fresh : ∀ {s}, s ∈ sectors blocks → secDataStart ≤ s := taken.inData h.ready
  have view : ∀ s, s ∉ sectors blocks → m'.view s = m.view s := fun s outside => taken.view s (by simp) outside
  -- outside the taken blocks the device can only have taken over what it held already
  have disk : ∀ s, s ∉ sectors blocks → m.view s = m.disk s → m'.disk s = m.disk s := by
    intro s outside agree
    rcases taken.traffic.disk s (by simpa using outside) with same | evicted
    · exact same
    · exact evicted.trans agree
  have low : LowUncached m' := by
    apply h.low.traffic taken.traffic
    intro s member
    have := fresh (by simpa using member)
    simp only [secDataStart, secDirStart] at this ⊢
    omega
  have apart : ∀ s, s < secDataStart → s ∉ sectors blocks := fun s small member => by
    have := fresh member
    omega
  rw [← full]
  refine h.keep (taken.ready h.ready) low (fun slot => ?_) fun s inUse agree => ?_
  · have outside := apart slot.sector slot.sector_bounds.2
    exact ⟨disk _ outside (h.dirs slot), (view _ outside).trans (h.dirs slot)⟩
  · have outside : s ∉ sectors blocks := taken.notInUse inUse
    refine ⟨inUse_mono (fun k old => (taken.marks k).mpr (Or.inl old)) (fun t _ small => ?_) inUse,
      disk s outside agree,
      (view s outside).trans agree⟩
    exact disk t (apart t (by simp only [secDirStart, secDataStart] at small ⊢; omega)) (h.low.view small)

end Refines

theorem Represents.none_iff (h : Represents disk files)
    (storable : Storable name) : files name = none ↔ firstSlot (isNamed name) disk = none := by
  have held := h name storable
  cases value : files name with
  | none =>
    rw [value] at held
    cases held with
    | absent lookup => exact ⟨fun _ => lookup, fun _ => rfl⟩
  | some data =>
    rw [value] at held
    cases held with
    | present lookup _ =>
      rw [lookup]
      exact ⟨fun absurd => by simp at absurd, fun absurd => by simp at absurd⟩

theorem newEntry_rawName (storable : Storable name) (length : Nat) (blocks : List UInt32) :
    (newEntry name length blocks).rawName = asBytes name := by
  rw [newEntry, DirEntry.rawName, fixedName_toList storable.fits, takeWhile_append_of_pos]
  · cases 64 - (asBytes name).length <;> simp
  · intro x member
    simpa using fun zero : x = 0 => storable.noNul (zero ▸ member)

theorem newEntry_isNamed {other : String} (storable : Storable name) (storable' : Storable other) (length : Nat)
    (blocks : List UInt32) : (newEntry name length blocks).isNamed other = true ↔ other = name := by
  rw [isNamed_iff storable', newEntry_rawName storable]
  exact ⟨fun same => asBytes_inj same.symm, fun same => by rw [same]⟩

theorem newEntry_used (storable : Storable name) (length : Nat) (blocks : List UInt32) :
    (newEntry name length blocks).used = true := by
  apply used_of_rawName
  rw [newEntry_rawName storable]
  exact ne_nil_of_length_pos storable.nonempty

section Replace

variable {disk disk' : Nat → Block} {slot : Slot} {name : String} {length : Nat} {blocks : List UInt32}

/-- In a directory of distinct names only the selected place can hold the name. -/
theorem selectSlot_only (distinct : Distinct disk) (storable : Storable name)
    (selected : selectSlot disk name = some slot)
    {t : Slot} (named : (entryOn disk t).isNamed name = true) : t = slot := by
  rcases selectSlot_cases selected with found | ⟨absent, -⟩
  · obtain ⟨used, raw⟩ := firstSlot_named storable found
    have rawT := (isNamed_iff storable).mp named
    exact distinct t slot (used_of_isNamed named) used (rawT.trans raw.symm)
  · rw [firstSlot_none absent t] at named
    cases named

theorem selectSlot_other (storable : Storable name) (selected : selectSlot disk name = some slot) {other : String}
    (storable' : Storable other) (different : other ≠ name) : (entryOn disk slot).isNamed other = false := by
  apply Bool.eq_false_iff.mpr
  intro named
  have raw := (isNamed_iff storable').mp named
  rcases selectSlot_cases selected with found | ⟨-, unused⟩
  · exact different (asBytes_inj (raw.symm.trans (firstSlot_named storable found).2))
  · simp only [isNamed, unused] at named
    cases named

theorem Distinct.replace {raw : List UInt8} (distinct : Distinct disk) (own : (entryOn disk' slot).rawName = raw)
    (only : ∀ t, t ≠ slot → (entryOn disk t).rawName ≠ raw)
    (others : ∀ t, t ≠ slot → entryOn disk' t = entryOn disk t) :
    Distinct disk' := by
  intro s t usedS usedT same
  by_cases atS : s = slot <;> by_cases atT : t = slot
  · rw [atS, atT]
  · rw [atS, own, others t atT] at same
    exact absurd same.symm (only t atT)
  · rw [atT, own, others s atS] at same
    exact absurd same (only s atS)
  · rw [others s atS] at usedS same
    rw [others t atT] at usedT same
    exact distinct s t usedS usedT same

end Replace

namespace Refines

variable {m m₁ m' : FsMem} {f : FileMap}

theorem written_blocks (h : Refines m f) {name : String} {data : List UInt8} {slot : Slot} {blocks : List UInt32}
    (written : Written name data slot blocks m m₁) (disk : ∀ s, s ≠ secMapStart → m'.disk s = m₁.view s) {t : Slot}
    (used : (entryOn m.disk t).used = true) {chain : List UInt32}
    (linked : Linked m.disk (entryOn m.disk t).head chain) :
    ∀ b ∈ chain, m'.disk b.toNat = m.disk b.toNat := by
  intro b member
  obtain ⟨inUse, view⟩ := h.intact.linked used linked member
  rw [disk_inUse disk (written.inUse_mono h.low inUse), written.view_inUse inUse, view]

/-- **A write with its `sync`.** The name's contents are set, and nothing else. -/
theorem written (h : Refines m f) {name : String} (storable : Storable name) {data : List UInt8} {slot : Slot}
    {blocks : List UInt32} (written : Written name data slot blocks m m₁) (synced : Synced m')
    (bitmap : m'.fs.bitmapCache = m₁.fs.bitmapCache) (low : LowUncached m')
    (disk : ∀ s, s ≠ secMapStart → m'.disk s = m₁.view s) :
    Refines m'
      { files := update f.files name (some data)
        freeBlocks := f.freeBlocks - blocksFor data.length
        freeSlots := if f.files name = none then f.freeSlots - 1 else f.freeSlots } := by
  have low₁ := written.low h.low
  have dirs := entryOn_synced disk
  have entry : entryOn m'.disk slot = newEntry name data.length blocks := by rw [dirs, written.entry]
  have others : ∀ t, t ≠ slot → entryOn m'.disk t = entryOn m.disk t := fun t other => by
    rw [dirs, written.entries t other, h.entries]
  have intact : Intact m'.disk m'.inUse := (written.intact h.low h.intact_view).synced disk low₁ bitmap
  have distinct : Distinct m'.disk := by
    refine h.distinct.replace (by rw [entry, newEntry_rawName storable]) (fun t apart raw => apart ?_) others
    exact selectSlot_only h.distinct storable written.selected ((isNamed_iff storable).mpr raw)
  refine ⟨Settled.of_synced synced low intact distinct, ?_, ?_, ?_⟩
  · intro other storable'
    by_cases same : other = name
    · subst same
      have agree : ∀ b ∈ blocks, m'.disk b.toNat = m₁.view b.toNat := fun b member =>
        disk_inUse disk (written.inUse_fresh (mem_sectors.mpr ⟨b, member, rfl⟩))
      have found : firstSlot (isNamed other) m'.disk = some slot := by
        refine firstSlot_eq ?_ fun t named => ?_
        · rw [entry, newEntry_isNamed storable storable]
        · by_contra apart
          rw [others t apart] at named
          exact apart (selectSlot_only h.distinct storable written.selected named)
      have held := Holds.present found (by rw [entry]; exact written.linked.frame agree)
      rw [entry, fileOf_frame _ agree, written.holds] at held
      simpa using held
    · have elsewhere : (entryOn m.disk slot).isNamed other = false :=
        selectSlot_other storable written.selected storable' same
      have unchanged : firstSlot (isNamed other) m'.disk = firstSlot (isNamed other) m.disk := by
        apply firstSlot_unchanged others elsewhere
        rw [entry, Bool.eq_false_iff]
        exact fun named => same ((newEntry_isNamed storable storable' _ _).mp named)
      simp only [update_of_ne same]
      refine (h.files other storable').frame unchanged (fun t found => others t (found_ne elsewhere found)) ?_
      exact fun t found chain linked => h.written_blocks written disk (firstSlot_named storable' found).1 linked
  · have free := written.free
    have count := written.count
    have blocks := h.blocks
    rw [bitmap]
    dsimp only
    omega
  · have change := freeSlots_change others
    rw [entry, newEntry_used storable, ← h.slots] at change
    simp only [h.files.none_iff storable]
    rcases selectSlot_cases written.selected with found | ⟨absent, unused⟩
    · rw [(firstSlot_named storable found).1] at change
      rw [found]
      simpa using change.symm
    · rw [unused] at change
      rw [absent, if_pos rfl]
      simp only [Bool.not_false, Bool.not_true, Bool.toNat_true, Bool.toNat_false] at change
      omega

/-- **A removal.** The name is gone, and nothing else. -/
theorem removed (h : Refines m f) {name : String} (storable : Storable name) {slot : Slot}
    (removed : Removed name slot m m') :
    Refines m' { f with files := update f.files name none, freeSlots := f.freeSlots + 1 } := by
  have others : ∀ t, t ≠ slot → entryOn m'.disk t = entryOn m.disk t :=
    fun t other => by rw [removed.others other, h.entries]
  obtain ⟨used, raw⟩ := firstSlot_named storable removed.found
  have distinct := removed.distinct (h.distinct.frame h.entries)
  refine ⟨Settled.of_synced removed.synced (removed.low h.low) (removed.intact h.low h.intact_view) distinct,
    ?_, by rw [removed.bitmap]; exact h.blocks, ?_⟩
  · intro other storable'
    have gone : (entryOn m'.disk slot).isNamed other = false := by rw [isNamed, removed.unused, Bool.false_and]
    by_cases same : other = name
    · subst same
      have nowhere : firstSlot (isNamed other) m'.disk = none := by
        cases lookup : firstSlot (isNamed other) m'.disk with
        | none => rfl
        | some t =>
          have apart : t ≠ slot := found_ne gone lookup
          obtain ⟨usedT, rawT⟩ := firstSlot_named storable lookup
          rw [others t apart] at usedT rawT
          exact absurd (h.distinct t slot usedT used (rawT.trans raw.symm)) apart
      simpa using Holds.absent nowhere
    · have elsewhere : (entryOn m.disk slot).isNamed other = false := by
        rw [Bool.eq_false_iff]
        intro named
        exact same (asBytes_inj (((isNamed_iff storable').mp named).symm.trans raw))
      simp only [update_of_ne same]
      refine (h.files other storable').frame (firstSlot_unchanged others elsewhere gone)
        (fun t found => others t (found_ne elsewhere found)) fun t found chain linked b member => ?_
      obtain ⟨inUse, view⟩ := h.intact.linked (firstSlot_named storable' found).1 linked member
      rw [removed.disk, storeAt_other _ (Slot.sector_ne inUse.inData), view]
  · have change := freeSlots_change others
    rw [removed.unused, used, ← h.slots] at change
    simpa using change.symm

end Refines

theorem GlobalSfs.writeFile_spec (ready : Ready m) (low : LowUncached m) (path : String) (data : List UInt8) :
    wp (writeFile path data)
      (fun _ m' => ∃ slot blocks m₁, Written path data slot blocks m m₁ ∧ Synced m' ∧
        m'.fs.bitmapCache = m₁.fs.bitmapCache ∧ m'.fs.bitmapDirty = false ∧ LowUncached m' ∧
        m'.disk = if m₁.fs.bitmapDirty then update m₁.view secMapStart m₁.fs.bitmapCache else m₁.view)
      (WriteFailed path data m) m := by
  rw [writeFile, wp_bind]
  apply wp_imp (FileSystemState.writeFile_spec ready path data)
  rintro _ m₁ ⟨slot, blocks, written⟩
  rw [wp_bind]
  apply wp_imp (FileSystemState.sync_spec (written.ready ready) (written.low low))
  intro _ m' synced
  exact ⟨slot, blocks, m₁, written, synced⟩

namespace Refines

variable {m : FsMem} {f : FileMap}

section

variable {path : String} (h : Refines m f) (storable : Storable path)
include h storable

theorem call_writeFile (data : List UInt8) :
    (call m (.writeFile path data)).1 = (f.call (.writeFile path data)).1 ∧
      Refines (call m (.writeFile path data)).2 (f.call (.writeFile path data)).2 := by
  have spec := writeFile_spec h.ready h.low path data
  -- there is a place for the entry exactly when the map has one
  have place : selectSlot m.disk path = none ↔ f.files path = none ∧ f.freeSlots = 0 := by
    rw [selectSlot_none, h.files.none_iff storable, h.slots]
  rw [call, FileMap.call]
  cases run : writeFile path data m with
  | ok _ m' =>
    obtain ⟨slot, blocks, _, written, synced, bitmap, -, low, disk⟩ := wp_of_ok spec run
    have free := written.free
    have count := written.count
    have enough : ¬ f.freeBlocks < blocksFor data.length := by
      rw [h.blocks]
      omega
    have hasPlace : ¬ (f.files path = none ∧ f.freeSlots = 0) := by
      rw [← place, written.selected]
      simp
    rw [if_neg hasPlace, if_neg enough]
    exact ⟨rfl, h.written storable written synced bitmap low fun _ => disk_elsewhere disk⟩
  | error e m' =>
    cases wp_of_error spec run with
    | rootDirFull message none same =>
      rw [if_pos (place.mp none), message]
      exact ⟨rfl, h.same same⟩
    | diskFull message slot short full blocks taken =>
      rw [if_neg (fun full => slot (place.mpr full)), if_pos (by rw [h.blocks]; exact short), message]
      exact ⟨rfl, h.exhausted taken full⟩

theorem call_remove (file : endsWithSlash path = false) :
    (call m (.remove path)).1 = (f.call (.remove path)).1 ∧
      Refines (call m (.remove path)).2 (f.call (.remove path)).2 := by
  have spec := FileSystemState.remove_spec h.ready path
  rw [call, FileMap.call, remove]
  cases run : FileSystemState.remove path m with
  | ok _ m' =>
    obtain ⟨_, removed⟩ := wp_of_ok spec run
    have present : f.files path ≠ none := by
      rw [ne_eq, h.files.none_iff storable, removed.found]
      simp
    rw [if_neg present]
    exact ⟨rfl, h.removed storable removed⟩
  | error e m' =>
    cases wp_of_error spec run with
    | notFound message none same =>
      rw [if_pos ((h.files.none_iff storable).mpr none), message]
      exact ⟨rfl, h.same same⟩
    | notEmpty message slash browsed =>
      rw [file] at slash
      cases slash

theorem call_readFile :
    (call m (.readFile path)).1 = (f.call (.readFile path)).1 ∧
      Refines (call m (.readFile path)).2 (f.call (.readFile path)).2 := by
  have spec : wp (readFile path) (fun result m' => result = f.files path ∧ Same m m') (fun _ _ => False) m :=
    FileSystemState.onDevice_read (FileSystemState.readFile_holds h.ready.reliable (h.files path storable))
  obtain ⟨result, m', run, rfl, same⟩ := wp_returns spec
  rw [call, run]
  exact ⟨rfl, h.same same⟩

end

/-- **One call.** The code answers as the map does, and stands for the map's next state. -/
theorem call (h : Refines m f) {op : SfsCall} (admitted : op.Admitted) :
    (call m op).1 = (f.call op).1 ∧ Refines (call m op).2 (f.call op).2 := by
  cases op with
  | writeFile path data => exact h.call_writeFile admitted data
  | remove path => exact h.call_remove admitted.1 admitted.2
  | readFile path => exact h.call_readFile admitted

end Refines

/-! ## Whole runs -/

theorem Intact.exists_holds {inUse : Nat → Prop} (intact : Intact disk inUse) (name : String) :
    ∃ value, Holds disk name value := by
  cases lookup : firstSlot (isNamed name) disk with
  | none => exact ⟨none, .absent lookup⟩
  | some slot =>
    obtain ⟨_, chain, -⟩ := intact slot (used_of_isNamed (firstSlot_some lookup).1)
    exact ⟨_, .present lookup chain.linked⟩

theorem exists_represents {inUse : Nat → Prop} (intact : Intact disk inUse) : ∃ files, Represents disk files :=
  ⟨fun name => (intact.exists_holds name).choose, fun name _ => (intact.exists_holds name).choose_spec⟩

theorem Mounted.refines (h : Mounted m)
    (represents : Represents m.disk files) : Refines m ⟨files, freeCount (m.disk secMapStart), freeSlots m.disk⟩ :=
  ⟨h.settled, represents, by rw [h.bitmap], rfl⟩

/-- **`GlobalSfs` refines a map.** A valid image is mounted, and from then on every sequence
of writes, removals of files and reads is answered as the map answers it. -/
theorem global_sfs_refines_map {dev : BlockDev} (valid : ValidImage dev.disk) (reliable : dev.Reliable)
    (counter : Nat) :
    ∃ fs dev', FileSystemState.init dev = .ok (some fs) dev' ∧
      ∃ f : FileMap, Represents dev.disk f.files ∧ f.freeBlocks = freeCount (dev.disk secMapStart) ∧
        f.freeSlots = freeSlots dev.disk ∧
        ∀ ops : List SfsCall, (∀ op ∈ ops, op.Admitted) →
          answers GlobalSfs.call ⟨fs, dev', counter⟩ ops = answers FileMap.call f ops := by
  obtain ⟨_, dev', run, rfl, untouched⟩ := wp_returns (FileSystemState.init_spec reliable valid.magic)
  refine ⟨_, dev', run, ?_⟩
  have mounted := mounted_of_init reliable valid run counter
  obtain ⟨files, represents⟩ := exists_represents valid.intact
  refine ⟨⟨files, freeCount (dev.disk secMapStart), freeSlots dev.disk⟩, represents, rfl, rfl, fun ops admitted => ?_⟩
  have onDevice : Represents dev'.disk files := by rw [untouched.disk]; exact represents
  have start := mounted.refines onDevice
  rw [FsMem.disk, untouched.disk] at start
  have simulate : ∀ (m : FsMem) (f : FileMap) (op : SfsCall), Refines m f → op.Admitted →
      (call m op).1 = (f.call op).1 ∧ Refines (call m op).2 (f.call op).2 :=
    fun _ _ _ related ok => related.call ok
  exact answers_eq simulate ops start admitted

/-- A device without errors that holds an empty image. -/
def blankDevice : BlockDev := ⟨blankImage, fun _ => false, 0⟩

theorem blankDevice_reliable : blankDevice.Reliable := fun _ => rfl

def blankState : FsMem := ⟨⟨blankImage secMapStart, false, BufferCache.new⟩, blankDevice, 0⟩

theorem blankState_mounted : Mounted blankState := ⟨blankImage_valid, blankDevice_reliable, rfl⟩

theorem blankImage_lookup (p : DirEntry → Bool) (onlyUsed : ∀ e, p e = true → e.used = true) :
    firstSlot p blankImage = none := by
  cases lookup : firstSlot p blankImage with
  | none => rfl
  | some slot =>
    have used := onlyUsed _ (firstSlot_some lookup).1
    rw [blankImage_unused] at used
    cases used

theorem blankImage_absent (name : String) : firstSlot (isNamed name) blankImage = none := by
  apply blankImage_lookup
  intro e named
  simp only [isNamed, Bool.and_eq_true] at named
  exact named.1

theorem blankImage_freeSlots : freeSlots blankImage = 448 := by
  have length : slots.length = secDirCount * entriesPerSector := by simp [slots]
  rw [freeSlots, countP_eq_length.mpr fun slot _ => by rw [blankImage_unused]; rfl, length]
  decide

theorem blankImage_files (represents : Represents blankImage files)
    (storable : Storable name) : files name = none := by
  rw [represents.none_iff storable]
  exact blankImage_absent name

/-- On an empty image a file is written, read back and removed. -/
theorem global_sfs_refines_map_blank : ∃ fs dev', FileSystemState.init blankDevice = .ok (some fs) dev' ∧
    answers GlobalSfs.call ⟨fs, dev', 0⟩
        [.writeFile "/a" [1, 2, 3], .readFile "/a", .remove "/b", .remove "/a", .readFile "/a"] =
      [.done, .contents (some [1, 2, 3]), .failed "File not found", .done, .contents none] := by
  obtain ⟨fs, dev', run, f, represents, blocks, places, same⟩ :=
    global_sfs_refines_map blankImage_valid blankDevice_reliable 0
  refine ⟨fs, dev', run, ?_⟩
  have storableA : Storable "/a" := ⟨by decide, by decide, by decide⟩
  have storableB : Storable "/b" := ⟨by decide, by decide, by decide⟩
  have empty : ∀ name, Storable name → f.files name = none := fun name storable => blankImage_files represents storable
  have room : f.freeSlots = 448 := by
    rw [places]
    exact blankImage_freeSlots
  have free : f.freeBlocks = 3967 := by
    rw [blocks]
    exact freeCount_blankBitmap
  rw [same _ (by simp [SfsCall.Admitted, storableA, storableB]; decide)]
  simp [answers, FileMap.call, empty, storableB, room, free, blocksFor]

end HavyOs.Fs
