import HavyOs.Fs.Consistent

/-!
# Writes without a `sync`

`write_file` looks up its place on the device and stores its entry in the cache, and `read_file`
reads the device. Between two calls of `sync` the two directories differ: the view is ahead of the
device. While every write finds its selected place free or its own in the view, the two stay in step
(`Orderly`): what the device has the view has under the same name, and a place that only the view
uses comes after places that the device uses. A write that finds another's entry at its place
overwrites it.
-/

namespace HavyOs.Fs

open HavyOs.Lib CacheMem FileSystemState DirEntry List FileSystemState

/-- In the view the place that a write of `name` selects on the device is free or `name`'s. -/
def Fits (m : FsMem) (name : String) : Prop :=
  ∀ slot, selectSlot m.disk name = some slot →
    (entryOn m.view slot).used = false ∨ (entryOn m.view slot).rawName = asBytes name

structure Orderly (m : FsMem) : Prop where
  ready : Ready m
  low : LowUncached m
  intact : Intact m.view m.inUse
  distinct : Distinct m.view
  ahead : ∀ s : Slot, (entryOn m.disk s).used = true →
    (entryOn m.view s).used = true ∧ (entryOn m.view s).rawName = (entryOn m.disk s).rawName
  behind : ∀ s : Slot, (entryOn m.view s).used = true → (entryOn m.disk s).used = false →
    ∀ t : Slot, t.rank < s.rank → (entryOn m.disk t).used = true

variable {m m' : FsMem} {files : List (String × List UInt8)} {name : String} {names : List String}
  {data : List UInt8}

/-- With the directory on the device as in the view there is nothing to keep in step. -/
theorem Orderly.of_dirs (ready : Ready m) (low : LowUncached m) (intact : Intact m.view m.inUse)
    (distinct : Distinct m.view) (dirs : ∀ slot, entryOn m.disk slot = entryOn m.view slot) : Orderly m := by
  refine ⟨ready, low, intact, distinct, fun s used => ?_, fun s used unused => ?_⟩
  · rw [← dirs]
    exact ⟨used, rfl⟩
  · rw [dirs, used] at unused
    cases unused

theorem Mounted.orderly (h : Mounted m) : Orderly m := by
  have settled := h.settled
  refine Orderly.of_dirs h.ready settled.low settled.intact_view ?_ fun slot => by rw [h.view]
  rw [h.view]
  exact h.valid.distinct

namespace Orderly

variable {m m' : FsMem}

theorem consistent (h : Orderly m) : Consistent m := ⟨h.ready, h.low, h.intact⟩

theorem free (h : Orderly m) {s : Slot} (unused : (entryOn m.view s).used = false) :
    (entryOn m.disk s).used = false := by
  by_contra used
  rw [(h.ahead s (by simpa using used)).1] at unused
  cases unused

theorem used_disk (h : Orderly m) {s : Slot}
    (disk : entryOn m'.disk s = entryOn m.disk s ∨ entryOn m'.disk s = entryOn m.view s)
    (used : (entryOn m.disk s).used = true) : (entryOn m'.disk s).used = true := by
  rcases disk with old | taken
  · rw [old]
    exact used
  · rw [taken]
    exact (h.ahead s used).1

theorem unused_disk {s : Slot} (disk : entryOn m'.disk s = entryOn m.disk s ∨ entryOn m'.disk s = entryOn m.view s)
    (used : (entryOn m.view s).used = true) (unused : (entryOn m'.disk s).used = false) :
    (entryOn m.disk s).used = false := by
  rcases disk with old | taken
  · rw [← old]
    exact unused
  · rw [taken, used] at unused
    cases unused

theorem evict (h : Orderly m) (ready : Ready m') (low : LowUncached m') (intact : Intact m'.view m'.inUse)
    (view : ∀ s, entryOn m'.view s = entryOn m.view s)
    (disk : ∀ s, entryOn m'.disk s = entryOn m.disk s ∨ entryOn m'.disk s = entryOn m.view s) : Orderly m' := by
  refine ⟨ready, low, intact, h.distinct.frame view, fun s used => ?_, fun s used unused t lower => ?_⟩
  · rw [view]
    rcases disk s with old | taken
    · rw [old] at used ⊢
      exact h.ahead s used
    · rw [taken] at used ⊢
      exact ⟨used, rfl⟩
  · rw [view] at used
    exact h.used_disk (disk t) (h.behind s used (unused_disk (disk s) used unused) t lower)

section Write

variable {name : String} {data : List UInt8} {slot : Slot} {blocks : List UInt32}

theorem disk_cases (written : Written name data slot blocks m m') (s : Slot) :
    entryOn m'.disk s = entryOn m.disk s ∨ entryOn m'.disk s = entryOn m.view s := by
  have outside : s.sector ∉ sectors blocks := fun member => Slot.sector_ne (written.inData _ member) rfl
  rcases written.traffic.disk s.sector outside with same | taken
  · exact Or.inl (by rw [entryOn, FsMem.disk, show m'.dev.disk s.sector = m.dev.disk s.sector from same]; rfl)
  · exact Or.inr (by rw [entryOn, FsMem.disk, show m'.dev.disk s.sector = m.view s.sector from taken]; rfl)

theorem only (h : Orderly m) (storable : Storable name) (selected : selectSlot m.disk name = some slot) {t : Slot}
    (raw : (entryOn m.view t).rawName = asBytes name) : t = slot := by
  have nonempty : asBytes name ≠ [] := ne_nil_of_length_pos storable.nonempty
  have used : (entryOn m.view t).used = true := used_of_rawName (by rw [raw]; exact nonempty)
  rcases selectSlot_cases selected with found | ⟨absent, unused⟩
  · obtain ⟨usedSlot, rawSlot⟩ := firstSlot_named storable found
    obtain ⟨usedView, rawView⟩ := h.ahead slot usedSlot
    exact h.distinct t slot used usedView (raw.trans (rawView.trans rawSlot).symm)
  · -- the name is new to the device, so `t` is used in the view only, and `slot` is the first free place
    have unusedT : (entryOn m.disk t).used = false := by
      by_contra usedT
      have usedT : (entryOn m.disk t).used = true := by simpa using usedT
      have named : (entryOn m.disk t).isNamed name = true := by
        rw [isNamed_iff storable, ← (h.ahead t usedT).2, raw]
      rw [firstSlot_none absent t] at named
      cases named
    have free : firstSlot (fun e => !e.used) m.disk = some slot := by
      rwa [selectSlot, absent] at selected
    have first : ∀ u : Slot, u.rank < slot.rank → (entryOn m.disk u).used = true := fun u lower => by
      simpa using (firstSlot_some free).2 u lower
    apply Slot.rank_inj
    rcases Nat.lt_trichotomy t.rank slot.rank with lower | same | higher
    · rw [first t lower] at unusedT
      cases unusedT
    · exact same
    · rw [h.behind t used unusedT slot higher] at unused
      cases unused

/-- **A write that fits keeps view and device in step.** -/
theorem write (h : Orderly m) (storable : Storable name) (fits : Fits m name)
    (written : Written name data slot blocks m m') :
    Orderly m' := by
  have raw : (entryOn m'.view slot).rawName = asBytes name := by rw [written.entry, newEntry_rawName storable]
  have used' : (entryOn m'.view slot).used = true := by rw [written.entry, newEntry_used storable]
  have disk := disk_cases written
  refine ⟨written.ready h.ready, written.low h.low, written.intact h.low h.intact, ?_, fun s used => ?_,
    fun s used unused t lower => ?_⟩
  · exact h.distinct.replace raw (fun t apart other => apart (h.only storable written.selected other)) written.entries
  · by_cases here : s = slot
    · subst here
      refine ⟨used', raw.trans ?_⟩
      rcases disk s with old | taken
      · rw [old] at used ⊢
        rcases selectSlot_cases written.selected with found | ⟨-, unused⟩
        · exact (firstSlot_named storable found).2.symm
        · rw [unused] at used
          cases used
      · rw [taken] at used ⊢
        rcases fits s written.selected with unused | own
        · rw [unused] at used
          cases used
        · exact own.symm
    · rw [written.entries s here]
      rcases disk s with old | taken
      · rw [old] at used ⊢
        exact h.ahead s used
      · rw [taken] at used ⊢
        exact ⟨used, rfl⟩
  · apply h.used_disk (disk t)
    by_cases here : s = slot
    · subst here
      have unusedOld : (entryOn m.disk s).used = false := by
        rcases disk s with old | taken
        · rw [← old]
          exact unused
        · rw [taken] at unused
          exact h.free unused
      rcases selectSlot_cases written.selected with found | ⟨absent, -⟩
      · rw [(firstSlot_named storable found).1] at unusedOld
        cases unusedOld
      · have free := written.selected
        rw [selectSlot, absent, Option.none_or] at free
        simpa using (firstSlot_some free).2 t lower
    · rw [written.entries s here] at used
      exact h.behind s used (unused_disk (disk s) used unused) t lower

end Write

end Orderly

/-! ## Files written and files lost -/

/-- The view holds `data` under `name`. -/
def Stores (m : FsMem) (name : String) (data : List UInt8) : Prop :=
  ∃ slot blocks, (entryOn m.view slot).rawName = asBytes name ∧ Linked m.view (entryOn m.view slot).head blocks ∧
    fileOf m.view (entryOn m.view slot) blocks = data

def Missing (m : FsMem) (name : String) : Prop := ∀ slot, (entryOn m.view slot).rawName ≠ asBytes name

section Write

variable {m m' : FsMem} {name : String} {data : List UInt8} {slot : Slot} {blocks : List UInt32}

section

variable (written : Written name data slot blocks m m')
include written

theorem Written.stores (storable : Storable name) : Stores m' name data := by
  refine ⟨slot, blocks, ?_, ?_, ?_⟩
  · rw [written.entry, newEntry_rawName storable]
  · rw [written.entry]
    exact written.linked
  · rw [written.entry]
    exact written.holds

theorem Written.stores_other (intact : Intact m.view m.inUse)
    (fits : Fits m name) {other : String} {held : List UInt8} (storable : Storable other) (different : other ≠ name)
    (stores : Stores m other held) : Stores m' other held := by
  obtain ⟨t, chain, raw, linked, contents⟩ := stores
  have used : (entryOn m.view t).used = true := by
    apply used_of_rawName
    rw [raw]
    exact ne_nil_of_length_pos storable.nonempty
  have apart : t ≠ slot := by
    rintro rfl
    rcases fits t written.selected with unused | own
    · rw [unused] at used
      cases used
    · exact different (asBytes_inj (raw.symm.trans own))
  have agree : ∀ b ∈ chain, m'.view b.toNat = m.view b.toNat := fun b member =>
    written.view_inUse (intact.linked used linked member)
  refine ⟨t, chain, ?_, ?_, ?_⟩
  · rw [written.entries t apart]
    exact raw
  · rw [written.entries t apart]
    exact linked.frame agree
  · rw [written.entries t apart, fileOf_frame _ agree]
    exact contents

theorem Written.missing (storable : Storable name) {other : String}
    (different : other ≠ name) (missing : Missing m other) : Missing m' other := by
  intro t
  by_cases here : t = slot
  · rw [here, written.entry, newEntry_rawName storable]
    exact fun same => different (asBytes_inj same).symm
  · rw [written.entries t here]
    exact missing t

end

end Write

/-- A write of a file that returns. -/
def writeStep (m : FsMem) (file : String × List UInt8) (m' : FsMem) : Prop :=
  FileSystemState.writeFile file.1 file.2 m = .ok () m'

/-- The condition on a write: it finds its place free or its own. -/
def WriteFits (m : FsMem) (file : String × List UInt8) : Prop := Fits m file.1

/-- Names that only the view has were written in this run. -/
def Recent (m : FsMem) (names : List String) : Prop :=
  ∀ s : Slot, (entryOn m.view s).used = true → (entryOn m.disk s).used = false →
    ∃ name ∈ names, (entryOn m.view s).rawName = asBytes name

theorem writeStep_written {file : String × List UInt8} (ready : Ready m) (step : writeStep m file m') :
    ∃ slot blocks, Written file.1 file.2 slot blocks m m' :=
  wp_of_ok (writeFile_spec ready file.1 file.2) step

theorem Orderly.stores
    (run : Run (guarded WriteFits writeStep) m files m') (orderly : Orderly m)
    (storable : ∀ file ∈ files, Storable file.1)
    (distinct : (files.map Prod.fst).Nodup) :
    Orderly m' ∧ (∀ file ∈ files, Stores m' file.1 file.2) ∧
      ∀ name data, Storable name → name ∉ files.map Prod.fst → Stores m name data → Stores m' name data := by
  induction run with
  | nil m => exact ⟨orderly, by simp, fun _ _ _ _ stores => stores⟩
  | @cons m m₁ m' file files first rest ih =>
    obtain ⟨fits, step⟩ := first
    obtain ⟨_, _, written⟩ := writeStep_written orderly.ready step
    have storableHere := storable file (by simp)
    rw [map_cons, nodup_cons] at distinct
    obtain ⟨orderly', later, kept⟩ := ih (orderly.write storableHere fits written)
      (fun file member => storable file (by simp [member])) distinct.2
    refine ⟨orderly', fun other member => ?_, fun name data storableName fresh stores => ?_⟩
    · rcases mem_cons.mp member with rfl | inside
      · exact kept _ _ storableHere distinct.1 (written.stores storableHere)
      · exact later other inside
    · rw [map_cons, mem_cons, not_or] at fresh
      exact kept name data storableName fresh.2 (written.stores_other orderly.intact fits storableName fresh.1 stores)

theorem missing_of_run (run : Run writeStep m files m') (ready : Ready m)
    (storable : ∀ file ∈ files, Storable file.1) (fresh : name ∉ files.map Prod.fst)
    (missing : Missing m name) : Missing m' name := by
  induction run with
  | nil => exact missing
  | @cons m m₁ m' file files step rest ih =>
    obtain ⟨_, _, written⟩ := writeStep_written ready step
    rw [map_cons, mem_cons, not_or] at fresh
    exact ih (written.ready ready) (fun file member => storable file (by simp [member])) fresh.2
      (written.missing (storable file (by simp)) fresh.1 missing)

/-- A write that does not fit overwrites a file written before it in the run. -/
theorem Orderly.overwrites {file : String × List UInt8} (h : Orderly m)
    (recent : Recent m names) (storable : Storable file.1) (step : writeStep m file m') (unfit : ¬ WriteFits m file) :
    ∃ name ∈ names, Missing m' name := by
  obtain ⟨slot, _, written⟩ := writeStep_written h.ready step
  have occupied : (entryOn m.view slot).used = true ∧ (entryOn m.view slot).rawName ≠ asBytes file.1 := by
    by_contra fine
    refine unfit fun t selected => ?_
    obtain rfl : slot = t := Option.some.inj (written.selected.symm.trans selected)
    by_cases unused : (entryOn m.view slot).used = false
    · exact Or.inl unused
    · exact Or.inr (by_contra fun other => fine ⟨by simpa using unused, other⟩)
  have unused : (entryOn m.disk slot).used = false := by
    rcases selectSlot_cases written.selected with found | ⟨-, unused⟩
    · obtain ⟨used, raw⟩ := firstSlot_named storable found
      exact absurd ((h.ahead slot used).2.trans raw) occupied.2
    · exact unused
  obtain ⟨name, member, raw⟩ := recent slot occupied.1 unused
  refine ⟨name, member, fun t same => ?_⟩
  by_cases here : t = slot
  · rw [here, written.entry, newEntry_rawName storable, ← raw] at same
    exact occupied.2 same.symm
  · rw [written.entries t here, ← raw] at same
    have used : (entryOn m.view t).used = true := by
      rw [used_iff, same, ← used_iff]
      exact occupied.1
    exact here (h.distinct t slot used occupied.1 same)

theorem Recent.write {slot : Slot}
    {blocks : List UInt32} (recent : Recent m names) (storable : Storable name)
    (written : Written name data slot blocks m m') : Recent m' (name :: names) := by
  intro s used unused
  by_cases here : s = slot
  · exact ⟨name, by simp, by rw [here, written.entry, newEntry_rawName storable]⟩
  · rw [written.entries s here] at used ⊢
    obtain ⟨other, member, raw⟩ := recent s used (Orderly.unused_disk (Orderly.disk_cases written s) used unused)
    exact ⟨other, by simp [member], raw⟩

/-- Either every write of a run fits, or a name written in it is missing at its end. -/
theorem fits_or_loses (run : Run writeStep m files m')
    (orderly : Orderly m) (recent : Recent m names) (storable : ∀ file ∈ files, Storable file.1)
    (distinct : (names ++ files.map Prod.fst).Nodup) :
    Run (guarded WriteFits writeStep) m files m' ∨ ∃ name ∈ names ++ files.map Prod.fst, Missing m' name := by
  induction run generalizing names with
  | nil m => exact Or.inl (.nil m)
  | @cons m m₁ m' file files step rest ih =>
    obtain ⟨_, _, written⟩ := writeStep_written orderly.ready step
    have storableHere := storable file (by simp)
    have storableRest : ∀ file ∈ files, Storable file.1 := fun file member => storable file (by simp [member])
    by_cases fits : WriteFits m file
    · have distinct' : ((file.1 :: names) ++ files.map Prod.fst).Nodup := (perm_middle.symm.nodup_iff).mpr distinct
      rcases ih (orderly.write storableHere fits written) (recent.write storableHere written) storableRest
        distinct' with
        all | ⟨name, member, missing⟩
      · exact Or.inl (.cons ⟨fits, step⟩ all)
      · exact Or.inr ⟨name, perm_middle.mem_iff.mpr member, missing⟩
    · obtain ⟨name, member, missing⟩ := orderly.overwrites recent storableHere step fits
      have fresh : name ∉ files.map Prod.fst := by
        intro inside
        rw [nodup_append] at distinct
        exact distinct.2.2 name member name (by simp [inside]) rfl
      exact Or.inr ⟨name, by simp [member],
        missing_of_run rest (written.ready orderly.ready) storableRest fresh missing⟩

theorem Stores.readFile {count : Nat} (stores : Stores m name data)
    (orderly : Orderly m) (storable : Storable name) (run : sync m = .ok count m') :
    ∃ d, readFile name m'.dev = .ok (some data) d := by
  obtain ⟨reliable, entries, elsewhere⟩ := sync_holds orderly.ready orderly.low run
  obtain ⟨slot, chain, raw, linked, contents⟩ := stores
  have used : (entryOn m.view slot).used = true := by
    rw [used_iff, raw]
    exact ne_nil_of_length_pos storable.nonempty
  have found : firstSlot (isNamed name) m'.disk = some slot := by
    refine firstSlot_eq ?_ fun t named => ?_
    · rw [entries, isNamed_iff storable]
      exact raw
    · rw [entries, isNamed_iff storable] at named
      have usedT : (entryOn m.view t).used = true := by
        rw [used_iff, named, ← raw, ← used_iff]
        exact used
      exact orderly.distinct t slot usedT used (named.trans raw.symm)
  have agree : ∀ b ∈ chain, m'.disk b.toNat = m.view b.toNat := fun b member =>
    disk_inUse elsewhere (orderly.intact.linked used linked member)
  have held : Holds m'.disk name (some data) := by
    rw [← contents, ← entries, ← fileOf_frame _ agree]
    exact .present found (by rw [entries]; exact linked.frame agree)
  obtain ⟨_, d, read, rfl, -⟩ := wp_returns (readFile_holds reliable held)
  exact ⟨d, read⟩

theorem Missing.readFile {count : Nat} (missing : Missing m name) (ready : Ready m)
    (low : LowUncached m) (storable : Storable name) (run : sync m = .ok count m') :
    ∃ d, readFile name m'.dev = .ok none d := by
  obtain ⟨reliable, entries, -⟩ := sync_holds ready low run
  have absent : firstSlot (isNamed name) m'.disk = none := by
    cases lookup : firstSlot (isNamed name) m'.disk with
    | none => rfl
    | some slot =>
      have raw := (firstSlot_named storable lookup).2
      rw [entries] at raw
      exact absurd raw (missing slot)
  obtain ⟨_, d, read, rfl, -⟩ := wp_returns (readFile_holds reliable (Holds.absent absent))
  exact ⟨d, read⟩

/-- **No lost files.** After writes of distinct names that all return, and one `sync`, every
name reads back what was written under it if and only if each write found the place it
selected on the device free or its own in the cache. -/
theorem no_lost_files_iff {m m₁ m₂ : FsMem} {files : List (String × List UInt8)} {count : Nat} (mounted : Mounted m)
    (storable : ∀ file ∈ files, Storable file.1) (distinct : (files.map Prod.fst).Nodup)
    (run : Run writeStep m files m₁) (synced : sync m₁ = .ok count m₂) :
    (∀ file ∈ files, ∃ d, readFile file.1 m₂.dev = .ok (some file.2) d) ↔
      Run (guarded WriteFits writeStep) m files m₁ := by
  have orderly := mounted.orderly
  have recent : Recent m [] := by
    intro s used unused
    rw [← mounted.view, used] at unused
    cases unused
  constructor
  · intro readable
    rcases fits_or_loses run orderly recent storable distinct with all | ⟨_, member, missing⟩
    · exact all
    · obtain ⟨file, inside, rfl⟩ := mem_map.mp member
      obtain ⟨ready, low⟩ := run.invariant (I := fun m => Ready m ∧ LowUncached m) (fun m file m' sane step => by
        obtain ⟨_, _, written⟩ := writeStep_written sane.1 step
        exact ⟨written.ready sane.1, written.low sane.2⟩) ⟨orderly.ready, orderly.low⟩
      obtain ⟨d, nothing⟩ := missing.readFile ready low (storable file inside) synced
      obtain ⟨_, something⟩ := readable file inside
      rw [nothing] at something
      cases something
  · intro fits file member
    obtain ⟨orderly', stores, -⟩ := Orderly.stores fits orderly storable distinct
    exact (stores file member).readFile orderly' (storable file member) synced

theorem blankState_writes (small : blocksFor data.length ≤ 3967) :
    ∃ m' slot blocks, writeStep blankState (name, data) m' ∧ Written name data slot blocks blankState m' := by
  have place : selectSlot blankState.disk name ≠ none := by
    rw [ne_eq, selectSlot_none, not_and]
    intro _ full
    exact absurd (full.symm.trans blankImage_freeSlots) (by decide)
  have free : freeCount blankState.fs.bitmapCache = 3967 := freeCount_blankBitmap
  exact writeFile_returns blankState_mounted.ready place (by rw [free]; exact small)

theorem storable_a : Storable "/a" := ⟨by decide, by decide, by decide⟩

theorem storable_b : Storable "/b" := ⟨by decide, by decide, by decide⟩

def twoFiles : List (String × List UInt8) := [("/a", [1]), ("/b", [2])]

/-- Both writes return, and the second takes the place of the first. -/
theorem twoFiles_overwrite : ∃ m, Run writeStep blankState twoFiles m ∧ Ready m ∧ LowUncached m ∧ Missing m "/a" := by
  have settled := blankState_mounted.settled
  obtain ⟨ma, slotA, blocksA, stepA, writtenA⟩ := @blankState_writes "/a" [1] (by decide)
  -- the device's directory is still empty, so the second write selects the same place
  have entries := writtenA.dirs_of_settled blankState_mounted.view
  have absent : ∀ name, firstSlot (isNamed name) blankState.disk = none := blankImage_absent
  have select : ∀ name, selectSlot ma.disk name = some slotA := by
    intro name
    have selected := writtenA.selected
    rw [selectSlot, absent] at selected
    rw [selectSlot, firstSlot_congr entries, absent, firstSlot_congr entries]
    exact selected
  have readyA := writtenA.ready settled.ready
  have free : blocksFor [(2 : UInt8)].length ≤ freeCount ma.fs.bitmapCache := by
    have total : freeCount blankState.fs.bitmapCache = 3967 := freeCount_blankBitmap
    have taken := writtenA.free
    have one : blocksA.length = 1 := writtenA.count
    have need : blocksFor [(2 : UInt8)].length = 1 := by decide
    omega
  obtain ⟨mb, slotB, _, stepB, writtenB⟩ :=
    @writeFile_returns ma readyA "/b" [2] (by rw [select]; simp) free
  obtain rfl : slotB = slotA := Option.some.inj (writtenB.selected.symm.trans (select "/b"))
  have missing : Missing mb "/a" := by
    intro t
    by_cases here : t = slotB
    · rw [here, writtenB.entry, newEntry_rawName storable_b]
      decide
    · rw [writtenB.entries t here, writtenA.entries t here, blankState_mounted.view]
      intro raw
      have used : (entryOn blankState.disk t).used = true := used_of_rawName (by rw [raw]; decide)
      rw [show (entryOn blankState.disk t).used = false from blankImage_unused t] at used
      cases used
  exact ⟨mb, .cons stepA (.cons stepB (.nil mb)), writtenB.ready readyA, writtenB.low (writtenA.low settled.low),
    missing⟩

/-- One file on an empty image is written to a free place; of two without a `sync` between them the second is not. -/
theorem no_lost_files_iff_two :
    (∃ m₁ m₂ count d, Run writeStep blankState [("/a", [1])] m₁ ∧ sync m₁ = .ok count m₂ ∧
      readFile "/a" m₂.dev = .ok (some [1]) d) ∧
    ∃ m₁ m₂ count, Run writeStep blankState twoFiles m₁ ∧ sync m₁ = .ok count m₂ ∧
      ¬ Run (guarded WriteFits writeStep) blankState twoFiles m₁ := by
  constructor
  · obtain ⟨m₁, _, _, step, written⟩ := @blankState_writes "/a" [1] (by decide)
    have settled := blankState_mounted.settled
    obtain ⟨count, m₂, synced, -⟩ := wp_returns
      (sync_spec (written.ready settled.ready) (written.low settled.low))
    have storable : ∀ file ∈ [(("/a" : String), ([1] : List UInt8))], Storable file.1 := by
      simp only [mem_singleton, forall_eq]
      exact storable_a
    have fits : WriteFits blankState ("/a", [1]) := by
      intro slot _
      rw [blankState_mounted.view]
      exact Or.inl (blankImage_unused slot)
    have readable := (no_lost_files_iff blankState_mounted storable (by simp) (.cons step (.nil m₁)) synced).mpr
      (.cons ⟨fits, step⟩ (.nil m₁))
    obtain ⟨d, read⟩ := readable _ (mem_singleton_self _)
    exact ⟨m₁, m₂, count, d, .cons step (.nil m₁), synced, read⟩
  · obtain ⟨m₁, run, ready, low, missing⟩ := twoFiles_overwrite
    obtain ⟨count, m₂, synced, -⟩ := wp_returns (sync_spec ready low)
    have storable : ∀ file ∈ twoFiles, Storable file.1 := by
      simp only [twoFiles, mem_cons, not_mem_nil, or_false, forall_eq_or_imp, forall_eq]
      exact ⟨storable_a, storable_b⟩
    refine ⟨m₁, m₂, count, run, synced, fun fits => ?_⟩
    obtain ⟨_, read⟩ := (no_lost_files_iff blankState_mounted storable (by decide) run synced).mpr fits _ mem_cons_self
    obtain ⟨_, nothing⟩ := missing.readFile ready low storable_a synced
    rw [nothing] at read
    cases read

/-- Two files written to an empty image without a `sync` between them: both writes return, the
`sync` returns, and the first file is gone. -/
theorem second_write_loses_first : ∃ m₁ m₂ count d, Run writeStep blankState [("/a", [1]), ("/b", [2])] m₁ ∧
    sync m₁ = .ok count m₂ ∧ readFile "/a" m₂.dev = .ok none d := by
  obtain ⟨m₁, run, ready, low, missing⟩ := twoFiles_overwrite
  obtain ⟨count, m₂, synced, -⟩ := wp_returns (sync_spec ready low)
  obtain ⟨d, read⟩ := missing.readFile ready low storable_a synced
  exact ⟨m₁, m₂, count, d, run, synced, read⟩

end HavyOs.Fs
