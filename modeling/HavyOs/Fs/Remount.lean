import HavyOs.Fs.FileMap

/-!
# Blocks across a remount

A remount reads the bitmap from the device and forgets the one in memory, so a block that an entry
on the device reaches must be marked there. Entries come to the device by `sync`, which writes the
bitmap first, but also by the eviction of a directory sector and by the cache's own `sync` at the
end of `remove`, which do not. `mkdir` leaves both its entry and its mark in memory; a removal or a
loaded sector in between then brings the entry to the device without the mark. `Careful` is the
condition on a call that excludes this.
-/

namespace HavyOs.Fs

open HavyOs.Lib CacheMem FileSystemState FileSystemState List

/-- The calls of `GlobalSfs` that are made before the remount. -/
inductive SfsOp where
  | writeFile (path : String) (data : List UInt8)
  | mkdir (path : String)
  | remove (path : String)
  | sync
  | listDir (path : String)

def SfsOp.exec : SfsOp → FsM Unit
  | writeFile path data => GlobalSfs.writeFile path data
  | mkdir path => GlobalSfs.mkdir path
  | remove path => GlobalSfs.remove path
  | sync => do
    let _ ← GlobalSfs.sync
  | listDir path => do
    let _ ← GlobalSfs.listDir path

variable (m : FsMem)

def SfsOp.step (op : SfsOp) (m' : FsMem) : Prop := op.exec m = .ok () m'

def FsMem.cachedSectors : Finset Nat := m.fs.cache.blocks.keys.toFinset

/-- The bitmap on the device is current when an entry could reach the device without it:
before a removal, and before a call that does not fit into the cache. -/
def SfsOp.Careful : SfsOp → Prop
  | writeFile _ _ => True
  | sync => True
  | remove _ => m.fs.bitmapDirty = false
  | mkdir _ => m.fs.bitmapDirty = false ∨ m.cachedSectors.card + 2 ≤ cacheMaxBlocks
  | listDir _ => m.fs.bitmapDirty = false ∨ (m.cachedSectors ∪ dirSectors.toFinset).card ≤ cacheMaxBlocks

/-- Block `b` is reached from `head` along the links. -/
inductive Reaches (disk : Nat → Block) : UInt32 → UInt32 → Prop where
  | here {head : UInt32} (nonzero : head ≠ 0) : Reaches disk head head
  | next {head b : UInt32} (nonzero : head ≠ 0) (later : Reaches disk (nextOf (disk head.toNat)) b) :
      Reaches disk head b

theorem Linked.reaches {disk : Nat → Block} {head b : UInt32} (reached : Reaches disk head b) :
    ∀ {blocks : List UInt32}, Linked disk head blocks → b ∈ blocks := by
  induction reached with
  | here nonzero =>
    intro blocks linked
    cases blocks with
    | nil => exact absurd linked nonzero
    | cons block rest => rw [linked.1]; simp
  | next nonzero _ ih =>
    intro blocks linked
    cases blocks with
    | nil => exact absurd linked nonzero
    | cons block rest =>
      obtain ⟨rfl, -, later⟩ := linked
      exact mem_cons_of_mem _ (ih later)

/-- What the calls maintain whether or not the device could be remounted. -/
structure Sane (m : FsMem) : Prop where
  ready : Ready m
  low : LowUncached m
  magic : fromLeBytes (slice (m.disk secSuper) 0 4) = Fs.magic
  view : Intact m.view m.inUse
  marks : ∀ k, marked (m.disk secMapStart) k = true → marked m.fs.bitmapCache k = true
  settled : m.fs.bitmapDirty = false →
    m.view = m.disk ∧ ∀ k, marked m.fs.bitmapCache k = true → marked (m.disk secMapStart) k = true

/-- Every entry on the device has a chain of blocks that the bitmap on the device marks. -/
structure Remountable (m : FsMem) : Prop extends Sane m where
  device : Intact m.disk (Allocated m.disk)

variable {m : FsMem} {k : Nat}

theorem mem_cachedSectors {s : Nat} : s ∈ m.cachedSectors ↔ m.mem.Cached s := by
  rw [FsMem.cachedSectors, mem_toFinset, Std.TreeMap.mem_keys]
  rfl

/-- A block in use by the memory is one in use on a device with a current bitmap. -/
theorem allocated_of_inUse (inUse : m.inUse k)
    (bits : ∀ k, marked m.fs.bitmapCache k = true → marked (m.disk secMapStart) k = true) : Allocated m.disk k := by
  obtain ⟨inData, mapped, bit⟩ := inUse_iff.mp inUse
  refine ⟨inData, mapped, ?_⟩
  unfold bitOn
  by_cases small : k < 4096
  · rw [if_pos small] at bit
    rw [show k / 4096 = 0 by omega, show k % 4096 = k by omega]
    exact bits k bit
  · rwa [if_neg small] at bit

theorem inUse_of_allocated (allocated : Allocated m.disk k)
    (marks : ∀ k, marked (m.disk secMapStart) k = true → marked m.fs.bitmapCache k = true) : m.inUse k := by
  refine inUse_iff.mpr ⟨allocated.inData, allocated.mapped, ?_⟩
  have bit := allocated.bit
  unfold bitOn at bit
  split
  · rw [show k / 4096 = 0 by omega, show k % 4096 = k by omega] at bit
    exact marks k bit
  · exact bit

theorem Allocated.frame {disk disk' : Nat → Block} (h : Allocated disk k)
    (agree : ∀ s, s < secDirStart → disk' s = disk s) : Allocated disk' k := by
  have mapped := h.mapped
  refine ⟨h.inData, mapped, ?_⟩
  rw [bitOn, agree _ (by simp only [secMapStart, secDirStart]; omega)]
  exact h.bit

theorem Mounted.remountable (h : Mounted m) : Remountable m := by
  have settled := h.settled
  refine ⟨⟨h.ready, settled.low, h.valid.magic, settled.intact_view, ?_, fun _ => ⟨h.view, ?_⟩⟩, h.valid.intact⟩
  · rw [h.bitmap]
    exact fun _ => id
  · rw [h.bitmap]
    exact fun _ => id

/-! ## What each call keeps -/

theorem Remountable.of_sync {m' : FsMem} (low : LowUncached m)
    (magic : fromLeBytes (slice (m.disk secSuper) 0 4) = Fs.magic) (view : Intact m.view m.inUse)
    (bits : m.fs.bitmapDirty = false → ∀ k, marked m.fs.bitmapCache k = true ↔ marked (m.disk secMapStart) k = true)
    (synced : Synced m') (bitmap : m'.fs.bitmapCache = m.fs.bitmapCache) (low' : LowUncached m')
    (disk : m'.disk = if m.fs.bitmapDirty then Function.update m.view secMapStart m.fs.bitmapCache else m.view) :
    Remountable m' := by
  have elsewhere : ∀ s, s ≠ secMapStart → m'.disk s = m.view s := fun _ => disk_elsewhere disk
  have map : ∀ k, marked m'.fs.bitmapCache k = true ↔ marked (m'.disk secMapStart) k = true := by
    intro k
    rw [bitmap, disk]
    split_ifs with clean
    · rw [Function.update_self]
    · rw [low.view (by decide)]
      exact bits (by simpa using clean) k
  have intact : Intact m'.disk m'.inUse := view.synced elsewhere low bitmap
  refine ⟨⟨synced.ready, low', ?_, ?_, fun k => (map k).mpr, fun _ => ⟨synced.view, fun k => (map k).mp⟩⟩, ?_⟩
  · rw [elsewhere _ (by decide), low.view (by decide)]
    exact magic
  · rw [synced.view]
    exact intact
  · exact intact.frame (fun _ => rfl) (fun _ _ => rfl) fun s old => allocated_of_inUse old fun k => (map k).mp

namespace Remountable

variable {m m' : FsMem}

variable (h : Remountable m)

include h

theorem bits (clean : m.fs.bitmapDirty = false) (k : Nat) :
    marked m.fs.bitmapCache k = true ↔ marked (m.disk secMapStart) k = true :=
  ⟨(h.settled clean).2 k, h.marks k⟩

theorem sync (run : SfsOp.sync.step m m') : Remountable m' := by
  have spec : wp SfsOp.sync.exec (fun _ m' => Remountable m') (fun _ _ => True) m := by
    rw [SfsOp.exec, wp_bind]
    apply wp_imp (sync_spec h.ready h.low)
    rintro _ _ ⟨synced, bitmap, -, low, disk⟩
    exact of_sync h.low h.magic h.view h.bits synced bitmap low disk
  exact wp_of_ok spec run

variable {path : String}

theorem writeFile {data : List UInt8} (run : (SfsOp.writeFile path data).step m m') : Remountable m' := by
  obtain ⟨_, blocks, _, written, synced, bitmap, -, low, disk⟩ :=
    wp_of_ok (GlobalSfs.writeFile_spec h.ready h.low path data) run
  refine of_sync (written.low h.low) ?_ (written.intact h.low h.view) ?_ synced bitmap low disk
  · rw [written.disk_low h.low (by decide)]
    exact h.magic
  · -- with the bitmap clean the write took no block
    intro clean k
    rw [written.dirty, Bool.or_eq_false_iff] at clean
    have none : blocks = [] := by simpa using clean.2
    rw [written.marks, written.disk_low h.low (by decide), none, h.bits clean.1]
    simp [sectors]

theorem mkdir (careful : (SfsOp.mkdir path).Careful m)
    (run : (SfsOp.mkdir path).step m m') : Remountable m' := by
  obtain ⟨-, slot, blocks, written⟩ := wp_of_ok (mkdir_spec h.ready path) run
  -- nothing outside the fresh blocks is written to the device
  have quiet : ∀ s, s ∉ sectors blocks → m'.disk s = m.disk s := by
    intro s outside
    rcases careful with clean | _
    · exact written.disk_of_settled (h.settled clean).1 outside
    · have one : blocks.length = 1 := written.count
      have fits : (m.cachedSectors ∪ (slot.sector :: sectors blocks).toFinset).card ≤ cacheMaxBlocks := by
        have union := Finset.card_union_le m.cachedSectors (slot.sector :: sectors blocks).toFinset
        have loads := toFinset_card_le (slot.sector :: sectors blocks)
        simp only [length_cons, sectors, length_map] at loads union ⊢
        omega
      have same := written.traffic.quiet _ fits (fun t cached => Finset.mem_union_left _ (mem_cachedSectors.mpr cached))
        fun t member => Finset.mem_union_right _ (mem_toFinset.mpr member)
      exact congrFun same s
  have dirty : m'.fs.bitmapDirty = true := by
    have one : blocks.length = 1 := written.count
    rw [written.dirty]
    cases blocks with
    | nil => simp at one
    | cons b rest => simp
  have device : Intact m'.disk (Allocated m'.disk) := by
    refine h.device.frame (fun t => ?_) (fun s old => quiet s (written.notInUse (inUse_of_allocated old h.marks)))
      fun s old => old.frame fun s small => written.disk_low h.low small
    rw [entryOn, quiet _ fun member => Slot.sector_ne (written.inData _ member) rfl, entryOn]
  refine ⟨⟨written.ready h.ready, written.low h.low, ?_, written.intact h.low h.view, fun k mark => ?_,
    fun clean => ?_⟩, device⟩
  · rw [written.disk_low h.low (by decide)]
    exact h.magic
  · rw [written.disk_low h.low (by decide)] at mark
    exact (written.marks k).mpr (Or.inl (h.marks k mark))
  · rw [dirty] at clean
    cases clean

theorem listDir (careful : (SfsOp.listDir path).Careful m)
    (run : (SfsOp.listDir path).step m m') : Remountable m' := by
  have spec : wp (SfsOp.listDir path).exec (fun _ m' => Browsed m m') (fun _ _ => True) m := by
    rw [SfsOp.exec, wp_bind]
    exact wp_mono (listDir_spec h.ready path) (fun _ _ browsed => browsed) fun _ _ failure => failure
  have browsed := wp_of_ok spec run
  have same : m'.disk = m.disk := by
    rcases careful with clean | room
    · funext s
      rcases browsed.traffic.disk s (by simp) with same | taken
      · exact same
      · exact taken.trans (congrFun (h.settled clean).1 s)
    · exact browsed.traffic.quiet _ room (fun s cached => Finset.mem_union_left _ (mem_cachedSectors.mpr cached))
        fun s member => Finset.mem_union_right _ (mem_toFinset.mpr member)
  have inUse : m'.inUse = m.inUse := by
    unfold FsMem.inUse
    rw [same, browsed.bitmap]
  refine ⟨⟨browsed.ready h.ready, ?_, by rw [same]; exact h.magic, ?_, ?_, ?_⟩, by rw [same]; exact h.device⟩
  · exact h.low.traffic browsed.traffic fun s member => (mem_dirSectors.mp member).1
  · rw [browsed.view, inUse]
    exact h.view
  · rw [same, browsed.bitmap]
    exact h.marks
  · rw [browsed.dirty, browsed.view, same, browsed.bitmap]
    exact h.settled

theorem remove (careful : (SfsOp.remove path).Careful m)
    (run : (SfsOp.remove path).step m m') : Remountable m' := by
  obtain ⟨_, removed⟩ := wp_of_ok (remove_spec h.ready path) run
  have clean : m.fs.bitmapDirty = false := careful
  have intact : Intact m'.disk m'.inUse := removed.intact h.low h.view
  have map : ∀ k, marked m'.fs.bitmapCache k = true ↔ marked (m'.disk secMapStart) k = true := by
    intro k
    rw [removed.bitmap, removed.disk_low h.low (by decide)]
    exact h.bits clean k
  refine ⟨⟨removed.synced.ready, removed.low h.low, ?_, by rw [removed.synced.view]; exact intact,
    fun k => (map k).mpr, fun _ => ⟨removed.synced.view, fun k => (map k).mp⟩⟩, ?_⟩
  · rw [removed.disk_low h.low (by decide)]
    exact h.magic
  · exact intact.frame (fun _ => rfl) (fun _ _ => rfl) fun s old => allocated_of_inUse old fun k => (map k).mp

theorem step {op : SfsOp} (careful : op.Careful m) (run : op.step m m') : Remountable m' := by
  cases op with
  | writeFile path data => exact h.writeFile run
  | mkdir path => exact h.mkdir careful run
  | remove path => exact h.remove careful run
  | sync => exact h.sync run
  | listDir path => exact h.listDir careful run

end Remountable

/-! ## Whole runs -/

/-- The device can be mounted again, every block reached from an entry on it is marked in its bitmap, and no allocation
after the mount returns such a block. -/
def MarksReachable (m : FsMem) : Prop :=
  ∃ fs dev', init m.dev = .ok (some fs) dev' ∧
    ∀ (slot : Slot) (b : UInt32), (entryOn m.disk slot).used = true → Reaches m.disk (entryOn m.disk slot).head b →
      bitOn m.disk b.toNat = true ∧
      ∀ after after' : FsMem, (∀ k, marked fs.bitmapCache k = true → marked after.fs.bitmapCache k = true) →
        allocBlock after ≠ .ok (some b) after'

/-- **Blocks across a remount.** In every run from a valid image whose calls return and are
careful, the device can be mounted again at any point with the blocks it reaches marked. -/
theorem remount_marks_reachable {m m' : FsMem} {ops : List SfsOp} (mounted : Mounted m)
    (run : Run (guarded SfsOp.Careful SfsOp.step) m ops m') : MarksReachable m' := by
  have safe : Remountable m' := run.invariant (fun _ _ _ safe step => safe.step step.1 step.2) mounted.remountable
  obtain ⟨_, dev', init, rfl, -⟩ := wp_returns (init_spec safe.ready.reliable safe.magic)
  refine ⟨_, dev', init, fun slot b used reached => ?_⟩
  obtain ⟨_, chain, inside⟩ := safe.device slot used
  have allocated := inside _ (mem_sectors.mpr ⟨b, chain.linked.reaches reached, rfl⟩)
  refine ⟨allocated.bit, fun after after' keeps alloc => ?_⟩
  obtain ⟨_, clear, -⟩ := wp_of_ok (allocBlock_spec (E := fun _ _ => True)) alloc
  have bit := allocated.bit
  rw [bitOn, show b.toNat / 4096 = 0 by omega, show b.toNat % 4096 = b.toNat by omega] at bit
  rw [keeps _ bit] at clear
  cases clear

/-- The condition is met, for instance, by a directory made on an empty image. -/
theorem remount_marks_reachable_mkdir : ∃ m', Run (guarded SfsOp.Careful SfsOp.step) blankState [.mkdir "/d"] m' ∧
    MarksReachable m' := by
  have absent : ∀ name, firstSlot (DirEntry.isNamed name) blankState.disk = none := blankImage_absent
  have place : firstSlot (fun e => !e.used) blankState.disk ≠ none := by
    rw [ne_eq, ← freeSlots_eq_zero]
    exact fun none => absurd (none.symm.trans blankImage_freeSlots) (by decide)
  have room : 0 < freeCount blankState.fs.bitmapCache := by
    rw [show freeCount blankState.fs.bitmapCache = 3967 from freeCount_blankBitmap]
    decide
  obtain ⟨m', slot, _, made, -⟩ := mkdir_returns blankState_mounted.ready (absent _) place room
  have run : Run (guarded SfsOp.Careful SfsOp.step) blankState [.mkdir "/d"] m' :=
    .cons ⟨Or.inl rfl, made⟩ (.nil m')
  exact ⟨m', run, remount_marks_reachable blankState_mounted run⟩

/-- Without the condition a mark is lost: on an empty image an empty file is written, a
directory made and the file removed, all calls return, and the directory's block is reached
on the device but not marked there. -/
theorem remount_loses_mark : ∃ m', Run SfsOp.step blankState [.writeFile "/x" [], .mkdir "/d", .remove "/x"] m' ∧
    ∃ (slot : Slot) (b : UInt32), (entryOn m'.disk slot).used = true ∧
      Reaches m'.disk (entryOn m'.disk slot).head b ∧ bitOn m'.disk b.toNat = false := by
  have storableX : Storable "/x" := ⟨by decide, by decide, by decide⟩
  have storableD : Storable (dirPath "/d") := ⟨by decide, by decide, by decide⟩
  have different : dirPath "/d" ≠ "/x" := by decide
  -- the empty file: it is on the device, and nothing waits in memory
  obtain ⟨files, represents⟩ := exists_represents blankState_mounted.valid.intact
  have start := blankState_mounted.refines represents
  have empty : ∀ {name}, Storable name → files name = none := blankImage_files represents
  have places : freeSlots blankState.disk = 448 := blankImage_freeSlots
  have free : freeCount (blankState.disk secMapStart) = 3967 := freeCount_blankBitmap
  have safe : Remountable blankState := blankState_mounted.remountable
  have spec := GlobalSfs.writeFile_spec safe.ready safe.low "/x" []
  cases wrote : GlobalSfs.writeFile "/x" [] blankState with
  | error e m₁ =>
    cases wp_of_error spec wrote with
    | rootDirFull _ full _ =>
      rw [selectSlot_none, places] at full
      exact absurd full.2 (by decide)
    | diskFull _ _ short _ _ _ => exact absurd short (Nat.not_lt_zero _)
  | ok _ m₁ =>
    obtain ⟨_, _, _, written, synced, bitmap, clean, low, disk⟩ := wp_of_ok spec wrote
    have related := start.written storableX written synced bitmap low fun _ => disk_elsewhere disk
    have safe₁ := safe.writeFile wrote
    have absent : firstSlot (DirEntry.isNamed (dirPath "/d")) m₁.disk = none := by
      rw [← related.files.none_iff storableD]
      simp [Function.update_of_ne different, empty storableD]
    have place : firstSlot (fun e => !e.used) m₁.disk ≠ none := by
      rw [ne_eq, ← freeSlots_eq_zero, ← related.slots]
      simp [empty storableX, places]
    have room : 0 < freeCount m₁.fs.bitmapCache := by
      rw [← related.blocks]
      simp [free, blocksFor]
    obtain ⟨m₂, slot, blocks, made, dir⟩ := mkdir_returns safe₁.ready absent place room
    -- the directory's entry waits in memory, beside the file's
    have settled := (safe₁.settled clean).1
    have entries := dir.dirs_of_settled settled
    have found : ∃ slotX, firstSlot (DirEntry.isNamed "/x") m₂.disk = some slotX := by
      rw [firstSlot_congr entries, ← Option.isSome_iff_exists, Option.isSome_iff_ne_none, ne_eq,
        ← related.files.none_iff storableX]
      simp
    obtain ⟨slotX, found⟩ := found
    obtain ⟨m₃, removed, gone⟩ := remove_returns (dir.ready safe₁.ready) found (by decide)
    have apart : slot ≠ slotX := by
      rintro rfl
      have used := (firstSlot_named storableX found).1
      rw [entries] at used
      rcases selectSlot_cases dir.selected with named | ⟨-, unused⟩
      · rw [absent] at named
        cases named
      · rw [unused] at used
        cases used
    refine ⟨m₃, .cons wrote (.cons made (.cons removed (.nil m₃))), ?_⟩
    -- the removal brought the entry to the device and left the mark in memory
    have onDevice : m₃.disk = storeAt m₂.view slotX noEntry := by rw [← gone.synced.view, gone.view]
    have entry : entryOn m₃.disk slot = newEntry (dirPath "/d") 3 blocks := by
      rw [onDevice, entryOn_storeAt_other _ apart noEntry_length]
      exact dir.entry
    have one : blocks.length = 1 := dir.count
    obtain ⟨b, rfl⟩ := length_eq_one_iff.mp one
    have nonzero : b ≠ 0 := dir.linked.2.1
    obtain ⟨_, unmarked⟩ := dir.fresh b (by simp)
    refine ⟨slot, b, ?_, ?_, ?_⟩
    · rw [entry, newEntry_used storableD]
    · rw [entry]
      exact .here nonzero
    · rw [bitOn, show b.toNat / 4096 = 0 by omega, show b.toNat % 4096 = b.toNat by omega, onDevice,
        storeAt_other _ (by have := slotX.sector_bounds; rw [secMapStart]; omega), (dir.low safe₁.low).view (by decide),
        dir.disk_low safe₁.low (by decide), Bool.eq_false_iff]
      intro mark
      rw [safe₁.marks _ mark] at unmarked
      cases unmarked

end HavyOs.Fs
