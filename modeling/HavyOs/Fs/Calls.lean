import HavyOs.Fs.Image

/-!
# The other calls

`sync`, `list_dir`, `mkdir` and `remove` on a device without errors. `sync` brings the
bitmap and then the view to the device; `remove` syncs the cache but not the bitmap;
`list_dir` only loads sectors, which may evict others.
-/

namespace HavyOs.Fs

open HavyOs.Lib CacheMem Function FsMem List
open DirEntry (isNamed)

def dirSectors : List Nat := (finRange secDirCount).map fun i => secDirStart + i.val

variable {s : Nat} {m m' : FsMem}

theorem mem_dirSectors : s ∈ dirSectors ↔ 65 ≤ s ∧ s < 129 := by
  simp only [dirSectors, mem_map, secDirStart, secDirCount]
  constructor
  · omega
  · rintro ⟨_, _⟩
    exact ⟨⟨s - 65, by omega⟩, by simp; omega⟩

/-- Sectors in front of the directory are never in the cache. -/
def LowUncached (m : FsMem) : Prop := ∀ s, s < secDirStart → ¬ m.mem.Cached s

theorem LowUncached.view (h : LowUncached m) (low : s < secDirStart) : m.view s = m.disk s :=
  view_of_uncached (not_cached_iff.mp (h s low))

/-- Traffic in the directory and the data area leaves the sectors in front alone. -/
theorem LowUncached.traffic {fresh loads : List Nat} (h : LowUncached m)
    (traffic : Traffic fresh loads m.mem m'.mem) (high : ∀ s ∈ loads, secDirStart ≤ s) : LowUncached m' := by
  intro s low cached
  rcases traffic.cached s cached with old | new
  · exact h s low old
  · exact absurd (high s new) (by omega)

/-- The view and the bitmap stay; the directory may be loaded. -/
structure Browsed (m m' : FsMem) : Prop where
  bitmap : m'.fs.bitmapCache = m.fs.bitmapCache
  dirty : m'.fs.bitmapDirty = m.fs.bitmapDirty
  view : m'.view = m.view
  traffic : Traffic [] dirSectors m.mem m'.mem

theorem Browsed.reliable (h : Browsed m m') (reliable : m.dev.Reliable) : m'.dev.Reliable :=
  h.traffic.reliable reliable

theorem Browsed.ready (h : Browsed m m') (ready : Ready m) : Ready m' :=
  ⟨h.traffic.coherent, h.reliable ready.reliable, by rw [h.bitmap]; exact ready.reserved⟩

theorem Browsed.refl (coherent : m.mem.Coherent) : Browsed m m :=
  ⟨rfl, rfl, rfl, (Traffic.refl coherent).trans (Traffic.refl coherent) (fun _ _ => rfl) (by simp) (by simp) (by simp)⟩

theorem Browsed.trans {a b c : FsMem} (h : Browsed a b) (k : Browsed b c) : Browsed a c :=
  ⟨k.bitmap.trans h.bitmap, k.dirty.trans h.dirty, k.view.trans h.view,
    h.traffic.trans k.traffic (fun s _ => congrFun h.view s) (by simp) (by simp) fun _ member => member.elim id id⟩

/-- Everything is on the device: nothing is dirty, and the view is the disk. -/
structure Synced (m : FsMem) : Prop where
  ready : Ready m
  clean : m.mem.Clean
  view : m.view = m.disk

namespace FileSystemState

variable {E : String → FsMem → Prop} {m : FsMem}

/-- `list_dir` loads directory sectors, changes nothing else, and reports the entries of the view up
to the second of two empty sectors in a row. -/
theorem listFrom_spec : ∀ (dirs : List (Fin secDirCount)) (empty : Nat) {m : FsMem},
    m.mem.Coherent → m.dev.Reliable → wp (listFrom empty dirs) (fun files m' =>
      files = untilGap empty (dirs.map fun i => listSector (m.view (secDirStart + i.val))) ∧ Browsed m m') E m := by
  intro dirs
  induction dirs with
  | nil => exact fun _ _ coherent _ => ⟨rfl, Browsed.refl coherent⟩
  | cons i rest ih =>
    intro empty m coherent reliable
    rw [listFrom, wp_bind, wp_attempt, onCache, wp_zoom]
    apply wp_mono (BufferCache.readMut_spec coherent _)
    · rintro buf mem ⟨read, loaded⟩
      have browsed : Browsed m (m.setMem mem) := by
        refine ⟨rfl, rfl, loaded.kept.view, ?_⟩
        refine (Traffic.refl coherent).trans (Traffic.of_loaded loaded) (fun _ _ => rfl) (by simp) (by simp) ?_
        intro s member
        have here : s = secDirStart + i.val := by simpa using member
        rw [here]
        exact mem_map.mpr ⟨i, mem_finRange i, rfl⟩
      have later := fun count => ih count browsed.traffic.coherent (browsed.reliable reliable)
      rw [browsed.view] at later
      have here : buf = m.view (secDirStart + i.val) := read
      rw [map_cons, untilGap, ← here]
      dsimp only
      split
      · split
        · exact ⟨rfl, browsed⟩
        · apply wp_imp (later _)
          rintro files m' ⟨same, more⟩
          exact ⟨same, browsed.trans more⟩
      · rw [wp_bind]
        apply wp_imp (later 0)
        rintro files m' ⟨same, more⟩
        exact ⟨by rw [same], browsed.trans more⟩
    · rintro e mem ⟨-, -, k, refused⟩
      have never := reliable k
      simp only [FsMem.mem] at refused
      rw [never] at refused
      cases refused

theorem listDir_spec (ready : Ready m) (path : String) : wp (listDir path) (fun _ m' => Browsed m m') E m :=
  wp_mono (listFrom_spec _ _ ready.coherent ready.reliable) (fun _ _ done => done.2) fun _ _ failure => failure

theorem cacheSync_spec (ready : Ready m) :
    wp (onCache BufferCache.sync)
      (fun _ m' => Synced m' ∧ m'.view = m.view ∧ m'.fs.bitmapCache = m.fs.bitmapCache ∧
        m'.fs.bitmapDirty = m.fs.bitmapDirty ∧ ∀ s, m'.mem.Cached s ↔ m.mem.Cached s) E m := by
  rw [onCache, wp_zoom]
  apply wp_mono (BufferCache.sync_spec ready.coherent)
  · rintro _ mem ⟨kept, clean, cached, -⟩
    have reliable : mem.dev.Reliable := by
      intro k
      rw [kept.fails]
      exact ready.reliable k
    exact ⟨⟨⟨kept.coherent, reliable, ready.reserved⟩, clean, kept.coherent.view_eq_disk clean⟩, kept.view, rfl, rfl,
      cached⟩
  · rintro e mem ⟨-, -, k, refused⟩
    have reliable := ready.reliable k
    simp only [FsMem.mem] at refused
    rw [reliable] at refused
    cases refused

theorem syncBitmap_spec (ready : Ready m) (low : LowUncached m) :
    wp syncBitmap
      (fun _ m' => Ready m' ∧ m'.fs = { m.fs with bitmapDirty := false } ∧
        m'.view = if m.fs.bitmapDirty then update m.view secMapStart m.fs.bitmapCache else m.view)
      E m := by
  rw [syncBitmap, wp_bind, wp_get]
  by_cases dirty : m.fs.bitmapDirty = true
  · rw [if_pos dirty, wp_bind, onDevice, wp_zoom]
    apply wp_mono (BlockDev.writeSector_spec secMapStart m.fs.bitmapCache m.dev)
    · rintro _ dev ⟨disk, fails⟩
      rw [if_pos dirty]
      have uncached : m.fs.cache.blocks[secMapStart]? = none := not_cached_iff.mp (low secMapStart (by decide))
      refine ⟨⟨⟨ready.coherent.bounded, ?_⟩, fun k => ?_, ready.reserved⟩, rfl, ?_⟩
      · intro s entry cached clean
        have other : s ≠ secMapStart := by
          rintro rfl
          have : m.fs.cache.blocks[secMapStart]? = some entry := cached
          rw [uncached] at this
          cases this
        simp only [mem, disk, update_of_ne other]
        exact ready.coherent.clean s entry cached clean
      · simp only [fails]
        exact ready.reliable k
      · funext s
        by_cases here : s = secMapStart
        · subst here
          simp [FsMem.view, CacheMem.view, mem, uncached, disk]
        · simp [FsMem.view, CacheMem.view, mem, disk, update_of_ne here]
    · rintro e dev ⟨-, -, k, refused⟩
      rw [ready.reliable k] at refused
      cases refused
  · have clear : m.fs.bitmapDirty = false := by simpa using dirty
    rw [if_neg dirty, if_neg dirty, ← clear]
    exact ⟨ready, rfl, rfl⟩

/-- **`sync`.** The device holds the view, with the bitmap in its sector. -/
theorem sync_spec (ready : Ready m) (low : LowUncached m) :
    wp sync
      (fun _ m' => Synced m' ∧ m'.fs.bitmapCache = m.fs.bitmapCache ∧ m'.fs.bitmapDirty = false ∧ LowUncached m' ∧
        m'.disk = if m.fs.bitmapDirty then update m.view secMapStart m.fs.bitmapCache else m.view) E m := by
  rw [sync, wp_bind]
  apply wp_imp (syncBitmap_spec ready low)
  rintro _ m₁ ⟨ready₁, fs, view₁⟩
  apply wp_imp (cacheSync_spec ready₁)
  rintro _ _ ⟨synced, view₂, bitmap, dirty, cached⟩
  refine ⟨synced, by rw [bitmap, fs], by rw [dirty, fs], fun s small present => ?_, ?_⟩
  · have old := (cached s).mp present
    have blocks : m₁.mem.cache = m.mem.cache := by rw [mem, fs]; rfl
    rw [Cached, blocks] at old
    exact low s small old
  · rw [← synced.view, view₂, view₁]

end FileSystemState

theorem disk_elsewhere
    (disk : m'.disk = if m.fs.bitmapDirty then update m.view secMapStart m.fs.bitmapCache else m.view)
    (other : s ≠ secMapStart) : m'.disk s = m.view s := by
  rw [disk]
  split
  · exact update_of_ne other _ _
  · rfl

/-! ## `remove` and `mkdir` -/

theorem Same.browsed (h : Same m m') (ready : Ready m) : Browsed m m' := by
  refine ⟨by rw [h.fs], by rw [h.fs], h.view, ?_⟩
  exact (h.traffic ready.coherent).trans (Traffic.refl (h.ready ready).coherent) (fun s _ => congrFun h.view s)
    (by simp)
    (by simp) (by simp)

theorem Same.written {name : String} {data : List UInt8} {slot : Slot} {blocks : List UInt32} {m₁ m₂ : FsMem}
    (same : Same m m₁) (ready : Ready m) (h : Written name data slot blocks m₁ m₂) :
    Written name data slot blocks m m₂ := by
  have disk : m₁.disk = m.disk := same.dev.disk
  refine ⟨same.fs ▸ h.toReserved, disk ▸ h.selected, h.count, h.inData, h.linked, h.holds, h.entry,
    same.view ▸ h.entries,
    same.view ▸ h.view, ?_⟩
  exact (same.traffic ready.coherent).trans h.traffic (fun s _ => congrFun same.view s) (by simp) (by simp) (by simp)

/-- A removal that returned: the entry at `slot` is gone and the device holds the view. -/
structure Removed (path : String) (slot : Slot) (m m' : FsMem) : Prop where
  found : firstSlot (isNamed path) m.disk = some slot
  synced : Synced m'
  view : m'.view = storeAt m.view slot noEntry
  bitmap : m'.fs.bitmapCache = m.fs.bitmapCache
  dirty : m'.fs.bitmapDirty = m.fs.bitmapDirty
  cached : ∀ s, m'.mem.Cached s → m.mem.Cached s ∨ s ∈ dirSectors

inductive RemoveFailed (path : String) (m : FsMem) (error : String) (m' : FsMem) : Prop where
  | notFound (message : error = "File not found") (none : firstSlot (isNamed path) m.disk = none)
      (same : Same m m')
  | notEmpty (message : error = "Directory not empty") (slash : endsWithSlash path = true) (browsed : Browsed m m')

/-- A directory that was not created: it was there, or its entry could not be written. -/
inductive MkdirFailed (path : String) (m : FsMem) (error : String) (m' : FsMem) : Prop where
  | found (message : error = "Directory already exists")
      (lookup : firstSlot (isNamed (FileSystemState.dirPath path)) m.disk ≠ none) (same : Same m m')
  | write (same : ∃ m₁, Same m m₁ ∧ WriteFailed (FileSystemState.dirPath path) (asBytes "DIR") m₁ error m')

namespace FileSystemState

section

variable {m : FsMem} (ready : Ready m) (path : String)
include ready path

theorem checkChildren_spec :
    wp (checkChildren path) (fun _ m' => Browsed m m')
      (fun e m' => e = "Directory not empty" ∧ endsWithSlash path = true ∧ Browsed m m') m := by
  unfold checkChildren
  split
  · rename_i slash
    rw [wp_bind]
    apply wp_imp (listDir_spec ready path)
    intro files m₁ browsed
    split
    · exact browsed
    · exact ⟨rfl, slash, browsed⟩
  · exact Browsed.refl ready.coherent

theorem remove_spec : wp (remove path) (fun _ m' => ∃ slot, Removed path slot m m') (RemoveFailed path m) m := by
  rw [remove, wp_bind]
  apply wp_imp (onDevice_read (findEntryPos_spec ready.reliable path))
  rintro _ _ ⟨rfl, same⟩
  cases lookup : firstSlot (isNamed path) m.dev.disk with
  | none => exact .notFound rfl lookup same
  | some slot =>
    have looked := same.browsed ready
    simp only [wp_bind]
    apply wp_mono (checkChildren_spec (looked.ready ready) path)
    · intro _ m₂ checked
      have browsed := looked.trans checked
      have ready₂ := browsed.ready ready
      rw [onCache, wp_zoom]
      apply wp_mono (BufferCache.modifyBlock_spec ready₂.coherent ready₂.reliable slot.sector _) _
        (fun _ _ failure => failure)
      rintro _ mem ⟨view, traffic⟩
      have ready₃ : Ready (m₂.setMem mem) := ⟨traffic.coherent, traffic.reliable ready₂.reliable, ready₂.reserved⟩
      apply wp_imp (cacheSync_spec ready₃)
      rintro _ _ ⟨synced, same₄, bitmap, dirty, cached⟩
      refine ⟨slot, lookup, synced, ?_, ?_, ?_, ?_⟩
      · rw [same₄, ← browsed.view]
        exact view
      · rw [bitmap, bitmapCache_setMem, browsed.bitmap]
      · rw [dirty, bitmapDirty_setMem, browsed.dirty]
      · intro s present
        rcases traffic.cached s ((cached s).mp present) with old | new
        · exact browsed.traffic.cached s old
        · have here : s = slot.sector := by simpa using new
          exact Or.inr (here ▸ mem_dirSectors.mpr slot.sector_bounds)
    · rintro e m₂ ⟨rfl, slash, checked⟩
      exact .notEmpty rfl slash (looked.trans checked)

/-- **`mkdir`.** A directory is a file of three bytes whose name ends with a slash. -/
theorem mkdir_spec :
    wp (mkdir path)
      (fun _ m' => firstSlot (isNamed (dirPath path)) m.disk = none ∧
        ∃ slot blocks, Written (dirPath path) (asBytes "DIR") slot blocks m m')
      (MkdirFailed path m) m := by
  rw [mkdir, wp_bind]
  apply wp_imp (onDevice_read (findEntryPos_spec ready.reliable _))
  rintro found m₁ ⟨rfl, same⟩
  cases lookup : firstSlot (isNamed (dirPath path)) m.dev.disk with
  | some slot => exact .found rfl (by rw [disk, lookup]; simp) same
  | none =>
    apply wp_mono (writeFile_spec (same.ready ready) _ _)
    · rintro _ m₂ ⟨slot, blocks, written⟩
      exact ⟨lookup, slot, blocks, same.written ready written⟩
    · intro e m₂ failed
      exact .write ⟨m₁, same, failed⟩

end

/-! ## When the calls return -/

/-- A write returns when there is a place for its entry and there are blocks enough. -/
theorem writeFile_returns {m : FsMem} (ready : Ready m) {name : String} {data : List UInt8}
    (place : selectSlot m.disk name ≠ none) (room : blocksFor data.length ≤ freeCount m.fs.bitmapCache) :
    ∃ m' slot blocks, writeFile name data m = .ok () m' ∧ Written name data slot blocks m m' := by
  have spec := writeFile_spec ready name data
  cases run : writeFile name data m with
  | ok _ m' =>
    obtain ⟨slot, blocks, written⟩ := wp_of_ok spec run
    exact ⟨m', slot, blocks, rfl, written⟩
  | error e m' =>
    cases wp_of_error spec run with
    | rootDirFull _ none _ => exact absurd none place
    | diskFull _ _ short _ _ _ => omega

theorem mkdir_returns {m : FsMem} (ready : Ready m) {path : String}
    (absent : firstSlot (isNamed (dirPath path)) m.disk = none)
    (place : firstSlot (fun e => !e.used) m.disk ≠ none) (room : 0 < freeCount m.fs.bitmapCache) :
    ∃ m' slot blocks, mkdir path m = .ok () m' ∧ Written (dirPath path) (asBytes "DIR") slot blocks m m' := by
  have spec := mkdir_spec ready path
  cases run : mkdir path m with
  | ok _ m' =>
    obtain ⟨-, slot, blocks, written⟩ := wp_of_ok spec run
    exact ⟨m', slot, blocks, rfl, written⟩
  | error e m' =>
    cases wp_of_error spec run with
    | found _ lookup _ => exact absurd absent lookup
    | write failed =>
      obtain ⟨m₁, same, failed⟩ := failed
      have disk : m₁.disk = m.disk := same.dev.disk
      have one : blocksFor (asBytes "DIR").length = 1 := by decide
      cases failed with
      | rootDirFull _ none _ =>
        rw [disk, selectSlot, absent] at none
        exact absurd none place
      | diskFull _ _ short _ _ _ =>
        rw [same.fs] at short
        omega

theorem remove_returns {m : FsMem} (ready : Ready m) {path : String} {slot : Slot}
    (found : firstSlot (isNamed path) m.disk = some slot) (file : endsWithSlash path = false) :
    ∃ m', remove path m = .ok () m' ∧ Removed path slot m m' := by
  have spec := remove_spec ready path
  cases run : remove path m with
  | ok _ m' =>
    obtain ⟨t, removed⟩ := wp_of_ok spec run
    obtain rfl : t = slot := Option.some.inj (removed.found.symm.trans found)
    exact ⟨m', rfl, removed⟩
  | error e m' =>
    cases wp_of_error spec run with
    | notFound _ none _ =>
      rw [found] at none
      cases none
    | notEmpty _ slash _ =>
      rw [file] at slash
      cases slash

end FileSystemState

end HavyOs.Fs
