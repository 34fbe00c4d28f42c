import HavyOs.Fs.BlockDev
import Mathlib.Algebra.Group.Nat.Defs
import Mathlib.Data.List.MinMax
import Std.Data.TreeMap

/-!
# The write-back block cache

`BufferCache` of `lock/state/fs.rs`: at most 64 sectors held in memory, written
to the device when they are evicted or synced. `view` is what a client of the
cache sees, the cached copy of a sector where there is one and the device's
sector elsewhere. The cache is transparent: its own traffic never changes the
view (`Kept`), and a client's write changes it at one sector.

An in-place edit through `read_mut` sets the data first and the dirty flag with a
separate call, so `Coherent` (a clean copy equals its sector) is only restored by
`mark_dirty`; the two together are `edit_mark`.
-/

namespace HavyOs.Fs

open HavyOs.Lib Function

def cacheMaxBlocks : Nat := 64

structure CacheEntry where
  data : Block
  dirty : Bool
  lastAccess : Nat

structure BufferCache where
  blocks : Std.TreeMap Nat CacheEntry
  hits : Nat
  misses : Nat
  writebacks : Nat

def BufferCache.new : BufferCache := ⟨∅, 0, 0, 0⟩

/-- What a cache call runs on: the cache, the device it is handed, and the global
`CACHE_ACCESS_COUNTER`. -/
structure CacheMem where
  cache : BufferCache
  dev : BlockDev
  counter : Nat

abbrev CacheM := EStateM String CacheMem

variable (m : CacheMem) (sector : Nat)

namespace CacheMem

/-- The view of the device through the cache. -/
def view : Block :=
  match m.cache.blocks[sector]? with
  | some entry => entry.data
  | none => m.dev.disk sector

def put (entry : CacheEntry) : CacheMem :=
  { m with cache := { m.cache with blocks := m.cache.blocks.insert sector entry } }

def drop : CacheMem :=
  { m with cache := { m.cache with blocks := m.cache.blocks.erase sector } }

def addHit : CacheMem := { m with cache := { m.cache with hits := m.cache.hits + 1 } }

def addMiss : CacheMem := { m with cache := { m.cache with misses := m.cache.misses + 1 } }

def addWriteback : CacheMem := { m with cache := { m.cache with writebacks := m.cache.writebacks + 1 } }

/-- `CACHE_ACCESS_COUNTER` after a `fetch_add(1)` on 64 bits. -/
def ticked : CacheMem := { m with counter := (m.counter + 1) % 2 ^ 64 }

end CacheMem

namespace BufferCache

/-- `CACHE_ACCESS_COUNTER.fetch_add(1)`. -/
def tick : CacheM Nat := do
  let m ← get
  set m.ticked
  pure m.counter

def onDev {α : Type} (x : EStateM String BlockDev α) : CacheM α :=
  zoom CacheMem.dev (fun dev m => { m with dev := dev }) x

/-- `entry.touch()` on the entry of `sector`. -/
def touch : CacheM Unit := do
  let now ← tick
  modify fun m => match m.cache.blocks[sector]? with
    | some entry => m.put sector { entry with lastAccess := now }
    | none => m

/-- `self.blocks.insert(sector, CacheEntry::new(data))`, dirty or not. -/
def insertNew (data : Block) (dirty : Bool) : CacheM Unit := do
  let now ← tick
  modify fun m => m.put sector ⟨data, dirty, now⟩

/-- The sector `min_by_key` selects: the first of the oldest entries in key order. -/
def lruSector (blocks : Std.TreeMap Nat CacheEntry) : Option Nat :=
  (blocks.toList.argmin fun p => p.2.lastAccess).map Prod.fst

def evictLru : CacheM Unit := do
  let m ← get
  match lruSector m.cache.blocks with
  | none => pure ()
  | some sector =>
    match m.cache.blocks[sector]? with
    | some entry =>
      if entry.dirty then
        onDev (BlockDev.writeSector sector entry.data)
        modify CacheMem.addWriteback
    | none => pure ()
    modify (CacheMem.drop · sector)

def makeRoom : CacheM Unit := do
  let m ← get
  if cacheMaxBlocks ≤ m.cache.blocks.size then evictLru

/-- The miss path, the same in `read` and `read_mut`: the sector is read before anything
is evicted. -/
def fill : CacheM Block := do
  modify CacheMem.addMiss
  let data ← onDev (BlockDev.readSector sector)
  makeRoom
  insertNew sector data false
  pure data

def read : CacheM Block := do
  let m ← get
  match m.cache.blocks[sector]? with
  | some entry =>
    modify CacheMem.addHit
    touch sector
    pure entry.data
  | none => fill sector

/-- `BufferCache::read_mut`; the returned block is what the reference points at. -/
def readMut : CacheM Block := do
  let m ← get
  match m.cache.blocks[sector]? with
  | none => let _ ← fill sector
  | some _ => modify CacheMem.addHit
  touch sector
  let m ← get
  pure (m.view sector)

/-- An assignment through the reference that `read_mut` returned. -/
def edit (f : Block → Block) : CacheM Unit :=
  modify fun m => match m.cache.blocks[sector]? with
    | some entry => m.put sector { entry with data := f entry.data }
    | none => m

/-- `write`, once there is room. -/
def overwrite (data : Block) : CacheM Unit := do
  let m ← get
  match m.cache.blocks[sector]? with
  | some entry =>
    set (m.put sector { entry with data := data, dirty := true })
    touch sector
  | none => insertNew sector data true

def write (data : Block) : CacheM Unit := do
  let m ← get
  if !m.cache.blocks.contains sector then makeRoom
  overwrite sector data

def markDirty : CacheM Unit :=
  modify fun m => match m.cache.blocks[sector]? with
    | some entry => m.put sector { entry with dirty := true }
    | none => m

/-- Write one entry back if it is dirty; whether it was. -/
def flushEntry : CacheM Bool := do
  let m ← get
  match m.cache.blocks[sector]? with
  | some entry =>
    if entry.dirty then
      onDev (BlockDev.writeSector sector entry.data)
      modify fun m => (m.put sector { entry with dirty := false }).addWriteback
      pure true
    else pure false
  | none => pure false

/-- The loop of `BufferCache::sync` over the sectors still ahead. -/
def syncFrom (count : Nat) : List Nat → CacheM Nat
  | [] => pure count
  | sector :: rest => do
    let flushed ← flushEntry sector
    syncFrom (if flushed then count + 1 else count) rest

/-- `BufferCache::sync`: `iter_mut` visits the sectors in ascending order. -/
def sync : CacheM Nat := do
  let m ← get
  syncFrom 0 m.cache.blocks.keys

def syncBlock : CacheM Bool := flushEntry sector

def clear : CacheM Unit := do
  let _ ← sync
  modify fun m => { m with cache := { m.cache with blocks := ∅ } }

def invalidate : CacheM Unit := modify (CacheMem.drop · sector)

end BufferCache

/-! ## Coherence and the view -/

namespace CacheMem

def Cached : Prop := sector ∈ m.cache.blocks

def size : Nat := m.cache.blocks.size

/-- The cache keeps its bound, and a clean copy equals the device's sector. -/
structure Coherent (m : CacheMem) : Prop where
  bounded : m.size ≤ cacheMaxBlocks
  clean : ∀ (sector : Nat) (entry : CacheEntry), m.cache.blocks[sector]? = some entry → entry.dirty = false →
    entry.data = m.dev.disk sector

/-- `sector` waits to be written back. -/
def Dirty : Prop :=
  ∃ entry, m.cache.blocks[sector]? = some entry ∧ entry.dirty = true

def Clean : Prop := ∀ sector, ¬ m.Dirty sector

variable {m : CacheMem} {sector : Nat}

theorem view_of_cached {entry : CacheEntry} (h : m.cache.blocks[sector]? = some entry) :
    m.view sector = entry.data := by
  simp only [view, h]

theorem view_of_uncached (h : m.cache.blocks[sector]? = none) : m.view sector = m.dev.disk sector := by
  simp only [view, h]

theorem cached_iff : m.Cached sector ↔ ∃ entry, m.cache.blocks[sector]? = some entry := by
  simp only [Cached, Std.TreeMap.mem_iff_isSome_getElem?, Option.isSome_iff_exists]

theorem not_cached_iff : ¬ m.Cached sector ↔ m.cache.blocks[sector]? = none := by
  simp only [Cached, Std.TreeMap.mem_iff_isSome_getElem?, Bool.not_eq_true, Option.isSome_eq_false_iff,
    Option.isNone_iff_eq_none]

theorem Coherent.view_eq_disk (h : Coherent m) (clean : Clean m) : m.view = m.dev.disk := by
  funext sector
  cases cached : m.cache.blocks[sector]? with
  | none => exact view_of_uncached cached
  | some entry =>
    rw [view_of_cached cached]
    exact h.clean sector entry cached (Bool.eq_false_iff.mpr fun dirty => clean sector ⟨entry, cached, dirty⟩)

@[simp] theorem put_dev (m : CacheMem) (sector : Nat) (entry : CacheEntry) : (m.put sector entry).dev = m.dev := rfl

theorem put_getElem? (m : CacheMem) (sector : Nat) (entry : CacheEntry) (s : Nat) :
    (m.put sector entry).cache.blocks[s]? = if s = sector then some entry else m.cache.blocks[s]? := by
  simp only [put, Std.TreeMap.getElem?_insert, Nat.compare_eq_eq, @eq_comm Nat sector s]

theorem put_view (m : CacheMem) (sector : Nat) (entry : CacheEntry) :
    (m.put sector entry).view = update m.view sector entry.data := by
  funext s
  simp only [view, put_getElem?, put_dev, update_apply]
  by_cases same : s = sector
  · simp only [same, if_true]
  · simp only [same, if_false]

theorem put_cached (m : CacheMem) (sector : Nat) (entry : CacheEntry) (s : Nat) :
    (m.put sector entry).Cached s ↔ s = sector ∨ m.Cached s := by
  simp only [cached_iff, put_getElem?]
  by_cases same : s = sector <;> simp [same]

theorem put_size_of_cached (h : m.Cached sector) (entry : CacheEntry) : (m.put sector entry).size = m.size := by
  have present : m.cache.blocks.contains sector = true := Std.TreeMap.contains_iff_mem.mpr h
  simp only [size, put, Std.TreeMap.size_insert, present, if_true]

theorem put_size_of_uncached (h : ¬ m.Cached sector) (entry : CacheEntry) : (m.put sector entry).size = m.size + 1 := by
  have absent : m.cache.blocks.contains sector = false := by
    simpa only [Bool.not_eq_true] using mt Std.TreeMap.contains_iff_mem.mp h
  simp [size, put, Std.TreeMap.size_insert, absent]

/-- Cache traffic: the client's view stays, and the device changes only by taking over
sectors of the view. -/
structure Kept (m m' : CacheMem) : Prop where
  coherent : Coherent m'
  view : m'.view = m.view
  fails : m'.dev.fails = m.dev.fails
  disk : ∀ s, m'.dev.disk s = m.dev.disk s ∨ m'.dev.disk s = m.view s

variable (h : Coherent m)

include h

theorem Kept.refl : Kept m m := ⟨h, rfl, rfl, fun _ => .inl rfl⟩

omit h in
theorem Kept.taken {a b : CacheMem} (h : Kept a b) {s : Nat} {block : Block}
    (later : block = b.dev.disk s ∨ block = b.view s) : block = a.dev.disk s ∨ block = a.view s := by
  rw [h.view] at later
  rcases later with rfl | taken
  · exact h.disk s
  · exact .inr taken

omit h in
theorem Kept.trans {a b c : CacheMem} (h : Kept a b) (k : Kept b c) : Kept a c := by
  exact ⟨k.coherent, k.view.trans h.view, k.fails.trans h.fails, fun s => h.taken (k.disk s)⟩

theorem Kept.of_same {m' : CacheMem} (blocks : m'.cache.blocks = m.cache.blocks)
    (disk : m'.dev.disk = m.dev.disk) (fails : m'.dev.fails = m.dev.fails) : Kept m m' := by
  refine ⟨⟨?_, ?_⟩, ?_, fails, fun s => .inl (congrFun disk s)⟩
  · simpa only [size, blocks] using h.bounded
  · simpa only [blocks, disk] using h.clean
  · funext s
    simp only [CacheMem.view, blocks, disk]

theorem kept_addHit : Kept m m.addHit := Kept.of_same h rfl rfl rfl

theorem kept_addWriteback : Kept m m.addWriteback := Kept.of_same h rfl rfl rfl

theorem kept_ticked : Kept m m.ticked := Kept.of_same h rfl rfl rfl

end CacheMem

namespace BufferCache

open CacheMem

variable {m : CacheMem} {sector : Nat} {entry : CacheEntry} {a b c : CacheMem}

theorem lruSector_cached (h : lruSector m.cache.blocks = some sector) : m.Cached sector := by
  obtain ⟨⟨s, entry⟩, least, rfl⟩ := Option.map_eq_some_iff.mp h
  exact cached_iff.mpr ⟨entry, Std.TreeMap.mem_toList_iff_getElem?_eq_some.mp (List.argmin_mem least)⟩

theorem erase_getElem? (blocks : Std.TreeMap Nat CacheEntry) (sector s : Nat) :
    (blocks.erase sector)[s]? = if s = sector then none else blocks[s]? := by
  simp only [Std.TreeMap.getElem?_erase, Nat.compare_eq_eq, @eq_comm Nat sector s]

variable (h : Coherent m)

include h

theorem kept_drop (flushed : m.view sector = m.dev.disk sector) : Kept m (m.drop sector) := by
  refine ⟨⟨?_, ?_⟩, ?_, rfl, fun s => .inl rfl⟩
  · have bound := h.bounded
    simp only [size, drop, Std.TreeMap.size_erase] at bound ⊢
    split <;> omega
  · intro s entry cached clean
    simp only [drop, erase_getElem?] at cached
    split_ifs at cached
    exact h.clean s entry cached clean
  · funext s
    simp only [view, drop, erase_getElem?]
    by_cases same : s = sector
    · subst same
      simpa only [view, if_true] using flushed.symm
    · simp only [same, if_false]

/-- The failure of a cache call: some device command was refused, and the view stays. -/
def Refused (m : CacheMem) (error : String) (m' : CacheMem) : Prop :=
  error = "IO Error" ∧ Kept m m' ∧ ∃ k, m.dev.fails k = true

/-- Writing a cached block back leaves the cache as it is and the device with the copy. -/
theorem writeBack_spec
    (cached : m.cache.blocks[sector]? = some entry) :
    wp (onDev (BlockDev.writeSector sector entry.data))
      (fun _ m' => Kept m m' ∧ m'.cache = m.cache ∧ m'.dev.disk = update m.dev.disk sector entry.data)
      (Refused m) m := by
  rw [onDev, wp_zoom]
  apply wp_mono (BlockDev.writeSector_spec sector entry.data m.dev)
  · rintro _ dev ⟨disk, fails⟩
    refine ⟨⟨⟨h.bounded, ?_⟩, ?_, fails, fun s => ?_⟩, rfl, disk⟩
    · intro s e present clean
      simp only [disk, update_apply]
      split_ifs with same
      · subst same
        rw [cached] at present
        exact congrArg CacheEntry.data (Option.some.inj present).symm
      · exact h.clean s e present clean
    · funext s
      simp only [view, disk, update_apply]
      by_cases same : s = sector
      · subst same
        simp only [cached]
      · simp only [same, if_false]
    · simp only [disk, update_apply]
      split_ifs with same
      · subst same
        exact .inr (view_of_cached cached).symm
      · exact .inl rfl
  · rintro e dev ⟨rfl, untouched, cause⟩
    exact ⟨rfl, Kept.of_same h rfl untouched.disk untouched.fails, cause⟩

/-- Eviction keeps the view and, in a nonempty cache, frees one place. -/
theorem evictLru_spec :
    wp evictLru (fun _ m' => Kept m m' ∧ m'.size = m.size - 1 ∧ ∀ s, m'.Cached s → m.Cached s) (Refused m) m := by
  simp only [evictLru, wp_bind, wp_get]
  cases choice : lruSector m.cache.blocks with
  | none =>
    have empty := List.argmin_eq_none.mp (Option.map_eq_none_iff.mp choice)
    exact ⟨Kept.refl h, by rw [size, ← Std.TreeMap.length_toList, empty, List.length_nil], fun _ cached => cached⟩
  | some sector =>
    obtain ⟨entry, cached⟩ := cached_iff.mp (lruSector_cached choice)
    have shrink : (m.cache.blocks.erase sector).size = m.size - 1 := by
      have present : m.cache.blocks.contains sector = true :=
        Std.TreeMap.contains_iff_mem.mpr (lruSector_cached choice)
      simp only [Std.TreeMap.size_erase, present, if_true, size]
    have fewer : ∀ (m' : CacheMem) s, m'.cache.blocks = m.cache.blocks.erase sector → m'.Cached s → m.Cached s := by
      intro m' s blocks present
      obtain ⟨e, present⟩ := cached_iff.mp present
      rw [blocks, erase_getElem?] at present
      split_ifs at present
      exact cached_iff.mpr ⟨e, present⟩
    simp only [cached]
    by_cases dirty : entry.dirty = true
    · simp only [dirty, if_true, wp_bind]
      apply wp_imp (writeBack_spec h cached)
      rintro _ m₁ ⟨kept, cache, disk⟩
      have flushed : m₁.view sector = m₁.dev.disk sector := by
        rw [kept.view, view_of_cached cached, disk, update_self]
      have counted := kept_addWriteback kept.coherent
      refine ⟨(kept.trans counted).trans (kept_drop counted.coherent flushed), ?_, fun s => fewer _ s ?_⟩
      · simpa only [size, drop, addWriteback, cache] using shrink
      · simp only [drop, addWriteback, cache]
    · simp only [dirty]
      have flushed : m.view sector = m.dev.disk sector := by
        rw [view_of_cached cached, h.clean sector entry cached (by simpa using dirty)]
      exact ⟨kept_drop h flushed, shrink, fun s => fewer _ s rfl⟩

theorem makeRoom_spec :
    wp makeRoom
      (fun _ m' => Kept m m' ∧ m'.size < cacheMaxBlocks ∧ m'.size ≤ m.size ∧ (∀ s, m'.Cached s → m.Cached s) ∧
        (m.size < cacheMaxBlocks → m' = m))
      (Refused m) m := by
  simp only [makeRoom, wp_bind, wp_get]
  split_ifs with full
  · apply wp_imp (evictLru_spec h)
    rintro _ m' ⟨kept, shrink, fewer⟩
    have bound := h.bounded
    have some : 0 < cacheMaxBlocks := by decide
    simp only [size] at bound shrink ⊢
    exact ⟨kept, by omega, by omega, fewer, fun room => by omega⟩
  · exact ⟨Kept.refl h, by simpa only [size, not_le] using full, Nat.le_refl _, fun _ cached => cached, fun _ => rfl⟩

/-- An entry with what the view holds already, clean only if the device has it. -/
theorem kept_put (bounded : (m.put sector entry).size ≤ cacheMaxBlocks) (same : entry.data = m.view sector)
    (own : entry.dirty = false → entry.data = m.dev.disk sector) : Kept m (m.put sector entry) := by
  refine ⟨⟨bounded, fun s e found clean => ?_⟩, by rw [put_view, same, update_eq_self], rfl, fun _ => .inl rfl⟩
  rw [put_getElem?] at found
  split at found
  · rename_i at_sector
    cases found
    rw [at_sector]
    exact own clean
  · exact h.clean s e found clean

/-- What loading a sector does: it is cached afterwards, the view stays, and with the
sector present or a place free the device is left alone. -/
structure Loaded (sector : Nat) (m m' : CacheMem) : Prop where
  kept : Kept m m'
  cached : m'.Cached sector
  only : ∀ s, m'.Cached s → m.Cached s ∨ s = sector
  size : m'.size ≤ m.size + 1
  quiet : m.Cached sector ∨ m.size < cacheMaxBlocks → m'.dev.disk = m.dev.disk

theorem loaded_put
    (absent : ¬ m.Cached sector) (room : m.size < cacheMaxBlocks) (data : entry.data = m.dev.disk sector) :
    Loaded sector m (m.put sector entry) := by
  have same : m.view sector = m.dev.disk sector := view_of_uncached (not_cached_iff.mp absent)
  refine ⟨kept_put h ?_ (data.trans same.symm) fun _ => data, ?_, ?_, ?_, fun _ => rfl⟩
  · rw [put_size_of_uncached absent]
    exact room
  · exact (put_cached m sector entry sector).mpr (.inl rfl)
  · intro s cached
    exact ((put_cached m sector entry s).mp cached).symm
  · rw [put_size_of_uncached absent]

theorem fill_spec (absent : ¬ m.Cached sector) :
    wp (fill sector) (fun data m' => data = m.view sector ∧ Loaded sector m m') (Refused m) m := by
  have same : m.view sector = m.dev.disk sector := view_of_uncached (not_cached_iff.mp absent)
  simp only [fill, wp_bind, onDev, wp_zoom]
  apply wp_mono (BlockDev.readSector_spec sector m.dev)
  · rintro data dev ⟨rfl, untouched⟩
    have read : Kept m { m.addMiss with dev := dev } := Kept.of_same h rfl untouched.disk untouched.fails
    apply wp_mono (makeRoom_spec read.coherent)
    · rintro _ m₂ ⟨kept, room, smaller, fewer, unneeded⟩
      refine ⟨same.symm, ?_⟩
      have here : ¬ m₂.Cached sector := fun cached => absent (fewer sector cached)
      have both := read.trans kept
      have data : m.dev.disk sector = m₂.dev.disk sector := by
        rw [← same, ← view_of_uncached (not_cached_iff.mp here), both.view]
      have ticked := kept_ticked both.coherent
      have put : Loaded sector m₂.ticked (m₂.ticked.put sector ⟨m.dev.disk sector, false, m₂.counter⟩) :=
        loaded_put ticked.coherent here room data
      refine ⟨(both.trans ticked).trans put.kept, put.cached, ?_, ?_, ?_⟩
      · intro s cached
        rcases put.only s cached with old | new
        · exact .inl (fewer s old)
        · exact .inr new
      · exact Nat.le_trans put.size (Nat.add_le_add_right smaller 1)
      · intro spare
        rcases spare with cached | room
        · exact absurd cached absent
        · rw [unneeded room]
          exact untouched.disk
    · rintro e m₂ ⟨rfl, kept, cause⟩
      exact ⟨rfl, read.trans kept, by rw [← untouched.fails]; exact cause⟩
  · rintro e dev ⟨rfl, untouched, cause⟩
    exact ⟨rfl, Kept.of_same h rfl untouched.disk untouched.fails, cause⟩

omit h in
theorem loaded_of_cached {m' : CacheMem} (kept : Kept m m') (cached : m.Cached sector)
    (same : ∀ s, m'.Cached s ↔ m.Cached s) (size : m'.size = m.size) (disk : m'.dev.disk = m.dev.disk) :
    Loaded sector m m' :=
  ⟨kept, (same sector).mpr cached, fun s h => .inl ((same s).mp h), by omega, fun _ => disk⟩

/-- A client's write: the view changes at `sector` only, and the device as under traffic. -/
structure Stored (sector : Nat) (data : Block) (m m' : CacheMem) : Prop where
  coherent : Coherent m'
  view : m'.view = Function.update m.view sector data
  fails : m'.dev.fails = m.dev.fails
  disk : ∀ s, m'.dev.disk s = m.dev.disk s ∨ m'.dev.disk s = m.view s
  only : ∀ s, m'.Cached s → m.Cached s ∨ s = sector
  size : m'.size ≤ m.size + 1
  quiet : m.Cached sector ∨ m.size < cacheMaxBlocks → m'.dev.disk = m.dev.disk

omit h in
theorem Loaded.stored (h : Loaded sector a b) : Stored sector (a.view sector) a b :=
  ⟨h.kept.coherent, by rw [h.kept.view, update_eq_self], h.kept.fails, h.kept.disk, h.only, h.size, h.quiet⟩

omit h in
/-- A second write to a sector that is cached by the first. -/
theorem Stored.trans {first second : Block} (h : Stored sector first a b) (k : Stored sector second b c)
    (present : b.Cached sector) (sizes : c.size = b.size) : Stored sector second a c := by
  have disk := k.quiet (.inl present)
  refine ⟨k.coherent, by rw [k.view, h.view, update_idem], k.fails.trans h.fails, fun s => ?_, fun s cached => ?_,
    sizes.le.trans h.size, fun spare => disk.trans (h.quiet spare)⟩
  · rw [disk]
    exact h.disk s
  · exact (k.only s cached).elim (h.only s) .inr

omit h in
theorem Loaded.after (h : Loaded sector a b) (k : Loaded sector b c) (sizes : c.size = b.size) : Loaded sector a c := by
  have both := h.stored.trans k.stored h.cached sizes
  exact ⟨h.kept.trans k.kept, k.cached, both.only, both.size, both.quiet⟩

theorem loaded_replace {old : CacheEntry}
    (cached : m.cache.blocks[sector]? = some old) (data : entry.data = old.data)
    (dirty : entry.dirty = false → old.dirty = false) : Loaded sector m (m.put sector entry) := by
  have present : m.Cached sector := cached_iff.mpr ⟨old, cached⟩
  apply loaded_of_cached _ present _ (put_size_of_cached present entry) rfl
  · refine kept_put h ?_ (data.trans (view_of_cached cached).symm) fun clean => ?_
    · rw [put_size_of_cached present]
      exact h.bounded
    · rw [data]
      exact h.clean sector old cached (dirty clean)
  · intro s
    rw [put_cached]
    exact or_iff_right_of_imp fun at_sector => at_sector ▸ present

theorem touch_spec (present : m.Cached sector)
    {E : String → CacheMem → Prop} : wp (touch sector) (fun _ m' => Loaded sector m m' ∧ m'.size = m.size) E m := by
  obtain ⟨entry, cached⟩ := cached_iff.mp present
  simp only [touch, tick, wp_bind, wp_get, wp_set, wp_pure, wp_modify]
  have here : m.ticked.cache.blocks[sector]? = some entry := cached
  simp only [here]
  have ticked := kept_ticked h
  have replaced : Loaded sector m.ticked (m.ticked.put sector { entry with lastAccess := m.counter }) :=
    loaded_replace ticked.coherent here rfl id
  have size : (m.ticked.put sector { entry with lastAccess := m.counter }).size = m.size :=
    put_size_of_cached present _
  exact ⟨Loaded.after (loaded_of_cached ticked present (fun _ => Iff.rfl) rfl rfl) replaced size, size⟩

theorem read_spec (sector : Nat) :
    wp (read sector) (fun data m' => data = m.view sector ∧ Loaded sector m m') (Refused m) m := by
  simp only [read, wp_bind, wp_get]
  cases cached : m.cache.blocks[sector]? with
  | none => exact fill_spec h (not_cached_iff.mpr cached)
  | some entry =>
    have present : m.Cached sector := cached_iff.mpr ⟨entry, cached⟩
    simp only [wp_bind, wp_modify]
    have hit := kept_addHit h
    apply wp_imp (touch_spec hit.coherent present)
    rintro _ m' ⟨loaded, size⟩
    exact ⟨(view_of_cached cached).symm,
      Loaded.after (loaded_of_cached hit present (fun _ => Iff.rfl) rfl rfl) loaded size⟩

theorem readMut_spec (sector : Nat) :
    wp (readMut sector) (fun data m' => data = m.view sector ∧ Loaded sector m m') (Refused m) m := by
  have finish : ∀ m₁, Loaded sector m m₁ → wp (touch sector)
      (fun _ m' => wp (get >>= fun m => pure (m.view sector)) (fun data m' => data = m.view sector ∧ Loaded sector m m')
        (Refused m) m') (Refused m) m₁ := by
    intro m₁ loaded
    apply wp_imp (touch_spec loaded.kept.coherent loaded.cached)
    rintro _ m' ⟨again, size⟩
    exact ⟨by rw [again.kept.view, loaded.kept.view], loaded.after again size⟩
  simp only [readMut, wp_bind, wp_get]
  cases cached : m.cache.blocks[sector]? with
  | none =>
    simp only [wp_bind]
    apply wp_imp (fill_spec h (not_cached_iff.mpr cached))
    rintro _ m₁ ⟨-, loaded⟩
    simpa only [wp_bind] using finish m₁ loaded
  | some entry =>
    have present : m.Cached sector := cached_iff.mpr ⟨entry, cached⟩
    simp only [wp_bind, wp_modify]
    have hit := kept_addHit h
    simpa only [wp_bind] using finish _ (loaded_of_cached hit present (fun _ => Iff.rfl) rfl rfl)

theorem stored_of_entry {m' : CacheMem}
    (blocks : ∀ s : Nat, m'.cache.blocks[s]? = if s = sector then some entry else m.cache.blocks[s]?)
    (dirty : entry.dirty = true) (dev : m'.dev = m.dev) (size : m'.size ≤ m.size + 1)
    (bounded : m'.size ≤ cacheMaxBlocks) :
    Stored sector entry.data m m' := by
  refine ⟨⟨bounded, ?_⟩, ?_, by rw [dev], fun _ => .inl (by rw [dev]), ?_, size, fun _ => by rw [dev]⟩
  · intro s e found clean
    rw [blocks] at found
    split at found
    · cases found
      cases dirty.symm.trans clean
    · rw [dev]
      exact h.clean s e found clean
  · funext s
    simp only [view, blocks, dev, update_apply]
    by_cases same : s = sector <;> simp only [same, if_true, if_false]
  · intro s cached
    obtain ⟨e, found⟩ := cached_iff.mp cached
    rw [blocks] at found
    split at found
    · exact .inr ‹_›
    · exact .inl (cached_iff.mpr ⟨e, found⟩)

/-- An edit through the reference, then `mark_dirty`: the edit is in the view, the sector
dirty, and the device untouched. -/
theorem edit_mark_spec (present : m.Cached sector) (f : Block → Block)
    {E : String → CacheMem → Prop} :
    wp (edit sector f >>= fun _ => markDirty sector)
      (fun _ m' => Stored sector (f (m.view sector)) m m' ∧ m'.size = m.size ∧ m'.dev = m.dev) E m := by
  obtain ⟨entry, cached⟩ := cached_iff.mp present
  simp only [wp_bind, edit, markDirty, wp_modify, cached, put_getElem?]
  have again : (m.put sector { entry with data := f entry.data }).Cached sector :=
    (put_cached m sector _ sector).mpr (.inl rfl)
  have size := (put_size_of_cached again { entry with data := f entry.data, dirty := true }).trans
    (put_size_of_cached present { entry with data := f entry.data })
  rw [view_of_cached cached]
  have blocks : ∀ s : Nat, ((m.put sector { entry with data := f entry.data }).put sector
      { entry with data := f entry.data, dirty := true }).cache.blocks[s]? =
      if s = sector then some { entry with data := f entry.data, dirty := true } else m.cache.blocks[s]? := by
    intro s
    rw [put_getElem?, put_getElem?]
    split <;> rfl
  exact ⟨stored_of_entry h blocks rfl rfl (Nat.le_succ_of_le size.le) (size.le.trans h.bounded), size, rfl⟩

theorem write_spec (sector : Nat) (data : Block) :
    wp (write sector data) (fun _ m' => Stored sector data m m') (Refused m) m := by
  simp only [write, overwrite, wp_bind, wp_get]
  cases cached : m.cache.blocks[sector]? with
  | some entry =>
    have present : m.Cached sector := cached_iff.mpr ⟨entry, cached⟩
    have contained : m.cache.blocks.contains sector = true := Std.TreeMap.contains_iff_mem.mpr present
    simp only [contained, Bool.not_true, Bool.false_eq_true, if_false, wp_get, cached, wp_bind, wp_set]
    have size := put_size_of_cached present { entry with data := data, dirty := true }
    have stored : Stored sector data m (m.put sector { entry with data := data, dirty := true }) :=
      stored_of_entry h (put_getElem? m sector _) rfl rfl (Nat.le_succ_of_le size.le) (size.le.trans h.bounded)
    have here := (put_cached m sector { entry with data := data, dirty := true } sector).mpr (.inl rfl)
    apply wp_imp (touch_spec stored.coherent here)
    rintro _ m' ⟨touched, same⟩
    have both := stored.trans touched.stored here same
    rwa [stored.view, update_self] at both
  | none =>
    have absent := not_cached_iff.mpr cached
    have contained : m.cache.blocks.contains sector = false := by
      simpa only [Bool.not_eq_true] using mt Std.TreeMap.contains_iff_mem.mp absent
    simp only [contained, Bool.not_false, if_true, wp_bind]
    apply wp_imp (makeRoom_spec h)
    rintro _ m₁ ⟨kept, room, smaller, fewer, unneeded⟩
    have here : ¬ m₁.Cached sector := fun present => absent (fewer sector present)
    simp only [not_cached_iff.mp here, wp_get]
    have size := put_size_of_uncached here ⟨data, true, m₁.counter⟩
    have stored : Stored sector data m₁ (m₁.ticked.put sector ⟨data, true, m₁.counter⟩) :=
      stored_of_entry kept.coherent (put_getElem? m₁.ticked sector _) rfl rfl size.le (size.le.trans room)
    refine ⟨stored.coherent, by rw [stored.view, kept.view], stored.fails.trans kept.fails, fun s =>
      kept.taken (stored.disk s),
      fun s cached => ?_, ?_, fun spare => ?_⟩
    · exact (stored.only s cached).imp_left (fewer s)
    · exact stored.size.trans (Nat.add_le_add_right smaller 1)
    · rcases spare with present | spare
      · exact absurd present absent
      · rw [unneeded spare]
        rfl

/-- Writing back some sectors: the cached sectors stay, and those of `done` are clean. -/
structure Flushed (done : List Nat) (m m' : CacheMem) : Prop where
  kept : Kept m m'
  cached : ∀ s, m'.Cached s ↔ m.Cached s
  size : m'.size = m.size
  dirty : ∀ s, m'.Dirty s → m.Dirty s ∧ s ∉ done

theorem Flushed.refl {done : List Nat} (clean : ∀ s ∈ done, ¬ m.Dirty s) : Flushed done m m :=
  ⟨Kept.refl h, fun _ => Iff.rfl, rfl, fun s dirty => ⟨dirty, fun member => clean s member dirty⟩⟩

theorem flushEntry_spec (sector : Nat) :
    wp (flushEntry sector) (fun _ m' => Flushed [sector] m m') (Refused m) m := by
  simp only [flushEntry, wp_bind, wp_get]
  cases cached : m.cache.blocks[sector]? with
  | none =>
    refine Flushed.refl h fun s member dirty => ?_
    obtain ⟨entry, present, -⟩ := dirty
    rw [List.mem_singleton.mp member, cached] at present
    cases present
  | some entry =>
    by_cases dirty : entry.dirty = true
    · simp only [dirty, if_true, wp_bind]
      apply wp_imp (writeBack_spec h cached)
      rintro _ m₁ ⟨kept, cache, disk⟩
      have here : m₁.cache.blocks[sector]? = some entry := by rw [cache]; exact cached
      have present₁ : m₁.Cached sector := cached_iff.mpr ⟨entry, here⟩
      have size := put_size_of_cached present₁ { entry with dirty := false }
      -- the copy is clean now because the device has just taken it over
      have cleaned : Kept m₁ (m₁.put sector { entry with dirty := false }) := by
        refine kept_put kept.coherent (size.le.trans kept.coherent.bounded) (view_of_cached here).symm fun _ => ?_
        rw [disk, update_self]
      refine ⟨(kept.trans cleaned).trans (kept_addWriteback cleaned.coherent), fun s => ?_, ?_, ?_⟩
      · change (m₁.put sector _).Cached s ↔ _
        rw [put_cached, or_iff_right_of_imp fun at_sector => at_sector ▸ present₁, Cached, cache]
        rfl
      · refine Eq.trans size ?_
        rw [CacheMem.size, cache]
        rfl
      · rintro s ⟨e, found, isDirty⟩
        have found : (m₁.put sector { entry with dirty := false }).cache.blocks[s]? = some e := found
        rw [put_getElem?] at found
        split at found
        · cases found
          cases isDirty
        · rw [cache] at found
          exact ⟨⟨e, found, isDirty⟩, by simpa using ‹¬ s = sector›⟩
    · simp only [dirty]
      refine Flushed.refl h fun s member dirty' => ?_
      obtain ⟨e, found, isDirty⟩ := dirty'
      rw [List.mem_singleton.mp member, cached] at found
      cases found
      exact dirty isDirty

omit h in
/-- The loop of `sync`: what it passed is clean, also when it stops halfway. -/
theorem syncFrom_spec : ∀ (ahead : List Nat) (count : Nat) {m : CacheMem}, Coherent m →
    wp (syncFrom count ahead) (fun _ m' => Flushed ahead m m') (Refused m) m := by
  intro ahead
  induction ahead with
  | nil =>
    intro count m h
    exact Flushed.refl h (by simp)
  | cons sector rest ih =>
    intro count m h
    simp only [syncFrom, wp_bind]
    apply wp_imp (flushEntry_spec h sector)
    intro flushed m₁ first
    apply wp_mono (ih _ first.kept.coherent)
    · rintro _ m' later
      refine ⟨first.kept.trans later.kept, fun s => (later.cached s).trans (first.cached s),
        later.size.trans first.size, fun s dirty => ?_⟩
      obtain ⟨dirty₁, notRest⟩ := later.dirty s dirty
      obtain ⟨dirty₀, notHead⟩ := first.dirty s dirty₁
      exact ⟨dirty₀, by simp only [List.mem_cons, not_or]; exact ⟨by simpa using notHead, notRest⟩⟩
    · rintro e m' ⟨rfl, kept, k, cause⟩
      exact ⟨rfl, first.kept.trans kept, k, by rw [← first.kept.fails]; exact cause⟩

/-- A `sync` that returns leaves nothing dirty, so the device holds the view. -/
theorem sync_spec :
    wp sync (fun _ m' => Kept m m' ∧ m'.Clean ∧ (∀ s, m'.Cached s ↔ m.Cached s) ∧ m'.size = m.size) (Refused m) m := by
  apply wp_imp (syncFrom_spec m.cache.blocks.keys 0 h)
  rintro _ m' flushed
  refine ⟨flushed.kept, fun s dirty => ?_, flushed.cached, flushed.size⟩
  obtain ⟨⟨entry, cached, -⟩, passed⟩ := flushed.dirty s dirty
  exact passed (Std.TreeMap.mem_keys.mpr (cached_iff.mpr ⟨entry, cached⟩))

theorem clear_spec : wp clear (fun _ m' => Kept m m') (Refused m) m := by
  simp only [clear, wp_bind]
  apply wp_imp (sync_spec h)
  rintro _ _ ⟨kept, clean, -, -⟩
  have same := kept.coherent.view_eq_disk clean
  refine kept.trans ⟨⟨?_, ?_⟩, ?_, rfl, fun _ => .inl rfl⟩
  · simp [size]
  · simp
  · rw [same]
    funext s
    simp [view]

end BufferCache

/-! ## Transparency over whole runs -/

/-- The calls a client makes. An `edit` is `read_mut`, an assignment through the reference
and `mark_dirty`. -/
inductive CacheOp where
  | read (sector : Nat)
  | edit (sector : Nat) (f : Block → Block)
  | write (sector : Nat) (data : Block)
  | sync
  | syncBlock (sector : Nat)
  | clear

namespace CacheOp

open BufferCache CacheMem

/-- Run one call; reads and edits answer with the block they were given. -/
def exec : CacheOp → CacheM (Option Block)
  | read sector => some <$> BufferCache.read sector
  | edit sector f => do
    let data ← readMut sector
    BufferCache.edit sector f
    markDirty sector
    pure (some data)
  | write sector data => do
    BufferCache.write sector data
    pure none
  | sync => do
    let _ ← BufferCache.sync
    pure none
  | syncBlock sector => do
    let _ ← BufferCache.syncBlock sector
    pure none
  | clear => do
    BufferCache.clear
    pure none

/-- What the call means for the view. -/
def effect : CacheOp → (Nat → Block) → (Nat → Block)
  | edit sector f, view => Function.update view sector (f (view sector))
  | write sector data, view => Function.update view sector data
  | _, view => view

def answer : CacheOp → (Nat → Block) → Option Block
  | read sector, view => some (view sector)
  | edit sector _, view => some (view sector)
  | _, _ => none

/-- What is promised of one call from `m`. -/
structure Transparent (op : CacheOp) (m m' : CacheMem) (result : Option Block) : Prop where
  coherent : Coherent m'
  view : m'.view = op.effect m.view
  answer : result = op.answer m.view
  synced : op = .sync → m'.dev.disk = m'.view

theorem exec_spec (op : CacheOp) {m : CacheMem} (h : Coherent m) :
    wp op.exec (fun result m' => Transparent op m m' result) (fun _ m' => Coherent m' ∧ m'.view = m.view) m := by
  have refused : ∀ e m', Refused m e m' → Coherent m' ∧ m'.view = m.view :=
    fun _ _ failure => ⟨failure.2.1.coherent, failure.2.1.view⟩
  cases op with
  | read sector =>
    simp only [exec, wp_map]
    apply wp_mono (read_spec h sector) _ refused
    rintro _ m' ⟨rfl, loaded⟩
    exact ⟨loaded.kept.coherent, loaded.kept.view, rfl, by simp⟩
  | edit sector f =>
    simp only [exec, wp_bind]
    apply wp_mono (readMut_spec h sector) _ refused
    rintro _ _ ⟨rfl, loaded⟩
    have marked := edit_mark_spec loaded.kept.coherent loaded.cached f (E := fun _ m' => Coherent m' ∧ m'.view = m.view)
    rw [wp_bind] at marked
    apply wp_imp marked
    intro _ m₂ inner
    apply wp_imp inner
    rintro _ _ ⟨stored, -, -⟩
    refine ⟨stored.coherent, ?_, rfl, by simp⟩
    rw [stored.view, loaded.kept.view]
    rfl
  | write sector data =>
    simp only [exec, wp_bind]
    apply wp_mono (write_spec h sector data) _ refused
    rintro _ m' stored
    exact ⟨stored.coherent, stored.view, rfl, by simp⟩
  | sync =>
    simp only [exec, wp_bind]
    apply wp_mono (sync_spec h) _ refused
    rintro _ m' ⟨kept, clean, -, -⟩
    exact ⟨kept.coherent, kept.view, rfl, fun _ => (kept.coherent.view_eq_disk clean).symm⟩
  | syncBlock sector =>
    simp only [exec, wp_bind]
    apply wp_mono (flushEntry_spec h sector) _ refused
    rintro _ m' flushed
    exact ⟨flushed.kept.coherent, flushed.kept.view, rfl, by simp⟩
  | clear =>
    simp only [exec, wp_bind]
    apply wp_mono (clear_spec h) _ refused
    rintro _ m' kept
    exact ⟨kept.coherent, kept.view, rfl, by simp⟩

/-- The state after one call, whatever it answered. -/
def next (op : CacheOp) : CacheMem :=
  match op.exec m with
  | .ok _ m' => m'
  | .error _ m' => m'

end CacheOp

namespace CacheMem

def initial (dev : BlockDev) (counter : Nat) : CacheMem := ⟨BufferCache.new, dev, counter⟩

theorem coherent_initial (dev : BlockDev) (counter : Nat) : Coherent (initial dev counter) := by
  constructor <;> simp [size, initial, BufferCache.new]

theorem coherent_next {m : CacheMem} (h : Coherent m) (op : CacheOp) : Coherent (CacheOp.next m op) := by
  unfold CacheOp.next
  have spec := CacheOp.exec_spec op h
  cases run : op.exec m with
  | ok result m' => exact (wp_of_ok spec run).coherent
  | error e m' => exact (wp_of_error spec run).1

theorem coherent_run (ops : List CacheOp) : ∀ {m : CacheMem}, Coherent m → Coherent (ops.foldl CacheOp.next m) := by
  induction ops with
  | nil => exact fun h => h
  | cons op rest ih => exact fun h => ih (coherent_next h op)

end CacheMem

end HavyOs.Fs
