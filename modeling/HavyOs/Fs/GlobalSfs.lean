import HavyOs.Fs.Calls
import HavyOs.Lib.Run

/-!
# `GlobalSfs`

The adapter of `fs/sfs.rs` over the global filesystem and device, with both locks
obtained and both initialised: every method is the method of `FileSystemState` of the
same name, and `write_file` adds a `sync` when the write returned. What the calls leave
of a directory that is intact in the view is stated here once for all users.
-/

namespace HavyOs.Fs

open HavyOs.Lib CacheMem

namespace GlobalSfs

variable (path : String)

def readFile : FsM (Option (List UInt8)) := onDevice (FileSystemState.readFile path)

/-- A write that returned is followed by a `sync`. -/
def writeFile (data : List UInt8) : FsM Unit := do
  FileSystemState.writeFile path data
  let _ ← FileSystemState.sync

def listDir : FsM (List FileInfo) := FileSystemState.listDir path

def pathExists : FsM Bool := FileSystemState.pathExists path

def isDir : FsM Bool := FileSystemState.isDir path

def remove : FsM Unit := FileSystemState.remove path

def sync : FsM Nat := FileSystemState.sync

def mkdir : FsM Unit := FileSystemState.mkdir path

end GlobalSfs

/-! ## Blocks in use -/

/-- The first bitmap sector counts as it is in memory, the others as they are on the device. -/
theorem inUse_iff {m : FsMem} {k : Nat} : m.inUse k ↔
    secDataStart ≤ k ∧ k < 64 * 4096 ∧
      (if k < 4096 then marked m.fs.bitmapCache k else marked (m.disk (secMapStart + k / 4096)) (k % 4096)) = true := by
  have bit : bitOn (Function.update m.disk secMapStart m.fs.bitmapCache) k =
      if k < 4096 then marked m.fs.bitmapCache k else marked (m.disk (secMapStart + k / 4096)) (k % 4096) := by
    unfold bitOn
    split_ifs with small
    · rw [show k / 4096 = 0 by omega, show k % 4096 = k by omega, Nat.add_zero, Function.update_self]
    · rw [Function.update_of_ne (by omega)]
  rw [← bit]
  exact ⟨fun h => ⟨h.inData, h.mapped, h.bit⟩, fun ⟨inData, mapped, bit⟩ => ⟨inData, mapped, bit⟩⟩

/-- Marks are added, and the bitmap sectors behind the first are never written. -/
theorem inUse_mono {m m' : FsMem}
    (marks : ∀ k, marked m.fs.bitmapCache k = true → marked m'.fs.bitmapCache k = true)
    (map : ∀ s, 2 ≤ s → s < secDirStart → m'.disk s = m.disk s) {k : Nat} (h : m.inUse k) : m'.inUse k := by
  rw [inUse_iff] at h ⊢
  obtain ⟨inData, mapped, bit⟩ := h
  refine ⟨inData, mapped, ?_⟩
  by_cases small : k < 4096
  · rw [if_pos small] at bit ⊢
    exact marks k bit
  · rw [if_neg small] at bit ⊢
    rw [map (secMapStart + k / 4096) (by rw [secMapStart]; omega) (by rw [secMapStart, secDirStart]; omega)]
    exact bit

/-- Blocks that were free are none of those in use. -/
theorem Reserved.notInUse {m : FsMem} {blocks : List UInt32} {fs : FileSystemState} (h : Reserved blocks m.fs fs)
    {s : Nat}
    (inUse : m.inUse s) : s ∉ sectors blocks := by
  intro member
  obtain ⟨b, inside, rfl⟩ := mem_sectors.mp member
  obtain ⟨small, clear⟩ := h.fresh b inside
  have bit := (inUse_iff.mp inUse).2.2
  rw [if_pos small, clear] at bit
  cases bit

theorem Slot.sector_ne {slot : Slot} {s : Nat} (inData : secDataStart ≤ s) : s ≠ slot.sector := by
  have bounds := slot.sector_bounds
  simp only [secDataStart] at inData
  omega

namespace Written

variable {name : String} {data : List UInt8} {slot : Slot} {blocks : List UInt32} {m m' : FsMem}
  (h : Written name data slot blocks m m')

include h

variable {s : Nat}

/-- A write shows the blocks that were in use as they were. -/
theorem view_inUse (inUse : m.inUse s) : m'.view s = m.view s :=
  h.view s (h.notInUse inUse) (Slot.sector_ne inUse.inData)

/-- The chain of the new entry is the blocks that the write took. -/
theorem chain : Chain m'.view (newEntry name data.length blocks) blocks := by
  refine ⟨h.linked, ?_⟩
  have count := h.count
  have size : (newEntry name data.length blocks).size.toNat ≤ data.length := by
    exact Nat.mod_le _ _
  rw [blocksFor] at count
  omega

theorem low (uncached : LowUncached m) : LowUncached m' := by
  apply uncached.traffic h.traffic
  intro s member
  rcases List.mem_cons.mp member with rfl | fresh
  · exact slot.sector_bounds.1
  · have := h.inData s fresh
    simp only [secDataStart, secDirStart] at this ⊢
    omega

/-- What lies in front of the directory stays on the device as it was. -/
theorem disk_low (uncached : LowUncached m) (small : s < secDirStart) : m'.disk s = m.disk s := by
  have outside : s ∉ sectors blocks := by
    intro member
    have := h.inData s member
    simp only [secDataStart, secDirStart] at this small
    omega
  rcases h.traffic.disk s outside with same | taken
  · exact same
  · exact taken.trans (uncached.view small)

/-- With nothing waiting in the cache a write changes the device in fresh blocks only. -/
theorem disk_of_settled (settled : m.view = m.disk)
    (outside : s ∉ sectors blocks) : m'.disk s = m.disk s := by
  rcases h.traffic.disk s outside with same | taken
  · exact same
  · exact taken.trans (congrFun settled s)

theorem dirs_of_settled (settled : m.view = m.disk) (t : Slot) : entryOn m'.disk t = entryOn m.disk t := by
  rw [entryOn, h.disk_of_settled settled fun member => Slot.sector_ne (h.inData _ member) rfl, entryOn]

theorem inUse_mono (uncached : LowUncached m) (inUse : m.inUse s) : m'.inUse s :=
  Fs.inUse_mono (fun k old => (h.marks k).mpr (Or.inl old)) (fun _ _ small => h.disk_low uncached small) inUse

theorem inUse_fresh (member : s ∈ sectors blocks) : m'.inUse s := by
  obtain ⟨b, inside, rfl⟩ := mem_sectors.mp member
  have small := (h.fresh b inside).1
  refine inUse_iff.mpr ⟨h.inData _ member, by omega, ?_⟩
  rw [if_pos small]
  exact (h.marks _).mpr (Or.inr member)

/-- **A write keeps an intact view intact.** -/
theorem intact (uncached : LowUncached m) (old : Intact m.view m.inUse) : Intact m'.view m'.inUse := by
  intro t used
  by_cases same : t = slot
  · rw [same, h.entry]
    exact ⟨blocks, h.chain, fun s member => h.inUse_fresh member⟩
  · rw [h.entries t same] at used ⊢
    obtain ⟨chain, linked, inside⟩ := old t used
    exact ⟨chain, linked.frame fun s member => h.view_inUse (inside s member),
      fun s member => h.inUse_mono uncached (inside s member)⟩

theorem ready (ready : Ready m) : Ready m' :=
  ⟨h.traffic.coherent, h.traffic.reliable ready.reliable,
    fun k small => (h.marks k).mpr (.inl (ready.reserved k small))⟩

end Written

/-- An entry is emptied; the chains of the others are as they were. -/
theorem Intact.storeAt_noEntry {disk : Nat → Block} {inUse : Nat → Prop} (h : Intact disk inUse)
    (inData : ∀ s, inUse s → secDataStart ≤ s) (slot : Slot) : Intact (storeAt disk slot noEntry) inUse := by
  intro t used
  by_cases same : t = slot
  · rw [same, used_storeAt_noEntry] at used
    cases used
  · rw [entryOn_storeAt_other disk same noEntry_length] at used ⊢
    obtain ⟨blocks, chain, inside⟩ := h t used
    exact ⟨blocks, chain.frame fun s member => storeAt_other disk (Slot.sector_ne (inData s (inside s member))) _,
      inside⟩

namespace Removed

variable {path : String} {slot : Slot} {m m' : FsMem} (h : Removed path slot m m')

include h

/-- `remove` flushes the cache, so the device has what the view shows. -/
theorem disk : m'.disk = storeAt m.view slot noEntry := by rw [← h.synced.view, h.view]

theorem low (uncached : LowUncached m) : LowUncached m' := by
  intro s small cached
  rcases h.cached s cached with old | new
  · exact uncached s small old
  · have := (mem_dirSectors.mp new).1
    simp only [secDirStart] at small
    omega

theorem disk_low (uncached : LowUncached m) {s : Nat} (small : s < secDirStart) : m'.disk s = m.disk s := by
  have bounds := slot.sector_bounds
  rw [h.disk, storeAt_other _ (by simp only [secDirStart] at small; omega), uncached.view small]

/-- **A removal leaves an intact directory on the device.** -/
theorem intact (uncached : LowUncached m) (old : Intact m.view m.inUse) : Intact m'.disk m'.inUse := by
  rw [h.disk]
  refine (old.storeAt_noEntry (fun s inUse => inUse.inData) slot).frame (fun _ => rfl) (fun _ _ => rfl) fun s => ?_
  exact inUse_mono (fun k mark => by rw [h.bitmap]; exact mark) fun t _ small => h.disk_low uncached small

theorem unused : (entryOn m'.disk slot).used = false := by rw [h.disk, used_storeAt_noEntry]

theorem others {t : Slot} (apart : t ≠ slot) : entryOn m'.disk t = entryOn m.view t := by
  rw [h.disk, entryOn_storeAt_other _ apart noEntry_length]

theorem apart {t : Slot} (used : (entryOn m'.disk t).used = true) : t ≠ slot := by
  rintro rfl
  rw [h.unused] at used
  cases used

theorem distinct (old : Distinct m.view) : Distinct m'.disk := by
  intro s t usedS usedT same
  have oldS := h.others (h.apart usedS)
  have oldT := h.others (h.apart usedT)
  rw [oldS] at usedS same
  rw [oldT] at usedT same
  exact old s t usedS usedT same

end Removed

/-! ## After a `sync` -/

section Synced

variable {m m' : FsMem} (disk : ∀ s, s ≠ secMapStart → m'.disk s = m.view s)

include disk

theorem entryOn_synced (slot : Slot) : entryOn m'.disk slot = entryOn m.view slot := by
  have bounds := slot.sector_bounds
  rw [entryOn, disk _ (by rw [secMapStart]; omega), entryOn]

theorem disk_inUse {s : Nat} (inUse : m.inUse s) : m'.disk s = m.view s := by
  have high := inUse.inData
  simp only [secDataStart] at high
  exact disk s (by rw [secMapStart]; omega)

/-- **After a `sync` the device is as intact as the view was.** -/
theorem Intact.synced (old : Intact m.view m.inUse) (low : LowUncached m)
    (bitmap : m'.fs.bitmapCache = m.fs.bitmapCache) : Intact m'.disk m'.inUse := by
  refine old.frame (entryOn_synced disk) (fun s inUse => disk_inUse disk inUse) fun s => ?_
  exact inUse_mono (fun k mark => by rw [bitmap]; exact mark)
    fun t two small => (disk t (by rw [secMapStart]; omega)).trans (low.view small)

end Synced

end HavyOs.Fs
