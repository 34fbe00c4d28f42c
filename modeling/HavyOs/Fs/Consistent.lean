import HavyOs.Fs.FileMap

/-!
# Consistent states

As long as the device answers, every call leaves a state in which each entry of the directory,
as the cache shows it, has its chain in blocks that are marked in the bitmap. Nothing is asked of
the names here: what an entry is called does not matter to its blocks.
-/

namespace HavyOs.Fs

open HavyOs.Lib CacheMem FileSystemState

/-- A working filesystem: every entry of the view has its blocks, and no bitmap sector is cached. -/
structure Consistent (m : FsMem) : Prop where
  ready : Ready m
  low : LowUncached m
  intact : Intact m.view m.inUse

theorem sync_holds {m m' : FsMem} {count : Nat} (ready : Ready m) (low : LowUncached m)
    (run : sync m = .ok count m') :
    m'.dev.Reliable ∧ (∀ slot, entryOn m'.disk slot = entryOn m.view slot) ∧ ∀ s, s ≠ secMapStart →
    m'.disk s = m.view s := by
  obtain ⟨synced, -, -, -, disk⟩ := wp_of_ok (sync_spec ready low (E := fun _ _ => True)) run
  exact ⟨synced.ready.reliable, entryOn_synced fun _ => disk_elsewhere disk, fun s => disk_elsewhere disk⟩

/-- Traffic of blocks that are not in use: the directory in the view and its chains stay. -/
structure Aside (m m' : FsMem) : Prop where
  ready : Ready m'
  marks : ∀ k, marked m.fs.bitmapCache k = true → marked m'.fs.bitmapCache k = true
  traffic : ∃ fresh loads, Traffic fresh loads m.mem m'.mem ∧ (∀ s ∈ loads, secDirStart ≤ s) ∧
    (∀ s ∈ fresh, secDataStart ≤ s ∧ ¬ m.inUse s) ∧ ∀ s, s ∉ fresh → m'.view s = m.view s

namespace Aside

variable {m m' : FsMem}

theorem entries (h : Aside m m') (s : Slot) : entryOn m'.view s = entryOn m.view s := by
  obtain ⟨_, _, -, -, unused, view⟩ := h.traffic
  rw [entryOn, view _ fun member => Slot.sector_ne (unused _ member).1 rfl, entryOn]

/-- Below the data area the device can only have taken over what the view shows. -/
theorem disk_cases (h : Aside m m') {s : Nat} (small : s < secDataStart) :
    m'.disk s = m.disk s ∨ m'.disk s = m.view s := by
  obtain ⟨_, _, moved, -, unused, -⟩ := h.traffic
  apply moved.disk s
  intro member
  have := (unused s member).1
  omega

theorem of_browsed (ready : Ready m) (browsed : Browsed m m') : Aside m m' := by
  refine ⟨browsed.ready ready, ?_, [], dirSectors, browsed.traffic, fun s member =>
    (mem_dirSectors.mp member).1, by simp,
    fun s _ => congrFun browsed.view s⟩
  rw [browsed.bitmap]
  exact fun _ => id

theorem of_failed {name error : String} {data : List UInt8} (ready : Ready m)
    (failed : WriteFailed name data m error m') :
    Aside m m' := by
  cases failed with
  | rootDirFull _ _ same => exact of_browsed ready (same.browsed ready)
  | diskFull _ _ _ _ blocks taken =>
    have fresh : ∀ {s}, s ∈ sectors blocks → secDataStart ≤ s := taken.inData ready
    have moved := taken.traffic
    refine ⟨taken.ready ready, fun k old => (taken.marks k).mpr (Or.inl old), _, _, moved, fun s member => ?_,
      fun s member => ⟨fresh member, fun inUse => ?_⟩, fun s outside => taken.view s (by simp) outside⟩
    · have := fresh member
      simp only [secDataStart, secDirStart] at this ⊢
      omega
    · exact taken.notInUse inUse member

end Aside

theorem Mounted.consistent {m : FsMem} (h : Mounted m) : Consistent m :=
  ⟨h.ready, h.settled.low, h.settled.intact_view⟩

namespace Consistent

variable {m m' : FsMem}

variable (h : Consistent m)

include h

theorem aside (aside : Aside m m') : Consistent m' := by
  obtain ⟨_, _, moved, high, unused, view⟩ := aside.traffic
  refine ⟨aside.ready, h.low.traffic moved high, ?_⟩
  refine h.intact.frame aside.entries (fun s inUse => view s fun member => (unused s member).2 inUse) fun s => ?_
  refine inUse_mono aside.marks fun s _ small => ?_
  rcases aside.disk_cases (s := s) (by simp only [secDirStart, secDataStart] at small ⊢; omega) with same | taken
  · exact same
  · exact taken.trans (h.low.view small)

theorem written {name : String} {data : List UInt8} {slot : Slot} {blocks : List UInt32}
    (written : Written name data slot blocks m m') : Consistent m' :=
  ⟨written.ready h.ready, written.low h.low, written.intact h.low h.intact⟩

theorem removed {path : String} {slot : Slot} (removed : Removed path slot m m') : Consistent m' := by
  refine ⟨removed.synced.ready, removed.low h.low, ?_⟩
  rw [removed.synced.view]
  exact removed.intact h.low h.intact

theorem synced {count : Nat} (run : sync m = .ok count m') : Consistent m' := by
  obtain ⟨synced, bitmap, -, low, disk⟩ := wp_of_ok (sync_spec h.ready h.low (E := fun _ _ => True)) run
  refine ⟨synced.ready, low, ?_⟩
  rw [synced.view]
  exact h.intact.synced (fun _ => disk_elsewhere disk) h.low bitmap

end Consistent

end HavyOs.Fs
