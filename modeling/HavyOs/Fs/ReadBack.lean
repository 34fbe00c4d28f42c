import Mathlib.Data.List.TakeWhile
import HavyOs.Fs.Unsynced

/-!
# Reading back without a `sync`

`read_file` sees the device only. A removal syncs the cache before it returns, so the next
read misses the name, provided that the view did not hold it twice. A write leaves its entry
in the cache, so the next read still finds the old file. Runs here take the calls of
`FileSystemState` in any order and go on after a call that failed.
-/

namespace HavyOs.Fs

open HavyOs.Lib CacheMem FileSystemState FileSystemState DirEntry

/-- The calls of `FileSystemState` that can change what is read. -/
inductive FsOp where
  | writeFile (path : String) (data : List UInt8)
  | remove (path : String)
  | mkdir (path : String)
  | listDir (path : String)
  | sync

def FsOp.exec : FsOp → FsM Unit
  | writeFile path data => FileSystemState.writeFile path data
  | remove path => FileSystemState.remove path
  | mkdir path => FileSystemState.mkdir path
  | listDir path => do
    let _ ← FileSystemState.listDir path
  | sync => do
    let _ ← FileSystemState.sync

/-- The call ends in `m'`, whether it returned or failed. -/
def FsOp.step (m : FsMem) (op : FsOp) (m' : FsMem) : Prop :=
  op.exec m = .ok () m' ∨ ∃ error, op.exec m = .error error m'

/-- A call that writes an entry has a storable name and finds its place free or its own. -/
def FsOp.Fits (m : FsMem) : FsOp → Prop
  | writeFile path _ => Storable path ∧ Fs.Fits m path
  | mkdir path => Storable (FileSystemState.dirPath path) ∧ Fs.Fits m (FileSystemState.dirPath path)
  | remove _ => True
  | listDir _ => True
  | sync => True

/-- What a call can do: load directory sectors, write an entry, run out of blocks, remove an entry,
or bring the cache to the device. -/
inductive FsOp.Effect (m : FsMem) : FsOp → FsMem → Prop where
  | browsed {op : FsOp} {m' : FsMem} (browsed : Browsed m m') : Effect m op m'
  | written {op : FsOp} {m' : FsMem} {name : String} {data : List UInt8} {slot : Slot} {blocks : List UInt32}
      (fits : op.Fits m → Storable name ∧ Fs.Fits m name) (written : Written name data slot blocks m m') :
      Effect m op m'
  | failed {op : FsOp} {m₁ m' : FsMem} {name error : String} {data : List UInt8} (browsed : Browsed m m₁)
      (failed : WriteFailed name data m₁ error m') : Effect m op m'
  | removed {op : FsOp} {m' : FsMem} {path : String} {slot : Slot} (removed : Removed path slot m m') : Effect m op m'
  | synced {op : FsOp} {m' : FsMem} {count : Nat} (run : FileSystemState.sync m = .ok count m') : Effect m op m'

namespace FsOp

variable {m m' : FsMem}

/-- **One call**, however it ends. -/
theorem exec_effect (ready : Ready m) (low : LowUncached m) (op : FsOp) :
    wp op.exec (fun _ m' => op.Effect m m') (fun _ m' => op.Effect m m') m := by
  cases op with
  | writeFile path data =>
    apply wp_mono (writeFile_spec ready path data)
    · rintro _ m' ⟨slot, blocks, written⟩
      exact .written id written
    · exact fun _ _ failed => .failed (.refl ready.coherent) failed
  | mkdir path =>
    apply wp_mono (mkdir_spec ready path)
    · rintro _ m' ⟨-, slot, blocks, written⟩
      exact .written id written
    · intro _ m' failed
      cases failed with
      | found _ _ same => exact .browsed (same.browsed ready)
      | write failed =>
        obtain ⟨_, same, failed⟩ := failed
        exact .failed (same.browsed ready) failed
  | remove path =>
    apply wp_mono (remove_spec ready path)
    · rintro _ m' ⟨slot, removed⟩
      exact .removed removed
    · intro _ m' failed
      cases failed with
      | notFound _ _ same => exact .browsed (same.browsed ready)
      | notEmpty _ _ browsed => exact .browsed browsed
  | listDir path =>
    rw [exec, wp_bind]
    exact wp_mono (listDir_spec ready path) (fun _ _ browsed => .browsed browsed) fun _ _ failure => failure
  | sync =>
    obtain ⟨_, m', run, -⟩ := wp_returns (sync_spec ready low)
    rw [exec, wp_bind, wp, run]
    exact .synced run

theorem step_effect (ready : Ready m) (low : LowUncached m) {op : FsOp} (step : op.step m m') : op.Effect m m' := by
  have effect := exec_effect ready low op
  rcases step with returned | ⟨_, failed⟩
  · rwa [wp, returned] at effect
  · rwa [wp, failed] at effect

end FsOp

namespace Orderly

variable {m m' : FsMem}

section

variable (h : Orderly m)
include h

theorem aside (aside : Aside m m') : Orderly m' := by
  have consistent := h.consistent.aside aside
  refine h.evict consistent.ready consistent.low consistent.intact aside.entries fun s => ?_
  rcases aside.disk_cases s.sector_bounds.2 with same | taken
  · exact Or.inl (by rw [entryOn, same, entryOn])
  · exact Or.inr (by rw [entryOn, taken, entryOn])

/-- A removal leaves nothing to keep in step, since it brings the view to the device. -/
theorem removed {path : String} {slot : Slot} (removed : Removed path slot m m') : Orderly m' := by
  have consistent := h.consistent.removed removed
  refine of_dirs consistent.ready consistent.low consistent.intact ?_ fun t => by rw [removed.synced.view]
  rw [removed.synced.view]
  exact removed.distinct h.distinct

theorem synced {count : Nat} (run : sync m = .ok count m') : Orderly m' := by
  obtain ⟨synced, -, -, -, disk⟩ := wp_of_ok (sync_spec h.ready h.low (E := fun _ _ => True)) run
  have consistent := h.consistent.synced run
  refine of_dirs consistent.ready consistent.low consistent.intact ?_ fun t => by rw [synced.view]
  rw [synced.view]
  exact h.distinct.frame (entryOn_synced fun _ => disk_elsewhere disk)

/-- **One call.** However it ends, view and device stay in step. -/
theorem step {op : FsOp} (fits : op.Fits m) (step : op.step m m') : Orderly m' := by
  cases FsOp.step_effect h.ready h.low step with
  | browsed browsed => exact h.aside (.of_browsed h.ready browsed)
  | written named written => exact h.write (named fits).1 (named fits).2 written
  | failed browsed failed =>
    exact (h.aside (.of_browsed h.ready browsed)).aside (.of_failed (browsed.ready h.ready) failed)
  | removed removed => exact h.removed removed
  | synced run => exact h.synced run

/-- In step, a removed name is gone from the device. -/
theorem remove_reads {name : String} (storable : Storable name)
    (run : remove name m = .ok () m') : ∃ d, readFile name m'.dev = .ok none d := by
  obtain ⟨slot, removed⟩ := wp_of_ok (remove_spec h.ready name) run
  obtain ⟨used, raw⟩ := firstSlot_named storable removed.found
  obtain ⟨usedView, rawView⟩ := h.ahead slot used
  have absent : firstSlot (isNamed name) m'.disk = none := by
    cases lookup : firstSlot (isNamed name) m'.disk with
    | none => rfl
    | some t =>
      obtain ⟨usedT, rawT⟩ := firstSlot_named storable lookup
      have apart := removed.apart usedT
      rw [removed.others apart] at usedT rawT
      exact absurd (h.distinct t slot usedT usedView (rawT.trans (rawView.trans raw).symm)) apart
  obtain ⟨_, d, read, rfl, -⟩ :=
    wp_returns (readFile_holds removed.synced.ready.reliable (Holds.absent absent))
  exact ⟨d, read⟩

/-- With nothing waiting in the cache, a write leaves what the device holds under every name. -/
theorem write_holds {name : String} {data : List UInt8} {slot : Slot} {blocks : List UInt32}
    (settled : m.view = m.disk) (written : Written name data slot blocks m m') {other : String}
    {value : Option (List UInt8)}
    (storable : Storable other) (holds : Holds m.disk other value) : Holds m'.disk other value := by
  have entries := written.dirs_of_settled settled
  refine holds.frame (firstSlot_congr entries) (fun t _ => entries t) fun t found chain linked b member => ?_
  have intact := h.intact
  rw [settled] at intact
  have inUse := intact.linked (firstSlot_named storable found).1 linked member
  exact written.disk_of_settled settled (written.notInUse inUse)

end

end Orderly

/-- **Reading back without a `sync`.** In every state of a run whose calls fit, a removal that
returns is seen by the next read, and a write that returns, made while nothing waits in the
cache, reads back if and only if the device held the same bytes under the name before. -/
theorem read_back_unsynced {m m₁ : FsMem} {ops : List FsOp} (mounted : Mounted m)
    (run : Run (guarded FsOp.Fits FsOp.step) m ops m₁) {name : String} (storable : Storable name) :
    (∀ m₂, remove name m₁ = .ok () m₂ → ∃ d, readFile name m₂.dev = .ok none d) ∧
    (∀ data m₂, m₁.view = m₁.disk → writeFile name data m₁ = .ok () m₂ →
      ((∃ d, readFile name m₂.dev = .ok (some data) d) ↔
        ∃ d, readFile name m₁.dev = .ok (some data) d)) := by
  have orderly : Orderly m₁ := run.invariant (fun _ _ _ orderly step => orderly.step step.1 step.2) mounted.orderly
  refine ⟨fun m₂ removed => orderly.remove_reads storable removed, fun data m₂ settled wrote => ?_⟩
  obtain ⟨_, _, written⟩ := @writeStep_written m₁ m₂ (name, data) orderly.ready wrote
  have intact := orderly.intact
  rw [settled] at intact
  obtain ⟨_, represents⟩ := exists_represents intact
  have before := represents name storable
  have after := orderly.write_holds settled written storable before
  obtain ⟨_, d₁, read₁, rfl, -⟩ := wp_returns (readFile_holds orderly.ready.reliable before)
  obtain ⟨_, d₂, read₂, rfl, -⟩ :=
    wp_returns (readFile_holds (written.ready orderly.ready).reliable after)
  rw [read₁, read₂]
  constructor
  · rintro ⟨d, same⟩
    exact ⟨d₁, by rw [(EStateM.Result.ok.inj same).1]⟩
  · rintro ⟨d, same⟩
    exact ⟨d₂, by rw [(EStateM.Result.ok.inj same).1]⟩

/-- A file written to an empty image and synced: it can be written again and it can be removed. -/
theorem read_back_unsynced_one :
    ∃ m₁ m₂ m₃, Run (guarded FsOp.Fits FsOp.step) blankState [.writeFile "/a" [1], .sync] m₁ ∧
    remove "/a" m₁ = .ok () m₂ ∧ (∃ d, readFile "/a" m₂.dev = .ok none d) ∧
    writeFile "/a" [1] m₁ = .ok () m₃ ∧ ∃ d, readFile "/a" m₃.dev = .ok (some [1]) d := by
  have storable : Storable "/a" := ⟨by decide, by decide, by decide⟩
  have orderly := blankState_mounted.orderly
  have fits : Fits blankState "/a" :=
    fun slot _ => Or.inl (by rw [blankState_mounted.view]; exact blankImage_unused slot)
  obtain ⟨m₀, slot, blocks, wrote, written⟩ := @blankState_writes "/a" [1] (by decide)
  have orderly₀ := orderly.write storable fits written
  obtain ⟨count, m₁, synced, settled, bitmap, -⟩ := wp_returns (sync_spec orderly₀.ready orderly₀.low)
  have orderly₁ := orderly₀.synced synced
  have sync : FsOp.sync.step m₀ m₁ := Or.inl (by simp only [FsOp.exec, bind, EStateM.bind, synced]; rfl)
  have run : Run (guarded FsOp.Fits FsOp.step) blankState [.writeFile "/a" [1], .sync] m₁ :=
    .cons ⟨⟨storable, fits⟩, Or.inl wrote⟩ (.cons ⟨trivial, sync⟩ (.nil m₁))
  -- the file is on the device now, at the place of its entry
  obtain ⟨d, read⟩ := (written.stores storable).readFile orderly₀ storable synced
  have found : ∃ place, firstSlot (isNamed "/a") m₁.disk = some place := by
    cases lookup : firstSlot (isNamed "/a") m₁.disk with
    | some place => exact ⟨place, rfl⟩
    | none =>
      have nothing := wp_of_ok (readFile_holds (E := fun _ _ => True) orderly₁.ready.reliable (.absent lookup)) read
      exact absurd nothing.1 (by simp)
  obtain ⟨place, found⟩ := found
  have free : blocksFor [(1 : UInt8)].length ≤ freeCount m₁.fs.bitmapCache := by
    have total : freeCount blankState.fs.bitmapCache = 3967 := freeCount_blankBitmap
    have taken := written.free
    have one : blocks.length = 1 := written.count
    have need : blocksFor [(1 : UInt8)].length = 1 := by decide
    rw [bitmap]
    omega
  obtain ⟨m₂, removed, -⟩ := remove_returns orderly₁.ready found (by decide)
  obtain ⟨m₃, _, _, again, -⟩ := @writeFile_returns m₁ orderly₁.ready "/a" [1]
    (by rw [selectSlot, found]; simp) free
  have result := read_back_unsynced blankState_mounted run storable
  exact ⟨m₁, m₂, m₃, run, removed, result.1 m₂ removed, again, (result.2 [1] m₃ settled.view again).mpr ⟨d, read⟩⟩

/-- A file written to an empty image is not found by the next read. -/
theorem write_not_read_back : ∃ m₁ d, writeFile "/a" [1] blankState = .ok () m₁ ∧
    readFile "/a" m₁.dev = .ok none d := by
  have storable : Storable "/a" := ⟨by decide, by decide, by decide⟩
  obtain ⟨m₁, _, _, wrote, written⟩ := @blankState_writes "/a" [1] (by decide)
  have absent : firstSlot (isNamed "/a") blankState.disk = none := blankImage_absent "/a"
  have holds := blankState_mounted.orderly.write_holds blankState_mounted.view written storable (.absent absent)
  obtain ⟨_, d, read, rfl, -⟩ :=
    wp_returns (readFile_holds (written.ready blankState_mounted.ready).reliable holds)
  exact ⟨m₁, d, wrote, read⟩

theorem isNamed_nul {name : String} (nul : 0 ∈ asBytes name) (e : DirEntry) : e.isNamed name = false := by
  rw [Bool.eq_false_iff]
  intro named
  simp only [isNamed, entryName, Bool.and_eq_true, beq_iff_eq] at named
  have found := named.2
  cases decoded : fromUtf8 e.rawName with
  | none =>
    rw [decoded] at found
    rw [← found] at nul
    cases nul
  | some s =>
    rw [decoded, Option.getD_some] at found
    rw [← found, asBytes_of_fromUtf8 decoded] at nul
    exact absurd (List.mem_takeWhile_imp nul) (by decide)

end HavyOs.Fs
