import HavyOs.Vfs.Proxy

/-!
# The file systems as the harts see them

The handlers of the I/O router do not go where hart 0 goes. `FsRead` takes the virtual file system
for paths under `/mnt/` only, and `FsExists` and `FsSync` never take it: they work on `FS_STATE`,
and `FsExists` asks for a file that can be read where the virtual file system asks for a path. So a
file of the host exists on hart 0 and on no other hart, and so do directories.
-/

namespace HavyOs.Vfs

open Lib (wp wp_zoom wp_mono wp_returns)

/-! ## Contents -/

namespace Storage

/-- The contents that a file system has at a path, if the path was resolved. -/
def fileAt (s : Storage) : Option (FileSystem × String) → Option (List UInt8)
  | some (fs, relative) => (fs.readFile relative s).1
  | none => none

/-- The path is known to a file system, if it was resolved. -/
def knownAt (s : Storage) : Option (FileSystem × String) → Bool
  | some (fs, relative) => (fs.pathExists relative s).1
  | none => false

/-- The contents that `FS_STATE` has at a path. -/
def globalFile (s : Storage) (path : String) : Option (List UInt8) := s.fileAt (some (.globalSfs, path))

/-- The file systems that a sync of the mounts gets to: it ends at the first that fails. -/
def reached (s : Storage) : List (MountPoint FileSystem) → List FileSystem
  | [] => []
  | mount :: mounts =>
    match mount.fs.sync s with
    | (.error _, _, _) => [mount.fs]
    | (.ok _, _, s) => mount.fs :: reached s mounts

end Storage

/-- Where reading agrees: the file system that the path belongs to has there what `FS_STATE` has under the whole path;
under `/mnt/` it is enough that there are mounts, or no such file. -/
def ReadsAlike (s : Storage) (path : String) : Prop :=
  if startsWith path "/mnt/" then s.vfs = none → s.globalFile path = none
  else ∀ mounts, s.vfs = some mounts → s.fileAt (resolve mounts path) = s.globalFile path

/-- Where existence agrees: `FS_STATE` has a file of the name exactly when the path is a mount point, is above one, or
is known to the file system it belongs to. -/
def KnownAlike (s : Storage) (path : String) : Prop :=
  ∀ mounts, s.vfs = some mounts →
    ((s.globalFile path).isSome ↔ isMountDir mounts path ∨ s.knownAt (resolve mounts path))

/-- Where syncing agrees: the mounts that a sync gets to include `FS_STATE`, if it is there, and no other SFS. -/
def SyncsAlike (s : Storage) : Prop :=
  ∀ mounts, s.vfs = some mounts →
    (s.global.isSome → .globalSfs ∈ s.reached mounts) ∧ ∀ id, .sfs id ∉ s.reached mounts

/-! ## Reading -/

theorem globalFile_none {s : Storage} (absent : s.global = none) (path : String) : s.globalFile path = none := by
  change (s.onGlobal _ _ _).1 = none
  rw [Storage.onGlobal, absent]

variable (hart : Nat) (path : String) (mounts : List (MountPoint FileSystem)) (fs : FileSystem) (s : Storage)

theorem readFile_eq : (readFile mounts path s).1 = s.fileAt (resolve mounts path) := by
  rw [readFile]
  cases resolve mounts path with
  | none => rfl
  | some target => rfl

theorem dataOf_readAnswer (data : Option (List UInt8)) : dataOf (readAnswer data) = data := by
  cases data <;> rfl

theorem fsRead_first : (fsRead 0 path s).1 =
    match s.vfs with
    | some mounts => s.fileAt (resolve mounts path)
    | none => s.globalFile path := by
  rw [fsRead, readWithVfsOrLegacy]
  cases s.vfs with
  | none => rfl
  | some mounts => exact readFile_eq path mounts s

theorem fsRead_secondary : (fsRead (hart + 1) path s).1 =
    if startsWith path "/mnt/" then
      match s.vfs with
      | some mounts => s.fileAt (resolve mounts path)
      | none => none
    else s.globalFile path := by
  rw [fsRead, handleFsRead]
  by_cases mounted : startsWith path "/mnt/" = true
  · rw [if_pos mounted, if_pos mounted]
    cases s.vfs with
    | none => rfl
    | some mounts => exact (dataOf_readAnswer _).trans (readFile_eq path mounts s)
  · rw [if_neg mounted, if_neg mounted]
    cases global : s.global with
    | none => exact (globalFile_none global path).symm
    | some m => exact dataOf_readAnswer _

theorem fsRead_agrees : (fsRead (hart + 1) path s).1 = (fsRead 0 path s).1 ↔ ReadsAlike s path := by
  rw [fsRead_first, fsRead_secondary, ReadsAlike]
  split
  · cases s.vfs with
    | none => simp [eq_comm]
    | some mounts => simp
  · cases s.vfs with
    | none => simp
    | some mounts => simp [eq_comm]

/-! ## Existence -/

theorem fsExists_first : (fsExists 0 path s).1 =
    match s.vfs with
    | some mounts => isMountDir mounts path || s.knownAt (resolve mounts path)
    | none => (s.globalFile path).isSome := by
  rw [fsExists, if_pos rfl, existsWithVfsOrLegacy]
  cases s.vfs with
  | none => rfl
  | some mounts =>
    dsimp only
    rw [pathExists]
    split_ifs with above
    · rw [above, Bool.true_or]
    · rw [Bool.eq_false_iff.mpr above]
      cases resolve mounts path with
      | none => rfl
      | some target => rfl

theorem fsExists_secondary : (fsExists (hart + 1) path s).1 = (s.globalFile path).isSome := by
  rw [fsExists, handleFsExists]
  cases global : s.global with
  | none =>
    rw [globalFile_none global path]
    rfl
  | some m =>
    change ([if (s.globalFile path).isSome then (1 : UInt8) else 0].head? == some 1) = _
    cases (s.globalFile path).isSome <;> rfl

theorem fsExists_agrees : (fsExists (hart + 1) path s).1 = (fsExists 0 path s).1 ↔ KnownAlike s path := by
  rw [fsExists_first, fsExists_secondary, KnownAlike, Bool.eq_iff_iff]
  cases s.vfs with
  | none => simp
  | some mounts => simp

/-! ## Syncing -/

theorem mem_flushed_sync (other : FileSystem) (s : Storage) : other ∈ (fs.sync s).2.1 ↔
    other = fs ∧ ((fs = .globalSfs ∧ s.global.isSome) ∨ ∃ id, fs = .sfs id) := by
  cases fs with
  | globalSfs =>
    change other ∈ (if s.global.isSome then [.globalSfs] else []) ↔ _
    cases s.global.isSome <;> simp
  | sfs id =>
    change other ∈ [.sfs id] ↔ _
    simp
  | p9 id =>
    change other ∈ [] ↔ _
    simp

theorem global_sync : (fs.sync s).2.2.global.isSome = s.global.isSome := by
  cases fs with
  | globalSfs =>
    change (s.onGlobal _ _ _).2.global.isSome = _
    rw [Storage.onGlobal]
    cases global : s.global with
    | none => simp [global]
    | some m => rfl
  | sfs id => rfl
  | p9 id => rfl

theorem mem_flushed_syncFrom (total : Nat) (s : Storage) (fs : FileSystem) :
    fs ∈ (syncFrom total mounts s).2.1 ↔
      fs ∈ s.reached mounts ∧ ((fs = .globalSfs ∧ s.global.isSome) ∨ ∃ id, fs = .sfs id) := by
  induction mounts generalizing total s with
  | nil => simp [syncFrom, Storage.reached]
  | cons mount mounts ih =>
    have first := mem_flushed_sync mount.fs fs s
    have stays := global_sync mount.fs s
    rw [syncFrom, Storage.reached]
    generalize mount.fs.sync s = outcome at first stays
    obtain ⟨result, _, _⟩ := outcome
    cases result with
    | error message =>
      rw [first, List.mem_singleton]
      exact and_congr_right fun same => by rw [same]
    | ok count =>
      rw [List.mem_append, first, ih, stays, List.mem_cons, or_and_right]
      exact or_congr_left (and_congr_right fun same => by rw [same])

theorem mem_flushed_legacy (s : Storage) (fs : FileSystem) :
    fs ∈ (syncLegacy s).2.1 ↔ fs = .globalSfs ∧ s.global.isSome := by
  change fs ∈ (if s.global.isSome then [.globalSfs] else []) ↔ _
  cases s.global.isSome <;> simp

theorem mem_flushed_secondary (s : Storage) (fs : FileSystem) :
    fs ∈ (fsSync (hart + 1) s).2.1 ↔ fs = .globalSfs ∧ s.global.isSome := by
  rw [← mem_flushed_legacy, fsSync, handleFsSync]
  generalize syncLegacy s = outcome
  obtain ⟨result, _, _⟩ := outcome
  cases result <;> rfl

variable {s} in
theorem mem_flushed_first {mounts : List (MountPoint FileSystem)} (vfs : s.vfs = some mounts) (fs : FileSystem) :
    fs ∈ (fsSync 0 s).2.1 ↔ fs ∈ s.reached mounts ∧ ((fs = .globalSfs ∧ s.global.isSome) ∨ ∃ id, fs = .sfs id) := by
  rw [← mem_flushed_syncFrom mounts 0, fsSync, syncWithVfsOrLegacy, vfs]
  rfl

theorem fsSync_agrees :
    (∀ fs, fs ∈ (fsSync (hart + 1) s).2.1 ↔ fs ∈ (fsSync 0 s).2.1) ↔ SyncsAlike s := by
  simp only [mem_flushed_secondary, SyncsAlike]
  cases vfs : s.vfs with
  | none =>
    have first : fsSync 0 s = syncLegacy s := by rw [fsSync, if_pos rfl, syncWithVfsOrLegacy, vfs]
    simp [first, mem_flushed_legacy]
  | some mounts =>
    simp only [mem_flushed_first vfs, Option.some.injEq, forall_eq']
    constructor
    · intro same
      constructor
      · intro present
        exact ((same .globalSfs).mp ⟨rfl, present⟩).1
      · intro id member
        exact nomatch ((same (.sfs id)).mpr ⟨member, .inr ⟨id, rfl⟩⟩).1
    · intro ⟨global, others⟩ fs
      constructor
      · rintro ⟨rfl, present⟩
        exact ⟨global present, .inl ⟨rfl, present⟩⟩
      · rintro ⟨member, here | ⟨id, rfl⟩⟩
        · exact here
        · exact absurd member (others id)

/-! ## The view of a hart -/

variable {s}

/-- What a read of the disk file system returned is its file. -/
theorem globalFile_of_run {path : String} {m m' : Fs.FsMem} {result : Option (List UInt8)}
    (present : s.global = some m) (ran : Fs.GlobalSfs.readFile path m = .ok result m') :
    s.globalFile path = result := by
  change (s.onGlobal _ _ _).1 = result
  rw [Storage.onGlobal, present]
  simp [runSfs, ran]

theorem blank_globalFile (blank : s.global = some Fs.blankState) (path : String) : s.globalFile path = none := by
  have spec : wp (Fs.GlobalSfs.readFile path) (fun result _ => result = none) (fun _ _ => False) Fs.blankState := by
    rw [Fs.GlobalSfs.readFile, Fs.onDevice, wp_zoom]
    exact wp_mono (Fs.FileSystemState.readFile_absent Fs.blankDevice_reliable (Fs.blankImage_absent path))
      (fun _ _ done => done.1)
      fun _ _ failure => failure
  obtain ⟨result, m, ran, rfl⟩ := wp_returns spec
  exact globalFile_of_run blank ran

end HavyOs.Vfs
