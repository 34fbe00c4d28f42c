import HavyOs.Fs.GlobalSfs

/-!
# The virtual file system

`fs/vfs.rs` over the file systems that can be mounted: the adapter `GlobalSfs` to `FS_STATE`
and `BLK_DEV`, an `Sfs` with a device of its own, and a directory of the host behind the 9P
driver. A mount holds a handle; the states the handles stand for are in `Storage`. What the
driver answers is a parameter. The calls return a result and the storage they leave; a sync
also returns which file systems were flushed.
-/

namespace HavyOs.Vfs

open Fs (FsMem FsM FileInfo)

/-! ## Paths -/

def startsWith (path start : String) : Bool := start.toList.isPrefixOf path.toList

/-- What is behind the first `n` characters. -/
def behind (path : String) (n : Nat) : String := String.ofList (path.toList.drop n)

/-- `trim_end_matches('/')`. -/
def trimEndSlashes (path : String) : String :=
  String.ofList (path.toList.reverse.dropWhile (· == '/')).reverse

/-! ## Mount points -/

structure MountPoint (φ : Type) where
  path : String
  fs : φ

section Routing

variable {φ : Type}

/-- The path within the mounted file system, if the mount is responsible for the path. -/
def MountPoint.relative (mount : MountPoint φ) (path : String) : Option String :=
  if path = mount.path then some "/"
  else if mount.path = "/" then some path
  else if startsWith path mount.path then
    let rest := behind path mount.path.length
    if startsWith rest "/" ∨ rest = "" then some (if rest = "" then "/" else rest) else none
  else none

/-- `resolve_mut`: the first mount that is responsible. -/
def resolve : List (MountPoint φ) → String → Option (φ × String)
  | [], _ => none
  | mount :: mounts, path =>
    match mount.relative path with
    | some relative => some (mount.fs, relative)
    | none => resolve mounts path

/-- The loop of `exists`: the path is a mount point or a directory above one. -/
def isMountDir (mounts : List (MountPoint φ)) (path : String) : Bool :=
  let normalized := trimEndSlashes path
  mounts.any fun mount => mount.path == normalized || startsWith mount.path (normalized ++ "/")

/-- The entry that a mount adds to the listing of a directory. -/
def MountPoint.entryIn (mount : MountPoint φ) (normalized : String) : Option FileInfo :=
  if mount.path = "/" then none
  else
    let listing := if normalized = "/" then "/" else Fs.FileSystemState.dirPath normalized
    if startsWith mount.path listing then
      let relative := behind mount.path listing.length
      let firstComponent := String.ofList (relative.toList.takeWhile (· != '/'))
      if firstComponent = "" then none
      else some ⟨if normalized = "/" then "/" ++ firstComponent ++ "/" else firstComponent ++ "/", 0, true⟩
    else none

/-- The loop of `list_dir` that adds the mount entries whose names are not there. -/
def addMissing (entries : List FileInfo) : List FileInfo → List FileInfo
  | [] => entries
  | mountEntry :: rest =>
    if entries.any fun entry => entry.name == mountEntry.name then addMissing entries rest
    else addMissing (entries ++ [mountEntry]) rest

end Routing

/-! ## File systems -/

/-- What the 9P driver answers for a host directory. -/
structure P9Driver where
  readFile : String → Option (List UInt8)
  walks : String → Bool
  /-- The names and whether they are directories. -/
  listDir : String → List (String × Bool)

/-- A mounted `dyn FileSystem`. -/
inductive FileSystem where
  | globalSfs
  | sfs (id : Nat)
  | p9 (id : Nat)
deriving DecidableEq, Repr

/-- The global state of the file systems. -/
structure Storage where
  vfs : Option (List (MountPoint FileSystem))
  /-- `FS_STATE` and `BLK_DEV`, if both are there. -/
  global : Option FsMem
  owned : Nat → FsMem
  drivers : Nat → P9Driver

/-- A call on one SFS; `failed` is what its caller makes of an error. -/
def runSfs {α : Type} (call : FsM α) (failed : String → α) (m : FsMem) : α × FsMem :=
  match call m with
  | .ok result m => (result, m)
  | .error message m => (failed message, m)

namespace Storage

variable {α : Type}

/-- A call on the file system behind `FS_STATE` and `BLK_DEV`. -/
def onGlobal (s : Storage) (call : FsM α) (failed : String → α) (absent : α) : α × Storage :=
  match s.global with
  | none => (absent, s)
  | some m =>
    let (result, m) := runSfs call failed m
    (result, { s with global := some m })

/-- A call on a mounted `Sfs`. -/
def onOwned (s : Storage) (id : Nat) (call : FsM α) (failed : String → α) : α × Storage :=
  let (result, m) := runSfs call failed (s.owned id)
  (result, { s with owned := Function.update s.owned id m })

end Storage

namespace FileSystem

def readFile (fs : FileSystem) (path : String) (s : Storage) : Option (List UInt8) × Storage :=
  match fs with
  | .globalSfs => s.onGlobal (Fs.GlobalSfs.readFile path) (fun _ => none) none
  | .sfs id => s.onOwned id (Fs.GlobalSfs.readFile path) fun _ => none
  | .p9 id => ((s.drivers id).readFile path, s)

/-- `exists`. -/
def pathExists (fs : FileSystem) (path : String) (s : Storage) : Bool × Storage :=
  match fs with
  | .globalSfs => s.onGlobal (Fs.GlobalSfs.pathExists path) (fun _ => false) false
  | .sfs id => s.onOwned id (Fs.GlobalSfs.pathExists path) fun _ => false
  | .p9 id => ((s.drivers id).walks path, s)

def listDir (fs : FileSystem) (path : String) (s : Storage) : List FileInfo × Storage :=
  match fs with
  | .globalSfs => s.onGlobal (Fs.GlobalSfs.listDir path) (fun _ => []) []
  | .sfs id => s.onOwned id (Fs.GlobalSfs.listDir path) fun _ => []
  -- the size would need another request
  | .p9 id => (((s.drivers id).listDir path).map fun entry => ⟨entry.1, 0, entry.2⟩, s)

/-- `sync`, with the file systems it flushed; syncing a host directory is left to the host. -/
def sync (fs : FileSystem) (s : Storage) : Except String Nat × List FileSystem × Storage :=
  match fs with
  | .globalSfs =>
    let (result, s') := s.onGlobal (Except.ok <$> Fs.GlobalSfs.sync) .error (.error "Filesystem not initialized")
    (result, if s.global.isSome then [.globalSfs] else [], s')
  | .sfs id =>
    let (result, s) := s.onOwned id (Except.ok <$> Fs.GlobalSfs.sync) .error
    (result, [.sfs id], s)
  | .p9 _ => (.ok 0, [], s)

end FileSystem

/-! ## The router -/

section Router

variable (mounts : List (MountPoint FileSystem))

def readFile (path : String) (s : Storage) : Option (List UInt8) × Storage :=
  match resolve mounts path with
  | some (fs, relative) => fs.readFile relative s
  | none => (none, s)

/-- `Vfs::exists`. -/
def pathExists (path : String) (s : Storage) : Bool × Storage :=
  if isMountDir mounts path then (true, s)
  else
    match resolve mounts path with
    | some (fs, relative) => fs.pathExists relative s
    | none => (false, s)

def listDir (path : String) (s : Storage) : List FileInfo × Storage :=
  let normalized := if path = "" then "/" else path
  let (entries, s) := match resolve mounts normalized with
    | some (fs, relative) => fs.listDir relative s
    | none => ([], s)
  (addMissing entries (mounts.filterMap fun mount => mount.entryIn normalized), s)

/-- The loop of `Vfs::sync`, which ends at the first error. -/
def syncFrom (total : Nat) : List (MountPoint FileSystem) → Storage → Except String Nat × List FileSystem × Storage
  | [], s => (.ok total, [], s)
  | mount :: mounts, s =>
    match mount.fs.sync s with
    | (.error message, flushed, s) => (.error message, flushed, s)
    | (.ok count, flushed, s) =>
      let (result, later, s) := syncFrom (total + count) mounts s
      (result, flushed ++ later, s)

def sync (s : Storage) : Except String Nat × List FileSystem × Storage := syncFrom 0 mounts s

end Router

end HavyOs.Vfs
