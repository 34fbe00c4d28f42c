import HavyOs.Lib.LockOrder
import HavyOs.Io.Router

/-!
# What the filesystem entry points do to the locks

The acquisitions and drops of `VFS_STATE`, `FS_STATE`, `BLK_DEV` and `NET_STATE` in
`fs_proxy.rs`, the filesystem calls of `syscall.rs`, the handlers of `io_router.rs`,
`GlobalSfs` of `fs/sfs.rs`, `httpd.rs` and `klogd.rs`. Each function is written with what
follows it, so that the locks of a function that is called stand between those of its
callers. What the branches look at (which state is there, which mount a path resolves to,
how often a loop goes round) is given with a call.
-/

namespace HavyOs.Lock

open Lib Io

inductive LockName where
  | vfsState
  | fsState
  | blkDev
  | netState
deriving DecidableEq, Repr

/-- The functions that acquire one of them. -/
inductive How where
  | read
  | write
  | tryWrite
  | lock
  | tryLock
deriving DecidableEq, Repr

/-- The function loops until it has the lock. -/
def How.waits : How → Bool
  | .read | .write | .lock => true
  | .tryWrite | .tryLock => false

/-- The locks of a function, and of what follows it. -/
abbrev Program := LockProgram LockName How

namespace Program

variable (lock : LockName) (rest : Program)

def read : Program := .acquire .read lock rest .done

def write : Program := .acquire .write lock rest .done

def tryWrite (taken refused : Program) : Program := .acquire .tryWrite lock taken refused

/-- `FS_STATE.write()` and `BLK_DEV.write()`, with both guards dropped after the work. -/
def fsBlk : Program :=
  write .fsState (write .blkDev (.release .blkDev (.release .fsState rest)))

end Program

open Program

/-! ## `GlobalSfs` -/

namespace GlobalSfs

def readFile : Program → Program := fsBlk

def listDir : Program → Program := fsBlk

/-- `exists`. -/
def fileExists : Program → Program := fsBlk

def isDir : Program → Program := fsBlk

def remove : Program → Program := fsBlk

def sync : Program → Program := fsBlk

def mkdir : Program → Program := fsBlk

/-- `write_file`, which tries again `rounds` times before its timeout. -/
def writeFile : (rounds : Nat) → Program → Program
  | 0, rest =>
      tryWrite .fsState (tryWrite .blkDev (.release .blkDev (.release .fsState rest)) (.release .fsState rest)) rest
  | rounds + 1, rest =>
    tryWrite .fsState
      (tryWrite .blkDev (.release .blkDev (.release .fsState rest)) (.release .fsState (writeFile rounds rest)))
      (writeFile rounds rest)

end GlobalSfs

/-! ## `Vfs` -/

/-- Where a path leads: to the mounted `GlobalSfs`, or anywhere else (another filesystem, no mount, or the mount
table itself). -/
inductive Target where
  | sfs
  | other
deriving DecidableEq, Repr

namespace Vfs

/-- The common body of the forwarding methods. -/
def forward (method : Program → Program) : Target → Program → Program
  | .sfs, rest => method rest
  | .other, rest => rest

def readFile : Target → Program → Program := forward GlobalSfs.readFile

def writeFile (rounds : Nat) : Target → Program → Program := forward (GlobalSfs.writeFile rounds)

def listDir : Target → Program → Program := forward GlobalSfs.listDir

/-- `exists`. -/
def fileExists : Target → Program → Program := forward GlobalSfs.fileExists

/-- `sync`, over the mounts up to the first error. -/
def sync : List Target → Program → Program
  | [], rest => rest
  | mount :: mounts, rest => forward GlobalSfs.sync mount (sync mounts rest)

end Vfs

/-! ## `fs_proxy` -/

/-- What the branches look at. -/
structure Facts where
  /-- The pointers and lengths that are passed give a string for the path, and data to write. -/
  readable : Bool
  fs : Bool
  blk : Bool
  vfs : Bool
  net : Bool
  target : Target
  /-- The mounts that `sync` reaches. -/
  mounts : List Target
  /-- How often `write_with_vfs_or_legacy` tries again. -/
  rounds : Nat
  /-- How often `GlobalSfs::write_file` tries again. -/
  sfsRounds : Nat
  /-- A request has come in whose answer is read from a file. -/
  answers : Bool
  /-- There are log entries to flush. -/
  queued : Bool
deriving Repr

variable (f : Facts) (hart : Nat) (rest : Program)

namespace FsProxy

/-- The common body of the functions that follow: `VFS_STATE` if it is set, and otherwise the legacy states. -/
def withVfsOrLegacy (vfs : Bool) (method : Program → Program) (rest : Program) : Program :=
  write .vfsState (if vfs then method (.release .vfsState rest) else .release .vfsState (fsBlk rest))

def readWithVfsOrLegacy : Program → Program := withVfsOrLegacy f.vfs (Vfs.readFile f.target)

def listWithVfsOrLegacy : Program → Program := withVfsOrLegacy f.vfs (Vfs.listDir f.target)

def existsWithVfsOrLegacy : Program → Program := withVfsOrLegacy f.vfs (Vfs.fileExists f.target)

def syncWithVfsOrLegacy : Program → Program := withVfsOrLegacy f.vfs (Vfs.sync f.mounts)

/-- `write_with_vfs_or_legacy` with `VFS_STATE` acquired. -/
def writeLocked : Program :=
  if f.vfs then Vfs.writeFile f.sfsRounds f.target (.release .vfsState rest)
  else .release .vfsState
    (tryWrite .fsState (tryWrite .blkDev (.release .blkDev (.release .fsState rest)) (.release .fsState rest)) rest)

/-- The loop of `write_with_vfs_or_legacy`. -/
def writeLoop : (rounds : Nat) → Program → Program
  | 0, rest => tryWrite .vfsState (writeLocked f rest) rest
  | rounds + 1, rest => tryWrite .vfsState (writeLocked f rest) (writeLoop rounds rest)

def writeWithVfsOrLegacy : Program → Program := writeLoop f f.rounds

/-- The common body of the public functions: a secondary hart hands the request to hart 0 and takes none of the
locks itself. -/
def onHart (direct : Program → Program) (rest : Program) : Program := if hart = 0 then direct rest else rest

def fsRead (f : Facts) : Program → Program := onHart hart (readWithVfsOrLegacy f)

def fsWrite (f : Facts) : Program → Program := onHart hart (writeWithVfsOrLegacy f)

def fsList (f : Facts) : Program → Program := onHart hart (listWithVfsOrLegacy f)

def fsExists (f : Facts) : Program → Program := onHart hart (existsWithVfsOrLegacy f)

def fsSync (f : Facts) : Program → Program := onHart hart (syncWithVfsOrLegacy f)

end FsProxy

/-! ## The system calls -/

namespace Syscall

open FsProxy

def sysFsExists (f : Facts) (rest : Program) : Program := if f.readable then fsExists hart f rest else rest

def sysFsRead (f : Facts) (rest : Program) : Program := if f.readable then fsRead hart f rest else rest

def sysFsWrite (f : Facts) (rest : Program) : Program := if f.readable then fsWrite hart f rest else rest

def sysFsList (f : Facts) : Program → Program := fsList hart f

def sysFsListDir (f : Facts) (rest : Program) : Program := if f.readable then fsList hart f rest else rest

def sysFsStat : Program := if f.readable then fsBlk rest else rest

def sysFsRemove : Program := rest

def sysFsMkdir : Program := if f.readable then fsBlk rest else rest

/-- `sys_fs_is_dir`, which lists the root while it holds both read guards. -/
def sysFsIsDir (f : Facts) (rest : Program) : Program :=
  if f.readable then
    let guarded : Program := .release .blkDev (.release .fsState rest)
    read .fsState (read .blkDev (if f.fs ∧ f.blk then fsList hart f guarded else guarded))
  else rest

end Syscall

/-! ## The handlers of the router -/

namespace Handler

def handleBlockRequest : IoOp → Program → Program
  | .read _ _, rest => read .fsState (read .blkDev (.release .blkDev (.release .fsState rest)))
  | .flush, rest => fsBlk rest
  | .status, rest => read .blkDev (.release .blkDev rest)
  | .fsRead path, rest =>
    if path.startsWith "/mnt/" then
      write .vfsState (if f.vfs then Vfs.readFile f.target (.release .vfsState rest) else .release .vfsState rest)
    else fsBlk rest
  | .fsWrite _ _, rest =>
    write .vfsState
      (if f.vfs then Vfs.writeFile f.sfsRounds f.target (.release .vfsState rest) else .release .vfsState (fsBlk rest))
  | .fsList _, rest =>
    -- here the guard of `VFS_STATE` lives to the end of both branches
    write .vfsState (if f.vfs then Vfs.listDir f.target (.release .vfsState rest) else fsBlk (.release .vfsState rest))
  | .fsExists _, rest => fsBlk rest
  | .fsSync, rest => fsBlk rest
  | _, rest => rest

def handleNetworkRequest : IoOp → Program → Program
  | .status, rest => .acquire .lock .netState (.release .netState rest) .done
  | .netPoll _, rest => .acquire .lock .netState (.release .netState rest) .done
  | _, rest => rest

/-- `handle_request`; the display, the serial line and audio take none of the locks. -/
def handleRequest : DeviceType → IoOp → Program → Program
  | .mmc, op | .virtioBlock, op => handleBlockRequest f op
  | .network, op | .virtioNet, op => handleNetworkRequest op
  | _, _ => id

end Handler

/-! ## The services -/

/-- `read_from_fs` of `httpd`. -/
def readFromFs : Program :=
  read .fsState (if f.fs then write .blkDev (.release .blkDev (.release .fsState rest)) else .release .fsState rest)

/-- `tick_impl` of `httpd`: at most one connection is handled, with `NET_STATE` held. -/
def httpdTick : Program :=
  .acquire .tryLock .netState
    (if f.net ∧ f.answers then readFromFs f (.release .netState rest) else .release .netState rest) rest

/-- `flush_logs` of `klogd`: both guards are dropped, and taken again. -/
def flushLogs : Program :=
  if f.queued then
    write .fsState (write .blkDev
      (if f.fs ∧ f.blk then .release .fsState (.release .blkDev (fsBlk rest))
      else .release .blkDev (.release .fsState rest)))
  else rest

/-! ## The entry points -/

inductive Entry where
  | fsRead
  | fsWrite
  | fsList
  | fsExists
  | fsSync
  | sysFsExists
  | sysFsRead
  | sysFsWrite
  | sysFsList
  | sysFsListDir
  | sysFsStat
  | sysFsRemove
  | sysFsMkdir
  | sysFsIsDir
  | handleRequest (device : DeviceType) (op : IoOp)
  | sfsReadFile
  | sfsWriteFile
  | sfsListDir
  | sfsExists
  | sfsIsDir
  | sfsRemove
  | sfsSync
  | sfsMkdir
  | httpdTick
  | flushLogs
deriving DecidableEq, Repr

/-- What an entry point does to the locks on a hart. -/
def Entry.program (f : Facts) : Entry → Program
  | .fsRead => FsProxy.fsRead hart f .done
  | .fsWrite => FsProxy.fsWrite hart f .done
  | .fsList => FsProxy.fsList hart f .done
  | .fsExists => FsProxy.fsExists hart f .done
  | .fsSync => FsProxy.fsSync hart f .done
  | .sysFsExists => Syscall.sysFsExists hart f .done
  | .sysFsRead => Syscall.sysFsRead hart f .done
  | .sysFsWrite => Syscall.sysFsWrite hart f .done
  | .sysFsList => Syscall.sysFsList hart f .done
  | .sysFsListDir => Syscall.sysFsListDir hart f .done
  | .sysFsStat => Syscall.sysFsStat f .done
  | .sysFsRemove => Syscall.sysFsRemove .done
  | .sysFsMkdir => Syscall.sysFsMkdir f .done
  | .sysFsIsDir => Syscall.sysFsIsDir hart f .done
  | .handleRequest device op => Handler.handleRequest f device op .done
  | .sfsReadFile => GlobalSfs.readFile .done
  | .sfsWriteFile => GlobalSfs.writeFile f.sfsRounds .done
  | .sfsListDir => GlobalSfs.listDir .done
  | .sfsExists => GlobalSfs.fileExists .done
  | .sfsIsDir => GlobalSfs.isDir .done
  | .sfsRemove => GlobalSfs.remove .done
  | .sfsSync => GlobalSfs.sync .done
  | .sfsMkdir => GlobalSfs.mkdir .done
  | .httpdTick => Lock.httpdTick f .done
  | .flushLogs => Lock.flushLogs f .done

end HavyOs.Lock
