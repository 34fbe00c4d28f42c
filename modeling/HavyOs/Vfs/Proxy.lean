import HavyOs.Lib.Text
import HavyOs.Fs.FileMap
import HavyOs.Io.Router
import HavyOs.Vfs.Mounts

/-!
# File system calls by hart

`cpu/fs_proxy.rs`: on hart 0 a call goes to the virtual file system, or to `FS_STATE` where
there is none; on another hart it is sent through the I/O router to hart 0, where
`handle_block_request` answers it. Here the router delivers the answer; that it does is a
property of the router. Writes and the raw block requests of the handler are left out.
-/

namespace HavyOs.Vfs

open Lib (lines rsplitOnce parseUnsigned printDecimal)
open Fs (asBytes fromUtf8 endsWithSlash)
open Io (IoResult)

/-- `FileInfo` of `fs_proxy`. -/
structure ListedFile where
  name : String
  isDir : Bool
  size : Nat
deriving DecidableEq, Repr

def listed (entry : Fs.FileInfo) : ListedFile := ⟨entry.name, entry.isDir, entry.size.toNat⟩

/-! ## Hart 0 -/

variable (path : String) (s : Storage)

def readWithVfsOrLegacy : Option (List UInt8) × Storage :=
  match s.vfs with
  | some mounts => readFile mounts path s
  | none => s.onGlobal (Fs.GlobalSfs.readFile path) (fun _ => none) none

/-- The entries that `fs_list` and the handler of `FsList` get. -/
def listWithVfsOrLegacy : List Fs.FileInfo × Storage :=
  match s.vfs with
  | some mounts => listDir mounts path s
  | none => s.onGlobal (Fs.GlobalSfs.listDir path) (fun _ => []) []

def existsWithVfsOrLegacy : Bool × Storage :=
  match s.vfs with
  | some mounts => pathExists mounts path s
  | none =>
    let (data, s) := s.onGlobal (Fs.GlobalSfs.readFile path) (fun _ => none) none
    (data.isSome, s)

/-- The sync of `FS_STATE`, with the message if it is not there. -/
def syncLegacy : Except String Unit × List FileSystem × Storage :=
  let (result, s') := s.onGlobal ((fun _ => .ok ()) <$> Fs.GlobalSfs.sync) .error (.error "Filesystem not available")
  (result, if s.global.isSome then [.globalSfs] else [], s')

def syncWithVfsOrLegacy : Except String Unit × List FileSystem × Storage :=
  match s.vfs with
  | some mounts =>
    let (result, flushed, s) := sync mounts s
    (result.map fun _ => (), flushed, s)
  | none => syncLegacy s

/-! ## The handlers -/

def readAnswer : Option (List UInt8) → IoResult
  | some data => .ok data
  | none => .err "File not found"

/-- `FsRead`: only paths under `/mnt/` go to the virtual file system. -/
def handleFsRead : IoResult × Storage :=
  if startsWith path "/mnt/" then
    match s.vfs with
    | some mounts =>
      let (data, s) := readFile mounts path s
      (readAnswer data, s)
    | none => (.err "VFS not available", s)
  else
    match s.global with
    | some _ =>
      let (data, s) := s.onGlobal (Fs.GlobalSfs.readFile path) (fun _ => none) none
      (readAnswer data, s)
    | none => (.err "Filesystem not available", s)

def encodeEntry (entry : Fs.FileInfo) : List UInt8 :=
  asBytes entry.name ++ [0x3A] ++ asBytes (String.ofList (printDecimal entry.size.toNat)) ++ [0x0A]

/-- The answer to `FsList`. -/
def encodeList (entries : List Fs.FileInfo) : List UInt8 := entries.flatMap encodeEntry

def handleFsList : IoResult × Storage :=
  match s.vfs, s.global with
  | none, none => (.err "Filesystem not available", s)
  | _, _ =>
    let (entries, s) := listWithVfsOrLegacy path s
    (.ok (encodeList entries), s)

/-- `FsExists`, which looks at `FS_STATE` only. -/
def handleFsExists : IoResult × Storage :=
  match s.global with
  | some _ =>
    let (data, s) := s.onGlobal (Fs.GlobalSfs.readFile path) (fun _ => none) none
    (.ok [if data.isSome then 1 else 0], s)
  | none => (.err "Filesystem not available", s)

/-- `FsSync`, which syncs `FS_STATE` only. -/
def handleFsSync : IoResult × List FileSystem × Storage :=
  match syncLegacy s with
  | (.ok _, flushed, s) => (.ok [], flushed, s)
  | (.error message, flushed, s) => (.err message, flushed, s)

/-! ## The calls -/

def dataOf : IoResult → Option (List UInt8)
  | .ok data => some data
  | .err _ => none

variable (hartId : Nat)

def fsRead (path : String) (s : Storage) : Option (List UInt8) × Storage :=
  if hartId = 0 then readWithVfsOrLegacy path s
  else
    let (result, s) := handleFsRead path s
    (dataOf result, s)

/-- One line of the answer to `FsList`. -/
def decodeLine (line : List Char) : ListedFile :=
  match rsplitOnce ':' line with
  | some (name, size) =>
    ⟨String.ofList name, endsWithSlash (String.ofList name), (parseUnsigned (2 ^ 64) size).getD 0⟩
  | none => ⟨String.ofList line, endsWithSlash (String.ofList line), 0⟩

/-- What `fs_list` makes of the answer to `FsList`. -/
def decodeList (data : List UInt8) : List ListedFile :=
  ((lines ((fromUtf8 data).getD "").toList).filter fun line => !line.isEmpty).map decodeLine

def fsList (path : String) (s : Storage) : List ListedFile × Storage :=
  if hartId = 0 then
    let (entries, s) := listWithVfsOrLegacy path s
    (entries.map listed, s)
  else
    let (result, s) := handleFsList path s
    (((dataOf result).map decodeList).getD [], s)

def fsExists (path : String) (s : Storage) : Bool × Storage :=
  if hartId = 0 then existsWithVfsOrLegacy path s
  else
    let (result, s) := handleFsExists path s
    ((dataOf result).any fun data => data.head? == some 1, s)

/-- `fs_sync`, with the file systems that were flushed. -/
def fsSync (s : Storage) : Except String Unit × List FileSystem × Storage :=
  if hartId = 0 then syncWithVfsOrLegacy s
  else
    match handleFsSync s with
    | (.ok _, flushed, s) => (.ok (), flushed, s)
    | (.err message, flushed, s) => (.error message, flushed, s)

/-! ## The file systems that the kernel mounts -/

def someHost : P9Driver :=
  ⟨fun path => if path = "/f" then some [1] else none, fun path => path == "/f" || path == "/sub",
    fun _ => [("sub", true)]⟩

/-- A blank SFS at the root and the host at `/mnt/disk1`. -/
def hostMounted : Storage :=
  ⟨some [⟨"/mnt/disk1", .p9 0⟩, ⟨"/", .globalSfs⟩], some Fs.blankState, fun _ => Fs.blankState, fun _ => someHost⟩

end HavyOs.Vfs
