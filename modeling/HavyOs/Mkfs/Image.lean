import HavyOs.Lib.Bytes
import HavyOs.Fs.Layout

/-!
# `mkfs`

The host tool of `mkfs/src/main.rs`, which builds a disk image: it writes a superblock,
imports the files of a source tree in six passes and the userspace binaries in a seventh,
and writes the bitmap last. The output file grows when it is written behind its end. The
host's answers are not determined by the program: the directories it lists are a parameter,
and the output file carries the verdicts of its future calls. `mkfs` repeats the layout
constants of the kernel, so they have definitions of their own here.

The output file also keeps a log of the stretches written to it, latest first, each with
the one it was written for. The program does not read the log.
-/

namespace HavyOs.Mkfs

open HavyOs.Lib HavyOs.Fs

abbrev sectorSize : Nat := 512

def magic : UInt32 := 0x53465331

abbrev secSuper : Nat := 0

abbrev secMapStart : Nat := 1

abbrev secMapCount : Nat := 64

abbrev secDirStart : Nat := 65

abbrev secDataStart : Nat := 129

abbrev dirEntrySize : Nat := 72

abbrev entriesPerSector : Nat := 7

/-- The bits of the bitmap, one for each sector. -/
abbrev mapBits : Nat := secMapCount * sectorSize * 8

/-! ## The output file -/

/-- Whom a stretch of the image is written for; files count from zero in the order of import. -/
inductive Owner where
  | superblock
  | bitmap
  | data (file : Nat)
  | entry (file : Nat)
deriving DecidableEq

/-- A stretch of the image that was written. -/
structure Stretch where
  owner : Owner
  start : Nat
  length : Nat

/-- `std::fs::File` as `mkfs` uses it. -/
structure ImageFile where
  bytes : Nat → UInt8
  length : Nat
  position : Nat
  log : List Stretch
  refuses : Nat → Bool
  calls : Nat

inductive Failure where
  | io (error : String)
  | panic (message : String)

structure Builder where
  file : ImageFile
  bitmap : Vector UInt8 (secMapCount * sectorSize)

abbrev MkfsM := EStateM Failure Builder

namespace ImageFile

/-- The sectors a device with this image has. -/
def disk (f : ImageFile) (k : Nat) : Block := window f.bytes (k * 512) 512

def create (refuses : Nat → Bool) : ImageFile := ⟨fun _ => 0, 0, 0, [], refuses, 0⟩

/-- The file after `bytes` were written at its position. -/
def append (f : ImageFile) (owner : Owner) (bytes : List UInt8) : ImageFile :=
  { f with
    bytes := overwrite f.bytes f.position bytes
    length := max f.length (f.position + bytes.length)
    position := f.position + bytes.length
    log := ⟨owner, f.position, bytes.length⟩ :: f.log }

end ImageFile

/-- A call to the host, which may refuse it; otherwise `f` is done to the file. -/
def onFile (f : ImageFile → ImageFile) : MkfsM Unit := do
  let s ← get
  set { s with file := { s.file with calls := s.file.calls + 1 } }
  if s.file.refuses s.file.calls then throw (.io "I/O error")
  else set { s with file := f { s.file with calls := s.file.calls + 1 } }

/-- `file.set_len(..)` on a file that is no longer than that. -/
def setLen (length : Nat) : MkfsM Unit := onFile fun f => { f with length := length }

def seek (offset : Nat) : MkfsM Unit := onFile fun f => { f with position := offset }

def writeAll (owner : Owner) (bytes : List UInt8) : MkfsM Unit := onFile fun f => f.append owner bytes

/-! ## Files and entries -/

def findFreeSector : MkfsM (Option UInt32) := do
  let s ← get
  match firstFree s.bitmap with
  | none => pure none
  | some k =>
    set { s with bitmap := mark s.bitmap k }
    pure (some (UInt32.ofNat k))

/-- `find_free_sector(bitmap).expect("Disk full")`. -/
def expectFreeSector : MkfsM UInt32 := do
  match ← findFreeSector with
  | none => throw (.panic "Disk full")
  | some sector => pure sector

/-- The link of a block: zero when nothing remains behind it. -/
def nextSector (remaining : List UInt8) : MkfsM UInt32 := if remaining.isEmpty then pure 0 else expectFreeSector

variable (file : Nat)

/-- One block: the link, the chunk, and zeroes up to the end of the sector. -/
def writeBlock (current next : UInt32) (chunk : List UInt8) : MkfsM Unit := do
  seek (current.toNat * sectorSize)
  writeAll (.data file) (toLeBytes next)
  writeAll (.data file) chunk
  (if chunk.length < 508 then writeAll (.data file) (List.replicate (508 - chunk.length) 0) else pure ())

/-- The loop of `write_data`. -/
def writeChunks (remaining : List UInt8) (current : UInt32) : MkfsM Unit :=
  if _done : remaining = [] then pure ()
  else do
    let chunkLen := min remaining.length 508
    let rest := remaining.drop chunkLen
    let next ← nextSector rest
    writeBlock file current next (remaining.take chunkLen)
    writeChunks rest next
termination_by remaining.length
decreasing_by
  have := List.length_pos_iff.mpr _done
  rw [List.length_drop]
  omega

/-- `write_data`; `file` only names the writes in the log. -/
def writeData (data : List UInt8) : MkfsM UInt32 :=
  if data.isEmpty then pure 0
  else do
    let head ← expectFreeSector
    writeChunks file data head
    pure head

variable (idx : Nat)

/-- Where the entry with index `idx` begins. -/
def entryOffset : Nat :=
  (secDirStart + idx / entriesPerSector) * sectorSize + idx % entriesPerSector * dirEntrySize

variable (name : String)

def writeDirEntry (size head : UInt32) : MkfsM Unit := do
  seek (entryOffset idx)
  let len := (asBytes name).length
  if len ≤ 64 then do
    writeAll (.entry idx) (asBytes name ++ List.replicate (64 - len) 0)
    writeAll (.entry idx) (toLeBytes size)
    writeAll (.entry idx) (toLeBytes head)
  else throw (.panic s!"range end index {len} out of range for slice of length 64")

/-- The calls an import pass makes for a file it takes. -/
def importFile (data : List UInt8) : MkfsM Unit := do
  let head ← writeData idx data
  writeDirEntry idx name (UInt32.ofNat data.length) head

/-! ## The host's directories -/

abbrev Path := List String

/-- An entry that `read_dir` yields: its name unless that is not UTF-8, its kind, and what
`fs::read` answers. -/
structure HostEntry where
  name : Option String
  isDir : Bool
  isFile : Bool
  data : Except String (List UInt8)

structure Host where
  pathExists : Path → Bool
  isDir : Path → Bool
  readDir : Path → Except String (List (Except String HostEntry))

/-- What a pass makes of an entry: a file to import under a name, nothing, or a failure. -/
abbrev Selection := Except Failure (Option (String × List UInt8))

variable (entry : HostEntry)

def HostEntry.read : Except Failure (List UInt8) := entry.data.mapError .io

/-- The loop of the import passes, which differ in the entries they select. -/
def importEntries (select : HostEntry → Selection) : List (Except String HostEntry) → Nat → MkfsM Nat
  | [], dirIdx => pure dirIdx
  | .error error :: _, _ => throw (.io error)
  | .ok entry :: rest, dirIdx =>
    match select entry with
    | .error failure => throw failure
    | .ok none => importEntries select rest dirIdx
    | .ok (some (name, data)) => do
      importFile dirIdx name data
      importEntries select rest (dirIdx + 1)

def importFrom (select : HostEntry → Selection) (host : Host) (dir : Path) (dirIdx : Nat) : MkfsM Nat :=
  match host.readDir dir with
  | .error error => throw (.io error)
  | .ok entries => importEntries select entries dirIdx

/-- The files of a directory, under names that start with `namePrefix`. -/
def selectFile (namePrefix : String) (entry : HostEntry) : Selection :=
  if entry.isDir then pure none
  else if entry.isFile then
    match entry.name with
    | none => throw (.panic "called `Option::unwrap()` on a `None` value")
    | some baseName =>
      let filename := if namePrefix.isEmpty then baseName else namePrefix ++ baseName
      if (asBytes filename).length > 63 then pure none
      else do
        let data ← entry.read
        pure (some (filename, data))
  else pure none

def importDirectory (host : Host) (dir : Path) (dirIdx : Nat) (namePrefix : String) : MkfsM Nat :=
  importFrom (selectFile namePrefix) host dir dirIdx

def selectNative : Selection :=
  if !entry.isFile then pure none
  else
    let binName := entry.name.getD ""
    if binName.isEmpty || binName.startsWith "lib" || binName.contains '-' || binName.contains '.' || binName == "mkfs"
        || binName == "deps" || binName == "kernel" || binName == "wasmrun" then pure none
    else do
      let data ← entry.read
      if data.length < 4 || data.take 4 != [0x7f, 0x45, 0x4c, 0x46] then pure none
      else
        let fsPath := "/usr/bin/" ++ binName
        if (asBytes fsPath).length > 63 then pure none else pure (some (fsPath, data))

def importNativeBinaries (host : Host) (dir : Path) (dirIdx : Nat) :
    MkfsM Nat := importFrom selectNative host dir dirIdx

/-- `Path::file_stem` and `Path::extension` of a file name: it is split at its last dot,
unless that is its first character or there is none. -/
def splitAtDot : String × Option String :=
  let after := (name.toList.reverse.takeWhile (· != '.')).reverse
  let before := name.toList.take (name.length - after.length - 1)
  if before.isEmpty || name == ".." then (name, none) else (String.ofList before, some (String.ofList after))

def selectWasm : Selection :=
  if !entry.isFile then pure none
  else
    let parts := entry.name.map splitAtDot
    if parts.bind Prod.snd != some "wasm" then pure none
    else
      let binName := (parts.map Prod.fst).getD ""
      if binName.isEmpty || binName.startsWith "lib" || binName.contains '-' || binName == "mkfs" ||
          binName == "riscv_vm" then
        pure none
      else
        let fsPath := "/usr/bin/" ++ binName
        if (asBytes fsPath).length > 63 then pure none
        else do
          let data ← entry.read
          pure (some (fsPath, data))

def importWasmBinaries (host : Host) (dir : Path) (dirIdx : Nat) : MkfsM Nat := importFrom selectWasm host dir dirIdx

/-! ## `main` -/

structure Args where
  dir : Option Path
  size : UInt64

variable (args : Args)

/-- `args.size * 1024 * 1024`, which wraps in the release build. -/
def Args.bytes : UInt64 := args.size * 1024 * 1024

def Args.totalSectors : UInt64 := args.bytes / 512

/-- A pass over a subdirectory of the source tree, if there are such. -/
def importPass (host : Host) (sub : Path) (namePrefix : String) (dirIdx : Nat) : MkfsM Nat :=
  match args.dir with
  | none => pure dirIdx
  | some srcDir =>
    if host.pathExists (srcDir ++ sub) then importDirectory host (srcDir ++ sub) dirIdx namePrefix else pure dirIdx

def nativePath : Path := ["target", "riscv64gc-unknown-none-elf", "release"]

def wasmPath : Path := ["target", "wasm32-unknown-unknown", "release"]

/-- The pass over the build products: native ones, or else WebAssembly. -/
def importBinaries (host : Host) (dirIdx : Nat) : MkfsM Nat :=
  if host.pathExists nativePath && host.isDir nativePath then importNativeBinaries host nativePath dirIdx
  else if host.pathExists wasmPath && host.isDir wasmPath then importWasmBinaries host wasmPath dirIdx
  else pure dirIdx

/-- Steps 1 and 2: the superblock, and the bitmap with the sectors in front of the data marked. -/
def prepare : MkfsM Unit := do
  setLen args.bytes.toNat
  seek (secSuper * sectorSize)
  writeAll .superblock (toLeBytes magic)
  writeAll .superblock (toLeBytes args.totalSectors.toUInt32)
  modify fun s => { s with bitmap := markBelow (Vector.replicate _ 0) secDataStart }

/-- Steps 3 to 8: the passes, each going on with the index the one before ended with. -/
def importAll (host : Host) (dirIdx : Nat) : MkfsM Nat := do
  let dirIdx ← importPass args host [] "" dirIdx
  let dirIdx ← importPass args host ["usr", "bin"] "/usr/bin/" dirIdx
  let dirIdx ← importPass args host ["home"] "/home/" dirIdx
  let dirIdx ← importPass args host ["var", "log"] "/var/log/" dirIdx
  let dirIdx ← importPass args host ["etc", "init.d"] "/etc/init.d/" dirIdx
  let dirIdx ← importPass args host ["etc", "httpd", "html"] "/etc/httpd/html/" dirIdx
  importBinaries host dirIdx

/-- Step 9: the bitmap. -/
def finish : MkfsM Unit := do
  seek (secMapStart * sectorSize)
  let s ← get
  writeAll .bitmap s.bitmap.toList

/-- `main`, which reports the number of files. -/
def main (host : Host) : MkfsM Nat := do
  prepare args
  let dirIdx ← importAll args host 0
  finish
  pure dirIdx

/-- The state in which `main` starts, its output file created. -/
def start (refuses : Nat → Bool) : Builder := ⟨ImageFile.create refuses, Vector.replicate _ 0⟩

end HavyOs.Mkfs
