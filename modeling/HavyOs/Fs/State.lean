import HavyOs.Fs.BufferCache
import HavyOs.Fs.Layout

/-!
# `FileSystemState`

The operations of `lock/state/fs.rs`. Lookups and file reads go to the device and
run on it alone; whatever changes a sector goes through the cache. The bitmap is the
first bitmap sector, held in memory and written back by `sync` only.
-/

namespace HavyOs.Fs

open HavyOs.Lib List

structure FileSystemState where
  bitmapCache : Block
  bitmapDirty : Bool
  cache : BufferCache

/-- What a filesystem call runs on: the filesystem, the device, and the global
`CACHE_ACCESS_COUNTER`. -/
structure FsMem where
  fs : FileSystemState
  dev : BlockDev
  counter : Nat

abbrev DevM := EStateM String BlockDev

abbrev FsM := EStateM String FsMem

structure FileInfo where
  name : String
  size : UInt32
  isDir : Bool

namespace FsMem

variable (m : FsMem)

/-- The part the cache works on. -/
def mem : CacheMem := ⟨m.fs.cache, m.dev, m.counter⟩

def setMem (mem : CacheMem) : FsMem :=
  { fs := { m.fs with cache := mem.cache }, dev := mem.dev, counter := mem.counter }

def marking (k : Nat) : FsMem :=
  { m with fs := { m.fs with bitmapCache := mark m.fs.bitmapCache k, bitmapDirty := true } }

def view : Nat → Block := m.mem.view

def disk : Nat → Block := m.dev.disk

variable (m : FsMem) (mem : CacheMem)

@[simp] theorem mem_setMem : (m.setMem mem).mem = mem := rfl

@[simp] theorem dev_setMem : (m.setMem mem).dev = mem.dev := rfl

@[simp] theorem bitmapCache_setMem : (m.setMem mem).fs.bitmapCache = m.fs.bitmapCache := rfl

@[simp] theorem bitmapDirty_setMem : (m.setMem mem).fs.bitmapDirty = m.fs.bitmapDirty := rfl

end FsMem

def onDevice {α : Type} (x : DevM α) : FsM α := zoom FsMem.dev (fun dev m => { m with dev := dev }) x

def onCache {α : Type} (x : CacheM α) : FsM α := zoom FsMem.mem (fun mem m => m.setMem mem) x

/-- `read_mut`, an assignment through the reference, `mark_dirty`. -/
def BufferCache.modifyBlock (sector : Nat) (f : Block → Block) : CacheM Unit := do
  let _ ← readMut sector
  edit sector f
  markDirty sector

namespace FileSystemState

def init : DevM (Option FileSystemState) := do
  match ← attempt (BlockDev.readSector secSuper) with
  | none => pure none
  | some buf =>
    if fromLeBytes (slice buf 0 4) != magic then pure none
    else
      match ← attempt (BlockDev.readSector secMapStart) with
      | none => pure none
      | some buf => pure (some ⟨buf, false, BufferCache.new⟩)

def countOnes (byte : UInt8) : Nat := (range 8).countP byte.toNat.testBit

/-- `disk_stats`: the blocks in use and all blocks, by the first bitmap sector. -/
def diskStats (fs : FileSystemState) : Nat × Nat :=
  ((fs.bitmapCache.toList.map countOnes).sum, fs.bitmapCache.toList.length * 8)

/-- Write the bitmap to its sector if it has changed. -/
def syncBitmap : FsM Unit := do
  let m ← get
  if m.fs.bitmapDirty then do
    onDevice (BlockDev.writeSector secMapStart m.fs.bitmapCache)
    modify fun m => { m with fs := { m.fs with bitmapDirty := false } }
  else pure ()

/-- `FileSystemState::sync`: the bitmap first, then the cached blocks. -/
def sync : FsM Nat := do
  syncBitmap
  onCache BufferCache.sync

/-! ## Lookups on the device -/

/-- The scan both lookups make: sector by sector, entry by entry, up to the first entry
that satisfies `p`; a failed read ends it without a result. -/
def scan (p : DirEntry → Bool) : List (Fin secDirCount) → DevM (Option Slot)
  | [] => pure none
  | i :: rest => do
    match ← attempt (BlockDev.readSector (secDirStart + i.val)) with
    | none => pure none
    | some buf =>
      match (finRange entriesPerSector).find? fun j => p (entryAt buf j) with
      | some j => pure (some ⟨i, j⟩)
      | none => scan p rest

def findEntryPos (name : String) : DevM (Option Slot) := scan (DirEntry.isNamed name) (finRange secDirCount)

def findFreeDirEntry : DevM (Option Slot) := scan (fun e => !e.used) (finRange secDirCount)

def findEntry (name : String) : DevM (Option DirEntry) := do
  match ← findEntryPos name with
  | none => pure none
  | some slot =>
    match ← attempt (BlockDev.readSector slot.sector) with
    | none => pure none
    | some buf => pure (some (entryAt buf slot.index))

/-- The loop of `read_file`: `next` is the block to read, `data` what was read so far. -/
def readChain (size : Nat) (next : UInt32) (data : List UInt8) : DevM (Option (List UInt8)) :=
  if _more : next ≠ 0 ∧ data.length < size then do
    match ← attempt (BlockDev.readSector next.toNat) with
    | none => pure none
    | some buf =>
      let nextPtr := fromLeBytes (slice buf 0 4)
      let chunk := min (size - data.length) 508
      readChain size nextPtr (data ++ slice buf 4 chunk)
  else pure (some data)
termination_by size - data.length
decreasing_by
  have chunk : 4 + min (size - data.length) 508 ≤ 512 := by omega
  rw [length_append, slice_length buf chunk]
  omega

variable (filename : String)

def readFile : DevM (Option (List UInt8)) := do
  match ← findEntry filename with
  | none => pure none
  | some entry => readChain entry.size.toNat entry.head []

/-! ## Changes through the cache -/

def allocBlock : FsM (Option UInt32) := do
  let m ← get
  match firstFree m.fs.bitmapCache with
  | none => pure none
  | some k =>
    set (m.marking k)
    pure (some (UInt32.ofNat k))

def linkBlockCached (prev next : UInt32) : FsM Unit :=
  onCache (BufferCache.modifyBlock prev.toNat fun buf => patch buf 0 (toLeBytes next))

/-- The cache writes of one round of `write_file`: link the block before, if there is one,
and write the block itself. -/
def appendBlock (prev current : UInt32) (buf : Block) : FsM Unit := do
  (if prev != 0 then linkBlockCached prev current else pure ())
  onCache (BufferCache.write current.toNat buf)

/-- The loop of `write_file`, which returns the head of the chain. -/
def writeChain (remaining : List UInt8) (head prev : UInt32) : FsM UInt32 :=
  if _done : remaining = [] then pure head
  else do
    match ← allocBlock with
    | none => throw "Disk full"
    | some current =>
      let head := if head == 0 then current else head
      let len := min remaining.length 508
      appendBlock prev current (patch zeroBlock 4 (remaining.take len))
      writeChain (remaining.drop len) head current
termination_by remaining.length
decreasing_by
  have := length_pos_iff.mpr _done
  rw [length_drop]
  omega

/-- The place `write_file` writes its entry to: `find_entry_pos` or else `find_free_dir_entry`. -/
def selectEntry : FsM Slot := do
  match ← onDevice (findEntryPos filename) with
  | some slot => pure slot
  | none =>
    match ← onDevice findFreeDirEntry with
    | some slot => pure slot
    | none => throw "Root dir full"

def writeFile (data : List UInt8) : FsM Unit := do
  let slot ← selectEntry filename
  let head ← writeChain data 0 0
  let entry : DirEntry := ⟨fixedName (asBytes filename), UInt32.ofNat data.length, head⟩
  onCache (BufferCache.modifyBlock slot.sector fun buf => putEntry buf slot.index entry.bytes)

/-- The entries of a directory sector as `list_dir` reports them. -/
@[irreducible] def listSector (buf : Block) : List FileInfo :=
  (finRange entriesPerSector).filterMap fun j =>
    let entry := entryAt buf j
    if entry.used then some ⟨(fromUtf8 entry.rawName).getD "???", entry.size, false⟩ else none

/-- The loop of `list_dir`, `empty` being the number of consecutive empty sectors so far. -/
def listFrom (empty : Nat) : List (Fin secDirCount) → FsM (List FileInfo)
  | [] => pure []
  | i :: rest => do
    match ← attempt (onCache (BufferCache.readMut (secDirStart + i.val))) with
    | none => pure []
    | some buf =>
      let found := listSector buf
      if found.isEmpty then
        if 2 ≤ empty + 1 then pure [] else listFrom (empty + 1) rest
      else do
        let more ← listFrom 0 rest
        pure (found ++ more)

/-- `list_dir`, which ignores its path. -/
def listDir (_path : String) : FsM (List FileInfo) := listFrom 0 (finRange secDirCount)

variable (path : String)

/-- The path `mkdir`, `exists` and `is_dir` look for: `path` with a slash at its end. -/
def dirPath : String := if endsWithSlash path then path else path.push '/'

def mkdir : FsM Unit := do
  match ← onDevice (findEntryPos (dirPath path)) with
  | some _ => throw "Directory already exists"
  | none => writeFile (dirPath path) (asBytes "DIR")

/-- The check `remove` makes of a path that ends with a slash. -/
def checkChildren : FsM Unit :=
  if endsWithSlash path then do
    let files ← listDir path
    if files.isEmpty then pure () else throw "Directory not empty"
  else pure ()

def remove : FsM Unit := do
  match ← onDevice (findEntryPos path) with
  | none => throw "File not found"
  | some slot =>
    checkChildren path
    onCache (BufferCache.modifyBlock slot.sector fun buf => putEntry buf slot.index noEntry)
    let _ ← onCache BufferCache.sync

/-- `exists`: an entry with the name, or one that makes the path a directory. -/
def pathExists : FsM Bool := do
  if path = "/" then pure true
  else
    match ← onDevice (findEntryPos path) with
    | some _ => pure true
    | none =>
      if endsWithSlash path then pure false
      else
        match ← onDevice (findEntryPos (dirPath path)) with
        | some _ => pure true
        | none =>
          let files ← listDir "/"
          pure (files.any fun file => (dirPath path).toList.isPrefixOf file.name.toList)

def isDir : FsM Bool := do
  if endsWithSlash path then do
    let slot ← onDevice (findEntryPos path)
    pure slot.isSome
  else do
    let files ← listDir "/"
    pure (files.any fun file => (dirPath path).toList.isPrefixOf file.name.toList)

end FileSystemState

end HavyOs.Fs
