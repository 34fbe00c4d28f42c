import HavyOs.Lib.Outcome
import HavyOs.Lib.Slice
import HavyOs.Lib.Wire
import Mathlib.Algebra.Group.Nat.Defs
import Mathlib.Order.Bounds.Basic
import Mathlib.Tactic.Common

/-!
# The ELF loader

`load_elf` of `elf_loader.rs`. The arithmetic is that of the release build, on 64 bits with
wrap-around. The program headers are read through a raw pointer, so a header may be read from
memory behind the file: a `&[u8]` is here what it is on the machine, the memory seen from a
pointer together with a length. The heap is a parameter.
-/

namespace HavyOs.Elf

open HavyOs.Lib

/-- A `&[u8]`: the memory as seen from its pointer, and its length, at most `isize::MAX`. -/
structure ByteSlice where
  memory : UInt64 → UInt8
  length : Nat
  bound : length < 2 ^ 63

variable (file : ByteSlice) (offset : UInt64)

/-- The `n` bytes that `read_unaligned` takes at an offset from the pointer. -/
def ByteSlice.bytesAt (n : Nat) : List UInt8 :=
  (List.range n).map fun j => file.memory (offset + UInt64.ofNat j)

def ByteSlice.u16At : UInt16 := UInt16.ofNat (fromLe (file.bytesAt offset 2))

def ByteSlice.u32At : UInt32 := UInt32.ofNat (fromLe (file.bytesAt offset 4))

def ByteSlice.u64At : UInt64 := UInt64.ofNat (fromLe (file.bytesAt offset 8))

def elfMagic : List UInt8 := [0x7f, 0x45, 0x4c, 0x46]

def elfClass64 : UInt8 := 2

def elfData2Lsb : UInt8 := 1

def emRiscv : UInt16 := 0xf3

def ptLoad : UInt32 := 1

def u64Max : UInt64 := 0xffffffffffffffff

abbrev elfHeaderSize : Nat := 64

abbrev programHeaderSize : Nat := 56

/-- `Elf64Header`, with the fields the loader uses. -/
structure Elf64Header where
  eIdent : List UInt8
  eMachine : UInt16
  eEntry : UInt64
  ePhoff : UInt64
  ePhentsize : UInt16
  ePhnum : UInt16

/-- `Elf64ProgramHeader`, with the fields the loader uses. -/
structure Elf64ProgramHeader where
  pType : UInt32
  pOffset : UInt64
  pVaddr : UInt64
  pFilesz : UInt64
  pMemsz : UInt64
deriving DecidableEq

def ByteSlice.header : Elf64Header where
  eIdent := file.bytesAt 0 16
  eMachine := file.u16At 18
  eEntry := file.u64At 24
  ePhoff := file.u64At 32
  ePhentsize := file.u16At 54
  ePhnum := file.u16At 56

def ByteSlice.programHeader : Elf64ProgramHeader where
  pType := file.u32At offset
  pOffset := file.u64At (offset + 8)
  pVaddr := file.u64At (offset + 16)
  pFilesz := file.u64At (offset + 32)
  pMemsz := file.u64At (offset + 40)

inductive ElfError where
  | invalidMagic
  | wrongClass
  | wrongEndian
  | wrongArch
  | tooSmall
  | invalidProgramHeader
  | noLoadableSegments
deriving DecidableEq

inductive Panic where
  | capacityOverflow
  | allocation (size : Nat)
  | sliceOrder (start stop : UInt64)
  | sliceEnd (stop : UInt64) (length : Nat)

structure LoadedElf where
  entry : UInt64
  size : Nat
  memory : Vector UInt8 size
  loadBase : UInt64

/-- The allocator: the address it answers a request with, if any. A block ends inside the
address space. -/
structure Heap where
  alloc : Nat → Option UInt64
  fits : ∀ {size base}, alloc size = some base → base.toNat + size ≤ 2 ^ 64

variable (heap : Heap)

/-- `vec![0u8; size].into_boxed_slice().as_ptr()`: an empty box has no block. -/
def Heap.allocate (size : Nat) : Except Panic UInt64 :=
  if size = 0 then .ok 1
  else if 2 ^ 63 ≤ size then .error .capacityOverflow
  else
    match heap.alloc size with
    | some base => .ok base
    | none => .error (.allocation size)

def validateHeader (header : Elf64Header) : Except ElfError Unit :=
  if header.eIdent.take 4 ≠ elfMagic then .error .invalidMagic
  else if header.eIdent[4]? ≠ some elfClass64 then .error .wrongClass
  else if header.eIdent[5]? ≠ some elfData2Lsb then .error .wrongEndian
  else if header.eMachine ≠ emRiscv then .error .wrongArch
  else .ok ()

/-! ## The two passes -/

/-- `ph_offset` of the `i`-th header. -/
def Elf64Header.phOffset (header : Elf64Header) (i : Nat) : UInt64 :=
  header.ePhoff + UInt64.ofNat i * header.ePhentsize.toUInt64

/-- `min_vaddr` and `max_vaddr`. -/
structure Extent where
  minVaddr : UInt64
  maxVaddr : UInt64

/-- The body of the first pass for a loadable segment. -/
def Extent.widen (e : Extent) (ph : Elf64ProgramHeader) : Extent where
  minVaddr := if ph.pVaddr < e.minVaddr then ph.pVaddr else e.minVaddr
  maxVaddr := if e.maxVaddr < ph.pVaddr + ph.pMemsz then ph.pVaddr + ph.pMemsz else e.maxVaddr

/-- The bounds check of the first pass: `ph_offset + phentsize <= bytes.len()`. -/
def ByteSlice.reaches (i : Nat) : Prop :=
  (file.header.phOffset i + file.header.ePhentsize.toUInt64).toNat ≤ file.length

instance (i : Nat) : Decidable (file.reaches i) := inferInstanceAs (Decidable (_ ≤ _))

/-- The first pass over the headers still ahead. -/
def measure : List Nat → Extent → Except ElfError Extent
  | [], e => .ok e
  | i :: rest, e =>
    if file.reaches i then
      let ph := file.programHeader (file.header.phOffset i)
      if ph.pType ≠ ptLoad then measure rest e else measure rest (e.widen ph)
    else .error .invalidProgramHeader

/-- Everything in front of the allocation. -/
def findExtent : Except ElfError Extent :=
  if file.length < elfHeaderSize then .error .tooSmall
  else do
    validateHeader file.header
    let e ← measure file (List.range file.header.ePhnum.toNat) ⟨u64Max, 0⟩
    if e.minVaddr = u64Max then .error .noLoadableSegments else .ok e

/-- The checks of `slice[start..stop]`. -/
def checkRange (start stop : UInt64) (length : Nat) : Except Panic Unit :=
  if stop < start then .error (.sliceOrder start stop)
  else if length < stop.toNat then .error (.sliceEnd stop length)
  else .ok ()

/-- The body of the second pass for a loadable segment. -/
def copySegment (minVaddr : UInt64) (ph : Elf64ProgramHeader) {n : Nat} (memory : Vector UInt8 n) :
    Except Panic (Vector UInt8 n) :=
  let dest := ph.pVaddr - minVaddr
  if 0 < ph.pFilesz ∧ (ph.pOffset + ph.pFilesz).toNat ≤ file.length then do
    checkRange dest (dest + ph.pFilesz) n
    checkRange ph.pOffset (ph.pOffset + ph.pFilesz) file.length
    pure (patch memory dest.toNat (file.bytesAt ph.pOffset ph.pFilesz.toNat))
  else pure memory

/-- The second pass over the headers still ahead. -/
def loadSegments (minVaddr : UInt64) {n : Nat} : List Nat → Vector UInt8 n → Except Panic (Vector UInt8 n)
  | [], memory => .ok memory
  | i :: rest, memory => do
    let ph := file.programHeader (file.header.phOffset i)
    if ph.pType ≠ ptLoad then loadSegments minVaddr rest memory
    else do
      let memory ← copySegment file minVaddr ph memory
      loadSegments minVaddr rest memory

/-- The allocation and the second pass. -/
def build (file : ByteSlice) (e : Extent) : Except Panic LoadedElf := do
  let total := e.maxVaddr - e.minVaddr
  let loadBase ← heap.allocate total.toNat
  let memory ← loadSegments file e.minVaddr (List.range file.header.ePhnum.toNat) (Vector.replicate total.toNat 0)
  pure ⟨loadBase + (file.header.eEntry - e.minVaddr), total.toNat, memory, loadBase⟩

def loadElf (file : ByteSlice) : Except Panic (Except ElfError LoadedElf) :=
  match findExtent file with
  | .error e => .ok (.error e)
  | .ok e => .ok <$> build heap file e

/-! ## The segments of a file -/

/-- The headers at the indices, as far as they are loadable. -/
def segmentsAt (indices : List Nat) : List Elf64ProgramHeader :=
  (indices.map fun i => file.programHeader (file.header.phOffset i)).filter fun ph => ph.pType = ptLoad

/-- The loadable segments the program headers describe. -/
def ByteSlice.segments : List Elf64ProgramHeader := segmentsAt file (List.range file.header.ePhnum.toNat)

/-- The file begins with a header that `validate_header` accepts. -/
def ByteSlice.Accepted : Prop := elfHeaderSize ≤ file.length ∧ validateHeader file.header = .ok ()

variable {file : ByteSlice}

theorem segmentsAt_cons_load {i : Nat} (rest : List Nat)
    (load : (file.programHeader (file.header.phOffset i)).pType = ptLoad) :
    segmentsAt file (i :: rest) = file.programHeader (file.header.phOffset i) :: segmentsAt file rest := by
  simp [segmentsAt, load]

theorem segmentsAt_cons_other {i : Nat} (rest : List Nat)
    (other : (file.programHeader (file.header.phOffset i)).pType ≠ ptLoad) :
    segmentsAt file (i :: rest) = segmentsAt file rest := by
  simp [segmentsAt, other]

/-- The first pass widens the extent by the segments, if every header is in reach. -/
theorem measure_eq_ok (indices : List Nat) : ∀ {e e' : Extent},
    measure file indices e = .ok e' ↔
      (∀ i ∈ indices, file.reaches i) ∧ e' = (segmentsAt file indices).foldl Extent.widen e := by
  induction indices with
  | nil =>
    simp [measure, segmentsAt, eq_comm]
  | cons i rest ih =>
    by_cases reach : file.reaches i
    · by_cases load : (file.programHeader (file.header.phOffset i)).pType = ptLoad
      · rw [segmentsAt_cons_load rest load]
        simp [measure, reach, load, ih]
      · rw [segmentsAt_cons_other rest load]
        simp [measure, reach, load, ih]
    · simp [measure, reach]

theorem loadSegments_eq (file : ByteSlice) (minVaddr : UInt64) {n : Nat} (indices : List Nat) :
    ∀ (memory : Vector UInt8 n),
    loadSegments file minVaddr indices memory =
      (segmentsAt file indices).foldlM (fun memory ph => copySegment file minVaddr ph memory) memory := by
  induction indices with
  | nil => exact fun _ => rfl
  | cons i rest ih =>
    intro memory
    by_cases load : (file.programHeader (file.header.phOffset i)).pType = ptLoad
    · rw [segmentsAt_cons_load rest load, loadSegments]
      simp [load, ih]
    · rw [segmentsAt_cons_other rest load, loadSegments]
      simp [load, ih]

theorem build_eq (file : ByteSlice) (e : Extent) : build heap file e = (do
    let loadBase ← heap.allocate (e.maxVaddr - e.minVaddr).toNat
    let memory ← file.segments.foldlM (fun memory ph => copySegment file e.minVaddr ph memory)
      (Vector.replicate (e.maxVaddr - e.minVaddr).toNat 0)
    pure ⟨loadBase + (file.header.eEntry - e.minVaddr), _, memory, loadBase⟩) := by
  unfold build
  dsimp only
  rw [loadSegments_eq]
  rfl

theorem findExtent_eq_ok {e : Extent} :
    findExtent file = .ok e ↔ file.Accepted ∧ (∀ i, i < file.header.ePhnum.toNat → file.reaches i) ∧
      e = file.segments.foldl Extent.widen ⟨u64Max, 0⟩ ∧ e.minVaddr ≠ u64Max := by
  unfold findExtent
  constructor
  · intro ran
    split_ifs at ran
    obtain ⟨_, valid, ran⟩ := ok_of_bind ran
    obtain ⟨_, pass, ran⟩ := ok_of_bind ran
    obtain ⟨reach, rfl⟩ := (measure_eq_ok _).mp pass
    split at ran
    · cases ran
    · rename_i long some
      cases ran
      exact ⟨⟨by omega, valid⟩, fun i small => reach i (List.mem_range.mpr small), rfl, some⟩
  · rintro ⟨⟨long, valid⟩, reach, rfl, some⟩
    have pass : measure file (List.range file.header.ePhnum.toNat) ⟨u64Max, 0⟩ = .ok _ :=
      (measure_eq_ok _).mpr ⟨fun i member => reach i (List.mem_range.mp member), rfl⟩
    rw [if_neg (by omega), valid, pass]
    exact if_neg some

end HavyOs.Elf
