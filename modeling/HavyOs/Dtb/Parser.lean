import HavyOs.Fs.Layout
import HavyOs.Lib.Memory
import HavyOs.Lib.Wire

/-!
# The device tree parser

`dtb/parser.rs` and `validate_dtb` of `dtb/mod.rs`. The blob is read through raw pointers: an
address is 64 bits wide, sums of addresses wrap, and what is read behind the blob is whatever
memory holds there. The state of the loop is the position and a `Scan`, what the loop keeps of the
nodes it has passed: one current node, one pair of cell sizes and the nesting depth.
-/

namespace HavyOs.Dtb

open HavyOs.Lib
open Fs (asBytes fromUtf8)

/-- What the kernel reads through raw pointers. -/
abbrev Memory := UInt64 → UInt8

def fdtMagic : UInt32 := 0xd00dfeed

def fdtBeginNode : UInt32 := 1

def fdtEndNode : UInt32 := 2

def fdtProp : UInt32 := 3

def fdtNop : UInt32 := 4

def fdtEnd : UInt32 := 9

structure DeviceNode where
  name : String
  compatible : String
  regBase : UInt64
  regSize : UInt64
  interrupts : Option UInt32
deriving DecidableEq

def DeviceNode.new (name : String) : DeviceNode := ⟨name, "", 0, 0, none⟩

/-! ## Reads -/

variable (mem : Memory)

def readBe32 (addr : UInt64) : UInt32 := UInt32.ofNat (fromBe (bytesAt mem addr 4))

/-- The bytes that `read_string` and `read_node_name` collect: up to a zero byte, 256 at most. -/
def textAt (addr : UInt64) : List UInt8 := bytesAt mem addr (textLength mem addr 256)

/-- `String::from_utf8(bytes).unwrap_or_default()`. -/
def decode (bytes : List UInt8) : String := (fromUtf8 bytes).getD ""

/-- `(n + 3) & !3`. -/
def alignUp (n : Nat) : Nat := (n + 3) / 4 * 4

variable (stringsBase : UInt64)

def readString (offset : UInt32) : String :=
  let bytes := textAt mem (stringsBase + offset.toUInt64)
  if bytes.length = 0 then "" else decode bytes

/-- `read_node_name`: the name and the bytes it takes. -/
def readNodeName (addr : UInt64) : String × Nat :=
  let bytes := textAt mem addr
  (decode bytes, alignUp (bytes.length + 1))

/-! ## The state of the loop -/

structure Scan where
  currentNode : DeviceNode
  inSoc : Bool
  depth : UInt32
  socDepth : UInt32
  addressCells : UInt32
  sizeCells : UInt32
  devices : List DeviceNode

def Scan.new : Scan := ⟨DeviceNode.new "", false, 0, 0, 2, 2, []⟩

/-- `(hi << 32) | lo`. -/
def pairOf (hi lo : UInt32) : UInt64 := hi.toUInt64 <<< 32 ||| lo.toUInt64

/-- The `reg` property, of `len` bytes, with the `cell i` at `data_addr + 4 * i`. -/
def DeviceNode.setReg (node : DeviceNode) (addressCells sizeCells : UInt32) (len : Nat) (cell : Nat → UInt32) :
    DeviceNode :=
  if addressCells = 2 ∧ 16 ≤ len then
    let node := { node with regBase := pairOf (cell 0) (cell 1) }
    if sizeCells = 2 ∧ 16 ≤ len then { node with regSize := pairOf (cell 2) (cell 3) }
    else if sizeCells = 1 ∧ 12 ≤ len then { node with regSize := (cell 2).toUInt64 }
    else node
  else if addressCells = 1 ∧ 8 ≤ len then
    let node := { node with regBase := (cell 0).toUInt64 }
    if sizeCells = 1 ∧ 8 ≤ len then { node with regSize := (cell 1).toUInt64 }
    else node
  else node

namespace Scan

/-- The properties that set the cell sizes. -/
def trackCells (s : Scan) (name : String) (len : Nat) (cell : Nat → UInt32) : Scan :=
  if name = "#address-cells" then
    if 4 ≤ len then { s with addressCells := cell 0 } else s
  else if name = "#size-cells" then
    if 4 ≤ len then { s with sizeCells := cell 0 } else s
  else s

def beginNode (s : Scan) (name : String) : Scan :=
  let s := { s with depth := s.depth + 1 }
  let s := if s.depth = 2 ∧ name = "soc" then { s with inSoc := true, socDepth := s.depth } else s
  if s.inSoc ∧ s.socDepth < s.depth then { s with currentNode := DeviceNode.new name } else s

def endNode (s : Scan) : Scan :=
  let s := if s.inSoc ∧ s.socDepth < s.depth ∧ s.currentNode.compatible ≠ "" then
    { s with devices := s.devices ++ [s.currentNode] } else s
  let s := if s.depth = s.socDepth then { s with inSoc := false } else s
  -- `saturating_sub`
  { s with depth := if s.depth = 0 then 0 else s.depth - 1 }

/-- The branch of `FDT_PROP`: `text` is the text at the start of the data. -/
def property (s : Scan) (name : String) (len : Nat) (text : String) (cell : Nat → UInt32) : Scan :=
  if s.inSoc ∧ s.socDepth < s.depth then
    if name = "compatible" then { s with currentNode := { s.currentNode with compatible := text } }
    else if name = "reg" then { s with currentNode := s.currentNode.setReg s.addressCells s.sizeCells len cell }
    else if name = "interrupts" then
      if 4 ≤ len then { s with currentNode := { s.currentNode with interrupts := some (cell 0) } } else s
    else s.trackCells name len cell
  else if s.depth = 2 then s.trackCells name len cell
  else s

end Scan

/-! ## The loop -/

/-- One round of the loop: the next position and state, or none when the loop ends. -/
def step (pos : UInt64) (s : Scan) : Option (UInt64 × Scan) :=
  let token := readBe32 mem pos
  let pos := pos + 4
  if token = fdtBeginNode then
    let (name, consumed) := readNodeName mem pos
    some (pos + UInt64.ofNat consumed, s.beginNode name)
  else if token = fdtEndNode then some (pos, s.endNode)
  else if token = fdtProp then
    let len := (readBe32 mem pos).toNat
    let nameOff := readBe32 mem (pos + 4)
    let propName := readString mem stringsBase nameOff
    let dataAddr := pos + 8
    let s := s.property propName len (readNodeName mem dataAddr).1 fun i =>
      readBe32 mem (dataAddr + UInt64.ofNat (4 * i))
    some (dataAddr + UInt64.ofNat (alignUp len), s)
  else if token = fdtNop then some (pos, s)
  -- `FDT_END`, or an unknown token
  else none

/-- The loop, as far as `fuel` rounds go. -/
def parseFrom : Nat → UInt64 → Scan → Option (List DeviceNode)
  | 0, _, _ => none
  | fuel + 1, pos, s =>
    match step mem stringsBase pos s with
    | none => some s.devices
    | some (pos, s) => parseFrom fuel pos s

/-- `parse_devices`, as far as `fuel` rounds of its loop go. -/
def parseDevices (dtbAddr : UInt64) (fuel : Nat) : Option (List DeviceNode) :=
  if dtbAddr = 0 then some []
  else if readBe32 mem dtbAddr ≠ fdtMagic then some []
  else
    let structBase := dtbAddr + (readBe32 mem (dtbAddr + 8)).toUInt64
    let stringsBase := dtbAddr + (readBe32 mem (dtbAddr + 12)).toUInt64
    parseFrom mem stringsBase fuel structBase Scan.new

/-- The loop ends, with these devices. -/
def EndsWith (pos : UInt64) (s : Scan) (devices : List DeviceNode) : Prop :=
  ∃ fuel, parseFrom mem stringsBase fuel pos s = some devices

def Parses (dtbAddr : UInt64) (devices : List DeviceNode) : Prop :=
  ∃ fuel, parseDevices mem dtbAddr fuel = some devices

def validateDtb (dtbAddr : UInt64) : Option Nat :=
  if readBe32 mem dtbAddr ≠ fdtMagic then none
  else
    let totalsize := (readBe32 mem (dtbAddr + 4)).toNat
    if totalsize < 48 ∨ 1024 * 1024 < totalsize then none else some totalsize

section Loop

variable {mem : Memory} {stringsBase pos : UInt64} {s : Scan} {devices : List DeviceNode}

theorem endsWith_none (ends : step mem stringsBase pos s = none) :
    EndsWith mem stringsBase pos s devices ↔ devices = s.devices := by
  constructor
  · rintro ⟨fuel, run⟩
    cases fuel with
    | zero => cases run
    | succ fuel =>
      rw [parseFrom, ends] at run
      exact (Option.some.inj run).symm
  · rintro rfl
    exact ⟨1, by rw [parseFrom, ends]⟩

theorem endsWith_some {next : UInt64 × Scan} (goes : step mem stringsBase pos s = some next) :
    EndsWith mem stringsBase pos s devices ↔ EndsWith mem stringsBase next.1 next.2 devices := by
  constructor
  · rintro ⟨fuel, run⟩
    cases fuel with
    | zero => cases run
    | succ fuel =>
      rw [parseFrom, goes] at run
      exact ⟨fuel, run⟩
  · rintro ⟨fuel, run⟩
    exact ⟨fuel + 1, by rw [parseFrom, goes]; exact run⟩

theorem parses_iff {dtbAddr : UInt64} (nonzero : dtbAddr ≠ 0) (magic : readBe32 mem dtbAddr = fdtMagic) :
    Parses mem dtbAddr devices ↔ EndsWith mem (dtbAddr + (readBe32 mem (dtbAddr + 12)).toUInt64)
      (dtbAddr + (readBe32 mem (dtbAddr + 8)).toUInt64) Scan.new devices := by
  simp only [Parses, parseDevices, if_neg nonzero, magic, ne_eq, not_true, if_false, EndsWith]

end Loop

end HavyOs.Dtb
