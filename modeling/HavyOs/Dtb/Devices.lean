import HavyOs.Dtb.Flatten

/-!
# The devices of a tree

What a device tree says about the nodes below `/soc`, and what the parser makes of it. A node with a
`compatible` property is a device, and its `reg` property is to be read with the cell sizes of its
parent. The parser keeps one current node and one pair of cell sizes: at the end of a node it pushes
whatever node it has read last, which is the last leaf below the node, and it reads every `reg` with
the cell sizes that stood in front of it last.
-/

namespace HavyOs.Dtb

open HavyOs.Lib Scan List
open Fs (asBytes)

/-! ## The meaning of a tree -/

structure Device where
  name : String
  compatible : String
  regBase : Nat
  regSize : Nat
  interrupts : Option UInt32
deriving DecidableEq

def DeviceNode.described (node : DeviceNode) : Device :=
  ⟨node.name, node.compatible, node.regBase.toNat, node.regSize.toNat, node.interrupts⟩

variable (props : List Property) (name : String)

def valueOf : Option (List UInt8) :=
  (props.find? fun p => p.name = name).map Property.value

/-- The cell sizes for the children of a node: two and one where nothing is said. -/
def cellSizes : Nat × Nat :=
  (((valueOf props "#address-cells").map fun value => fromBe (value.take 4)).getD 2,
    ((valueOf props "#size-cells").map fun value => fromBe (value.take 4)).getD 1)

/-- A `reg` value read with the cell sizes of the parent: the first address and the first size. -/
def decodeReg (parent : Nat × Nat) (value : List UInt8) : Nat × Nat :=
  (fromBe (value.take (4 * parent.1)), fromBe ((value.drop (4 * parent.1)).take (4 * parent.2)))

/-- The device that a node is, if it has a `compatible` property. -/
def deviceOf (parent : Nat × Nat) (name : String) (props : List Property) : Option Device :=
  (valueOf props "compatible").map fun value =>
    let reg := ((valueOf props "reg").map (decodeReg parent)).getD (0, 0)
    { name := name
      compatible := decode (value.takeWhile (· != 0))
      regBase := reg.1
      regSize := reg.2
      interrupts :=
        (valueOf props "interrupts").bind fun value => if 4 ≤ value.length then some (cellOf value 0) else none }

def Forest.devices (parent : Nat × Nat) : Forest → List Device
  | .nil => []
  | .node name props children rest =>
    children.devices (cellSizes props) ++ (deviceOf parent name props).toList ++ rest.devices parent

/-- The devices below the nodes `soc` of a forest. -/
def Forest.socDevices : Forest → List Device
  | .nil => []
  | .node name props children rest =>
    (if name = "soc" then children.devices (cellSizes props) else []) ++ rest.socDevices

variable (tree : Tree)

def Tree.devices : List Device := tree.children.socDevices

/-- `parse_devices` returns every device below `/soc` exactly once, as the tree describes it. -/
def Decodes (mem : Memory) (dtbAddr : UInt64) (tree : Tree) : Prop :=
  ∃ devices, Parses mem dtbAddr devices ∧ (devices.map DeviceNode.described).Perm tree.devices

/-! ## What the parser sees of a tree -/

structure Cells where
  address : UInt32
  size : UInt32

def Cells.track (cells : Cells) (p : Property) : Cells :=
  if p.name = "#address-cells" then
    if 4 ≤ p.value.length then { cells with address := cellOf p.value 0 } else cells
  else if p.name = "#size-cells" then
    if 4 ≤ p.value.length then { cells with size := cellOf p.value 0 } else cells
  else cells

/-- A property of a node below `/soc`. -/
def readProperty (r : DeviceNode × Cells) (p : Property) : DeviceNode × Cells :=
  if p.name = "compatible" then ({ r.1 with compatible := firstText p.value }, r.2)
  else if p.name = "reg" then (r.1.setReg r.2.address r.2.size p.value.length (cellOf p.value), r.2)
  else if p.name = "interrupts" then
    (if 4 ≤ p.value.length then { r.1 with interrupts := some (cellOf p.value 0) } else r.1, r.2)
  else (r.1, r.2.track p)

/-- The record that the parser reads from the properties of a node, and the cell sizes behind them. -/
def readNode (props : List Property) (cells : Cells) : DeviceNode × Cells :=
  props.foldl readProperty (DeviceNode.new name, cells)

/-- A forest with the record that the parser reads from each node, beside the device that the node is. -/
inductive Seen where
  | nil
  | node (read : DeviceNode) (own : Option Device) (children rest : Seen)

/-- The nodes in the order of the blob, each with the cell sizes that were set last. -/
def Forest.see (parent : Nat × Nat) : Forest → Cells → Seen × Cells
  | .nil, cells => (.nil, cells)
  | .node name props children rest, cells =>
    let read := readNode name props cells
    let below := children.see (cellSizes props) read.2
    let behind := rest.see parent below.2
    (.node read.1 (deviceOf parent name props) below.1 behind.1, behind.2)

/-- The record of the last leaf, or `node` if there is none. -/
def Seen.last (node : DeviceNode) : Seen → DeviceNode
  | .nil => node
  | .node read _ children rest => rest.last (children.last read)

/-- The end of a node: what is pushed there, and the device that the node is. -/
structure Visit where
  pushed : Option DeviceNode
  own : Option Device

/-- A record without a `compatible` text is not pushed. -/
def DeviceNode.kept (node : DeviceNode) : Option DeviceNode := if node.compatible = "" then none else some node

/-- At the end of a node the record of its last leaf is pushed. -/
def Seen.visits : Seen → List Visit
  | .nil => []
  | .node read own children rest => children.visits ++ ⟨(children.last read).kept, own⟩ :: rest.visits

/-- The nodes next to the root: all of them set the cell sizes, and the nodes below `soc` are visited. -/
def Forest.topVisits : Forest → Cells → List Visit
  | .nil, _ => []
  | .node name props children rest, cells =>
    let cells := props.foldl Cells.track cells
    if name = "soc" then
      let below := children.see (cellSizes props) cells
      below.1.visits ++ rest.topVisits below.2
    else rest.topVisits cells

def Tree.visits : List Visit := tree.children.topVisits ⟨2, 2⟩

/-- What is pushed is the device that the node is, or neither is there. -/
def Visit.Right (v : Visit) : Prop := v.pushed.map DeviceNode.described = v.own

instance : DecidablePred Visit.Right := fun v => inferInstanceAs (Decidable (v.pushed.map DeviceNode.described = v.own))

/-- The records that are pushed at the end of a node that they do not describe. -/
def Tree.displaced : List Device :=
  (tree.visits.filter fun v => ¬ v.Right).filterMap fun v => v.pushed.map DeviceNode.described

/-- The devices at the end of which something else is pushed, or nothing. -/
def Tree.lost : List Device := (tree.visits.filter fun v => ¬ v.Right).filterMap Visit.own

/-! ## The fold over the tokens of a tree -/

/-- The state of the loop below `/soc`. -/
def Scan.inside (depth : UInt32) (node : DeviceNode) (cells : Cells) (devices : List DeviceNode) : Scan :=
  ⟨node, true, depth, 2, cells.address, cells.size, devices⟩

/-- The state of the loop elsewhere. -/
def Scan.outside (depth socDepth : UInt32) (node : DeviceNode) (cells : Cells) (devices : List DeviceNode) : Scan :=
  ⟨node, false, depth, socDepth, cells.address, cells.size, devices⟩

section Tokens

variable {depth socDepth : UInt32} {node : DeviceNode} {cells : Cells} {devices : List DeviceNode}

theorem toNat_succ (room : depth.toNat + 1 < 2 ^ 32) : (depth + 1).toNat = depth.toNat + 1 := by
  exact Nat.mod_eq_of_lt room

theorem succ_ne_zero (room : depth.toNat + 1 < 2 ^ 32) : depth + 1 ≠ 0 := by
  have next := toNat_succ room
  intro zero
  rw [zero] at next
  exact absurd next (by simp)

theorem two_lt_succ (deep : 2 ≤ depth.toNat) (room : depth.toNat + 1 < 2 ^ 32) : 2 < depth + 1 := by
  rw [UInt32.lt_iff_toNat_lt, toNat_succ room]
  exact Nat.lt_succ_of_le deep

theorem beginNode_inside (deep : 2 ≤ depth.toNat) (room : depth.toNat + 1 < 2 ^ 32) :
    (inside depth node cells devices).beginNode name = inside (depth + 1) (DeviceNode.new name) cells devices := by
  have below := two_lt_succ deep room
  have other : depth + 1 ≠ 2 := (UInt32.ne_of_lt below).symm
  simp [beginNode, inside, other, below]

theorem endNode_inside (deep : 2 ≤ depth.toNat) (room : depth.toNat + 1 < 2 ^ 32) :
    (inside (depth + 1) node cells devices).endNode = inside depth node cells (devices ++ node.kept.toList) := by
  have below := two_lt_succ deep room
  have other : depth + 1 ≠ 2 := (UInt32.ne_of_lt below).symm
  have positive : depth + 1 ≠ 0 := succ_ne_zero room
  by_cases plain : node.compatible = ""
  · simp [endNode, inside, DeviceNode.kept, other, positive, plain]
  · simp [endNode, inside, DeviceNode.kept, other, below, positive, plain]

theorem props_inside (deep : 2 < depth.toNat) :
    (props.map Token.prop).foldl apply (inside depth node cells devices) =
      inside depth (props.foldl readProperty (node, cells)).1 (props.foldl readProperty (node, cells)).2 devices := by
  induction props generalizing node cells with
  | nil => rfl
  | cons p props ih =>
    have below : (2 : UInt32) < depth := UInt32.lt_iff_toNat_lt.mpr deep
    have first : (inside depth node cells devices).apply (.prop p) =
        inside depth (readProperty (node, cells) p).1 (readProperty (node, cells) p).2 devices := by
      simp only [apply, property, inside, below, and_self, if_true, readProperty, Cells.track, trackCells]
      split_ifs <;> rfl
    rw [map_cons, foldl_cons, first, ih, foldl_cons]

variable (forest : Forest)

/-- **Below `/soc`.** Each end of a node pushes the record of the last leaf. -/
theorem forest_inside (parent : Nat × Nat) (deep : 2 ≤ depth.toNat)
    (room : depth.toNat + forest.tokens.length < 2 ^ 32) :
    forest.tokens.foldl apply (inside depth node cells devices) =
      inside depth ((forest.see parent cells).1.last node) (forest.see parent cells).2
        (devices ++ (forest.see parent cells).1.visits.filterMap Visit.pushed) := by
  induction forest generalizing depth node cells devices parent with
  | nil => simp [Forest.tokens, Forest.see, Seen.last, Seen.visits]
  | node name props children rest ihChildren ihRest =>
    simp only [Forest.tokens, length_append, length_cons] at room
    have next : (depth + 1).toNat = depth.toNat + 1 := toNat_succ (by omega)
    simp only [Forest.tokens, foldl_cons, foldl_append]
    rw [show (inside depth node cells devices).apply (.beginNode name) = _ from beginNode_inside name deep (by omega),
      props_inside props (by omega), ihChildren (cellSizes props) (by omega) (by omega)]
    rw [show ∀ s : Scan, s.apply .endNode = s.endNode from fun _ => rfl, endNode_inside deep (by omega),
      ihRest parent deep (by omega)]
    simp [Forest.see, Seen.last, Seen.visits, readNode]
    cases ((children.see (cellSizes props) (foldl readProperty (DeviceNode.new name, cells) props).2).1.last
      (foldl readProperty (DeviceNode.new name, cells) props).1).kept with
    | none => simp
    | some pushed => simp

theorem endNode_outside (room : depth.toNat + 1 < 2 ^ 32) :
    (outside (depth + 1) socDepth node cells devices).apply .endNode = outside depth socDepth node cells devices := by
  have positive : depth + 1 ≠ 0 := succ_ne_zero room
  by_cases soc : depth + 1 = socDepth
  · simp [apply, endNode, outside, positive]
  · simp [apply, endNode, outside, positive]

theorem leaves_soc : (inside 2 node cells devices).apply .endNode = outside 1 2 node cells devices := by
  simp [apply, endNode, outside, inside]

/-- **Outside.** A forest that is neither below `/soc` nor next to the root leaves no trace. -/
theorem forest_outside (deep : 2 ≤ depth.toNat) (room : depth.toNat + forest.tokens.length < 2 ^ 32) :
    forest.tokens.foldl apply (outside depth socDepth node cells devices) =
      outside depth socDepth node cells devices := by
  induction forest generalizing depth with
  | nil => rfl
  | node name props children rest ihChildren ihRest =>
    simp only [Forest.tokens, length_append, length_cons] at room
    have next : (depth + 1).toNat = depth.toNat + 1 := toNat_succ (by omega)
    have other : depth + 1 ≠ 2 := (UInt32.ne_of_lt (two_lt_succ deep (by omega))).symm
    have begins : (outside depth socDepth node cells devices).apply (.beginNode name) =
        outside (depth + 1) socDepth node cells devices := by
      simp [apply, beginNode, outside, other]
    have passes : (props.map Token.prop).foldl apply (outside (depth + 1) socDepth node cells devices) =
        outside (depth + 1) socDepth node cells devices := by
      rw [foldl_map]
      apply foldl_fixed'
      simp [apply, property, outside, other]
    simp only [Forest.tokens, foldl_cons, foldl_append]
    rw [begins, passes, ihChildren (by omega) (by omega), endNode_outside (by omega), ihRest deep (by omega)]

theorem props_level (inSoc : Bool) (soc : inSoc = true → socDepth = 2) (props : List Property) :
    (props.map Token.prop).foldl apply ⟨node, inSoc, 2, socDepth, cells.address, cells.size, devices⟩ =
      ⟨node, inSoc, 2, socDepth, (props.foldl Cells.track cells).address, (props.foldl Cells.track cells).size,
      devices⟩ := by
  have level : ¬ (inSoc = true ∧ socDepth < 2) := by
    rintro ⟨here, above⟩
    rw [soc here] at above
    exact absurd above (by decide)
  induction props generalizing cells with
  | nil => rfl
  | cons p props ih =>
    have tracked : apply ⟨node, inSoc, 2, socDepth, cells.address, cells.size, devices⟩ (.prop p) =
        ⟨node, inSoc, 2, socDepth, (cells.track p).address, (cells.track p).size, devices⟩ := by
      simp only [apply, property, trackCells, Cells.track, level, if_false, if_true]
      split_ifs <;> rfl
    rw [map_cons, foldl_cons, tracked, ih, foldl_cons]

/-- **Next to the root.** The nodes below every `soc` are visited. -/
theorem forest_top (room : 1 + forest.tokens.length < 2 ^ 32) :
    ∃ socDepth' node' cells', forest.tokens.foldl apply (outside 1 socDepth node cells devices) =
      outside 1 socDepth' node' cells' (devices ++ (forest.topVisits cells).filterMap Visit.pushed) := by
  induction forest generalizing socDepth node cells devices with
  | nil => exact ⟨socDepth, node, cells, by simp [Forest.tokens, Forest.topVisits]⟩
  | node name props children rest _ ihRest =>
    simp only [Forest.tokens, length_append, length_cons] at room
    have two : 2 ≤ (2 : UInt32).toNat := by decide
    have below : (2 : UInt32).toNat + children.tokens.length < 2 ^ 32 := by
      rw [show (2 : UInt32).toNat = 2 from rfl]
      omega
    simp only [Forest.tokens, foldl_cons, foldl_append, Forest.topVisits]
    set tracked := props.foldl Cells.track cells with tracks
    by_cases soc : name = "soc"
    · have enters : (outside 1 socDepth node cells devices).apply (.beginNode name) = inside 2 node cells devices := by
        simp [apply, beginNode, outside, inside, soc]
      have reads : (props.map Token.prop).foldl apply (inside 2 node cells devices) =
          inside 2 node tracked devices := props_level true (fun _ => rfl) props
      rw [enters, reads, forest_inside children (cellSizes props) two below, leaves_soc,
        if_pos soc, filterMap_append, ← append_assoc]
      exact ihRest (by omega)
    · have enters :
        (outside 1 socDepth node cells devices).apply (.beginNode name) = outside 2 socDepth node cells devices := by
        simp [apply, beginNode, outside, soc]
      have reads : (props.map Token.prop).foldl apply (outside 2 socDepth node cells devices) =
          outside 2 socDepth node tracked devices := props_level false (fun soc => by cases soc) props
      rw [enters, reads, forest_outside children two below,
        show (2 : UInt32) = 1 + 1 from rfl, endNode_outside (by decide), if_neg soc]
      exact ihRest (by omega)

end Tokens

/-- **The parser on a tree.** It returns what is pushed at the ends of the nodes below `/soc`. -/
theorem Tree.foldl_tokens (small : tree.tokens.length < 2 ^ 32) :
    (tree.tokens.foldl apply new).devices = tree.visits.filterMap Visit.pushed := by
  simp only [Tree.tokens, Forest.tokens, length_append, length_cons] at small
  have begins : new.apply (.beginNode "") = outside 1 0 (DeviceNode.new "") ⟨2, 2⟩ [] := by
    simp [apply, beginNode, outside, new]
  have passes : (tree.props.map Token.prop).foldl apply (outside 1 0 (DeviceNode.new "") ⟨2, 2⟩ []) =
      outside 1 0 (DeviceNode.new "") ⟨2, 2⟩ [] := by
    rw [foldl_map]
    apply foldl_fixed'
    simp [apply, property, outside]
  obtain ⟨_, _, _, done⟩ := @forest_top 0 (DeviceNode.new "") ⟨2, 2⟩ [] tree.children (by omega)
  simp only [Tree.tokens, Forest.tokens, foldl_cons, foldl_append]
  rw [begins, passes, done, show (1 : UInt32) = 0 + 1 from rfl, endNode_outside (by decide)]
  rfl

theorem Flattened.parses_visits {mem : Memory} {dtbAddr : UInt64} {tree : Tree} (layout : Flattened mem dtbAddr tree)
    {devices : List DeviceNode} : Parses mem dtbAddr devices ↔ devices = tree.visits.filterMap Visit.pushed := by
  rw [layout.parses_iff, tree.foldl_tokens layout.small]

/-! ## The ends of the nodes -/

theorem Forest.see_own (forest : Forest) (parent : Nat × Nat) (cells : Cells) :
    (forest.see parent cells).1.visits.filterMap Visit.own = forest.devices parent := by
  induction forest generalizing parent cells with
  | nil => rfl
  | node name props children rest ihChildren ihRest =>
    simp only [see, Seen.visits, devices, filterMap_append, filterMap_cons, ihChildren, ihRest]
    cases deviceOf parent name props with
    | none => simp
    | some device => simp

theorem Forest.topVisits_own (forest : Forest) (cells : Cells) :
    (forest.topVisits cells).filterMap Visit.own = forest.socDevices := by
  induction forest generalizing cells with
  | nil => rfl
  | node name props children rest _ ihRest =>
    by_cases soc : name = "soc"
    · simp [topVisits, socDevices, if_pos soc, see_own, ihRest]
    · simp [topVisits, socDevices, if_neg soc, ihRest]

/-- **Device tree decoding.** The parser returns every device below `/soc` once and as the tree
describes it exactly where the records pushed in a wrong place make up for the devices not pushed in
theirs. In particular it does if at the end of every node below `/soc` the last leaf of the node, read with
the cell sizes set last, is the device that the node is. -/
theorem decodes_iff {mem : Memory} {dtbAddr : UInt64} {tree : Tree} (layout : Flattened mem dtbAddr tree) :
    Decodes mem dtbAddr tree ↔ tree.displaced.Perm tree.lost := by
  have described : (tree.visits.filterMap Visit.pushed).map DeviceNode.described =
      tree.visits.filterMap fun v => v.pushed.map DeviceNode.described := map_filterMap
  have expected : tree.devices = tree.visits.filterMap Visit.own := (Forest.topVisits_own _ _).symm
  simp only [Decodes, layout.parses_visits, exists_eq_left, described, expected]
  exact filterMap_perm_iff _ _ _

/-- A `compatible` property with one string. -/
def compatible (text : String) : Property := ⟨"compatible", asBytes text ++ [0]⟩

/-- A UART directly below `/soc`, with the cell sizes stated there. -/
def oneUart : Tree :=
  ⟨[], .node "soc" [⟨"#address-cells", toBe 4 2⟩, ⟨"#size-cells", toBe 4 2⟩]
    (.node "uart@10000000"
    [compatible "ns16550a", ⟨"reg", toBe 8 0x10000000 ++ toBe 8 0x100⟩, ⟨"interrupts", toBe 4 10⟩]
      .nil .nil) .nil⟩

theorem oneUart_fits : oneUart.Fits := ⟨by decide +kernel, by decide +kernel⟩

theorem decodes_iff_oneUart : Decodes (load 0x80000000 oneUart.flatten) 0x80000000 oneUart ∧
    oneUart.devices.length = 1 := by
  have layout : Flattened (load 0x80000000 oneUart.flatten) 0x80000000 oneUart :=
    flattened_load (by decide) oneUart_fits
  have displaced : oneUart.displaced = [] := by decide +kernel
  have lost : oneUart.lost = [] := by decide +kernel
  refine ⟨(decodes_iff layout).mpr ?_, by decide +kernel⟩
  rw [displaced, lost]

def uartOnBus : Tree :=
  ⟨[], .node "soc" [] (.node "bus" [compatible "simple-bus"] (.node "uart" [compatible "ns16550a"] .nil .nil) .nil)
    .nil⟩

theorem uartOnBus_fits : uartOnBus.Fits := ⟨by decide +kernel, by decide +kernel⟩

/-- The record of the bus is gone when the bus ends: the UART is returned twice and the bus never. -/
theorem bus_lost : Flattened (load 0x80000000 uartOnBus.flatten) 0x80000000 uartOnBus ∧
    Parses (load 0x80000000 uartOnBus.flatten) 0x80000000
      [⟨"uart", "ns16550a", 0, 0, none⟩, ⟨"uart", "ns16550a", 0, 0, none⟩] ∧
    uartOnBus.devices = [⟨"uart", "ns16550a", 0, 0, none⟩, ⟨"bus", "simple-bus", 0, 0, none⟩] ∧
    ¬ Decodes (load 0x80000000 uartOnBus.flatten) 0x80000000 uartOnBus := by
  have layout : Flattened (load 0x80000000 uartOnBus.flatten) 0x80000000 uartOnBus :=
    flattened_load (by decide) uartOnBus_fits
  have pushed : uartOnBus.visits.filterMap Visit.pushed =
      [⟨"uart", "ns16550a", 0, 0, none⟩, ⟨"uart", "ns16550a", 0, 0, none⟩] := by decide +kernel
  have expected : uartOnBus.devices = [⟨"uart", "ns16550a", 0, 0, none⟩, ⟨"bus", "simple-bus", 0, 0, none⟩] := by
    decide +kernel
  refine ⟨layout, layout.parses_visits.mpr pushed.symm, expected, ?_⟩
  rintro ⟨devices, parsed, same⟩
  rw [layout.parses_visits.mp parsed] at same
  exact absurd (same.mem_iff.mpr (mem_cons_of_mem _ mem_cons_self)) (by decide)

end HavyOs.Dtb
