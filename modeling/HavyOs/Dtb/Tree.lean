import HavyOs.Dtb.Parser

/-!
# Flattened device trees

A device tree is a forest of nodes under a root, each with its properties, and its flattened form is
a sequence of tokens in memory: the properties of a node stand in front of its children, and no-ops
may stand anywhere between tokens. `TokenAt` says how one token lies in memory, `Stream` a sequence
of them. On a stream the loop of the parser does nothing but fold `Scan.apply` over the tokens.
-/

namespace HavyOs.Dtb

open HavyOs.Lib List
open Fs (asBytes asBytes_inj fromUtf8 fromUtf8_asBytes)

/-! ## Trees -/

structure Property where
  name : String
  value : List UInt8
deriving DecidableEq

/-- A node with its children, and its siblings behind it. -/
inductive Forest where
  | nil
  | node (name : String) (props : List Property) (children rest : Forest)

/-- A device tree: the properties of the root and its children. -/
structure Tree where
  props : List Property
  children : Forest

inductive Token where
  | beginNode (name : String)
  | endNode
  | prop (property : Property)

def Forest.tokens : Forest → List Token
  | .nil => []
  | .node name props children rest =>
    .beginNode name :: props.map .prop ++ children.tokens ++ .endNode :: rest.tokens

/-- The name of the root is empty. -/
def Tree.tokens (tree : Tree) : List Token := (Forest.node "" tree.props tree.children .nil).tokens

/-! ## Tokens in memory -/

/-- `n` bytes of memory hold the number `x`, the highest byte first. -/
def WordAt (mem : Memory) (addr : UInt64) (x : UInt32) : Prop := bytesAt mem addr 4 = toBe 4 x.toNat

/-- A name in memory with the zero byte behind it. -/
structure NameAt (mem : Memory) (addr : UInt64) (name : String) : Prop where
  bytes : bytesAt mem addr (asBytes name).length = asBytes name
  ends : mem (addr + UInt64.ofNat (asBytes name).length) = 0
  plain : 0 ∉ asBytes name
  short : (asBytes name).length ≤ 256

/-- The token that lies between two addresses. The value of a `compatible` property is a list of
strings, so it has a zero byte. -/
inductive TokenAt (mem : Memory) (stringsBase : UInt64) : UInt64 → Token → UInt64 → Prop where
  | beginNode {pos : UInt64} {name : String} (token : WordAt mem pos fdtBeginNode) (named : NameAt mem (pos + 4) name) :
      TokenAt mem stringsBase pos (.beginNode name) (pos + 4 + UInt64.ofNat (alignUp ((asBytes name).length + 1)))
  | endNode {pos : UInt64} (token : WordAt mem pos fdtEndNode) : TokenAt mem stringsBase pos .endNode (pos + 4)
  | prop {pos : UInt64} {p : Property} {nameOff : UInt32} (token : WordAt mem pos fdtProp)
      (small : p.value.length < 2 ^ 32)
      (len : WordAt mem (pos + 4) (UInt32.ofNat p.value.length)) (offset : WordAt mem (pos + 4 + 4) nameOff)
      (named : NameAt mem (stringsBase + nameOff.toUInt64) p.name)
      (value : bytesAt mem (pos + 4 + 8) p.value.length = p.value) (ends : p.name = "compatible" → 0 ∈ p.value) :
      TokenAt mem stringsBase pos (.prop p) (pos + 4 + 8 + UInt64.ofNat (alignUp p.value.length))

/-- Tokens one after the other, with no-ops between them. -/
inductive Stream (mem : Memory) (stringsBase : UInt64) : UInt64 → List Token → UInt64 → Prop where
  | nil (pos : UInt64) : Stream mem stringsBase pos [] pos
  | nop {pos stop : UInt64} {tokens : List Token} (token : WordAt mem pos fdtNop)
      (more : Stream mem stringsBase (pos + 4) tokens stop) : Stream mem stringsBase pos tokens stop
  | cons {pos next stop : UInt64} {token : Token} {tokens : List Token} (here : TokenAt mem stringsBase pos token next)
      (more : Stream mem stringsBase next tokens stop) : Stream mem stringsBase pos (token :: tokens) stop

/-- The blob at `dtbAddr` is `tree` in its flattened form. The size of the structure block is a 32-bit
number, so there are fewer than `2 ^ 32` tokens. -/
structure Flattened (mem : Memory) (dtbAddr : UInt64) (tree : Tree) : Prop where
  nonzero : dtbAddr ≠ 0
  magic : WordAt mem dtbAddr fdtMagic
  small : tree.tokens.length < 2 ^ 32
  tokens : ∃ stop, Stream mem (dtbAddr + (readBe32 mem (dtbAddr + 12)).toUInt64)
    (dtbAddr + (readBe32 mem (dtbAddr + 8)).toUInt64) tree.tokens stop ∧ WordAt mem stop fdtEnd

/-! ## The loop on a stream -/

def firstText (value : List UInt8) : String := decode ((value.takeWhile (· != 0)).take 256)

def cellOf (value : List UInt8) (i : Nat) : UInt32 := UInt32.ofNat (fromBe ((value.drop (4 * i)).take 4))

def Scan.apply (s : Scan) : Token → Scan
  | .beginNode name => s.beginNode name
  | .endNode => s.endNode
  | .prop p => s.property p.name p.value.length (firstText p.value) (cellOf p.value)

variable {mem : Memory} {addr : UInt64} {name : String} {stringsBase : UInt64} {len : Nat}
  {cell cell' : Nat → UInt32}

theorem readBe32_of_wordAt {x : UInt32} (word : WordAt mem addr x) : readBe32 mem addr = x := by
  rw [readBe32, word, fromBe_toBe_of_lt (by have := x.toNat_lt; omega), UInt32.ofNat_toNat]

theorem textAt_of_nameAt (named : NameAt mem addr name) : textAt mem addr = asBytes name := by
  have ends : (asBytes name).length = 256 ∨ (asBytes name).length < 256 ∧
      mem (addr + UInt64.ofNat (asBytes name).length) = 0 := by
    have short := named.short
    by_cases full : (asBytes name).length = 256
    · exact Or.inl full
    · exact Or.inr ⟨by omega, named.ends⟩
  rw [textAt, textLength_eq named.bytes named.plain ends, named.bytes]

theorem decode_asBytes (name : String) : decode (asBytes name) = name := by
  rw [decode, fromUtf8_asBytes, Option.getD_some]

theorem readString_of_nameAt {offset : UInt32}
    (named : NameAt mem (stringsBase + offset.toUInt64) name) : readString mem stringsBase offset = name := by
  simp only [readString, textAt_of_nameAt named, decode_asBytes]
  split
  · rename_i empty
    exact asBytes_inj (length_eq_zero_iff.mp empty).symm
  · rfl

theorem DeviceNode.setReg_congr (node : DeviceNode) (addressCells sizeCells : UInt32)
    (cells : ∀ i, 4 * i + 4 ≤ len → cell i = cell' i) :
    node.setReg addressCells sizeCells len cell = node.setReg addressCells sizeCells len cell' := by
  unfold setReg
  by_cases two : addressCells = 2 ∧ 16 ≤ len
  · rw [if_pos two, if_pos two, cells 0 (by omega), cells 1 (by omega), cells 2 (by omega), cells 3 (by omega)]
  · rw [if_neg two, if_neg two]
    by_cases one : addressCells = 1 ∧ 8 ≤ len
    · rw [if_pos one, if_pos one, cells 0 (by omega), cells 1 (by omega)]
    · rw [if_neg one, if_neg one]

theorem Scan.trackCells_congr (s : Scan) (name : String)
    (cells : ∀ i, 4 * i + 4 ≤ len → cell i = cell' i) : s.trackCells name len cell = s.trackCells name len cell' := by
  unfold trackCells
  by_cases long : 4 ≤ len
  · rw [cells 0 (by omega)]
  · simp [long]

/-- Of a property only the cells inside its value count, and the text of a `compatible` property. -/
theorem Scan.property_congr (s : Scan) (name : String) {text text' : String}
    (texts : name = "compatible" → text = text') (cells : ∀ i, 4 * i + 4 ≤ len → cell i = cell' i) :
    s.property name len text cell = s.property name len text' cell' := by
  unfold property
  rw [s.trackCells_congr name cells, s.currentNode.setReg_congr _ _ cells]
  by_cases compatible : name = "compatible"
  · rw [texts compatible]
    simp [compatible]
  · simp only [compatible, if_false]
    by_cases long : 4 ≤ len
    · rw [cells 0 (by omega)]
    · simp [long]

theorem getElem?_takeWhile_length {value : List UInt8} (ends : 0 ∈ value) :
    value[(value.takeWhile (· != 0)).length]? = some 0 := by
  induction value with
  | nil => cases ends
  | cons b rest ih =>
    by_cases zero : b = 0
    · subst zero
      rfl
    · have later : (0 : UInt8) ∈ rest := (mem_cons.mp ends).resolve_left fun same => zero same.symm
      rw [takeWhile_cons_of_pos (by simpa using zero)]
      exact ih later

theorem textAt_of_value {value : List UInt8} (holds : bytesAt mem addr value.length = value)
    (ends : 0 ∈ value) : textAt mem addr = (value.takeWhile (· != 0)).take 256 := by
  set text := value.takeWhile (· != 0)
  have cut : text.take 256 <+: text := take_prefix 256 text
  have starts : text.take 256 <+: value := cut.trans ⟨_, takeWhile_append_dropWhile⟩
  have nonzero : 0 ∉ text.take 256 := by
    intro member
    have passed := mem_takeWhile_imp (mem_of_mem_take member)
    cases passed
  have bytes := bytesAt_of_isPrefix holds starts
  have stops : (text.take 256).length = 256 ∨
      (text.take 256).length < 256 ∧ mem (addr + UInt64.ofNat (text.take 256).length) = 0 := by
    rw [length_take]
    by_cases long : 256 ≤ text.length
    · exact Or.inl (Nat.min_eq_left long)
    · rw [Nat.min_eq_right (by omega)]
      exact Or.inr ⟨by omega, byte_of_bytesAt holds (getElem?_takeWhile_length ends)⟩
  rw [textAt, textLength_eq bytes nonzero stops, bytes]

/-- **One token.** The loop goes on behind it. -/
theorem step_of_tokenAt {pos next : UInt64} {token : Token}
    (here : TokenAt mem stringsBase pos token next) (s : Scan) :
    step mem stringsBase pos s = some (next, s.apply token) := by
  cases here with
  | beginNode word named =>
    simp only [step, readBe32_of_wordAt word, readNodeName, textAt_of_nameAt named, decode_asBytes]
    rfl
  | endNode word =>
    simp only [step, readBe32_of_wordAt word]
    rfl
  | prop word small len offset named value ends =>
    rename_i p nameOff
    have length : (UInt32.ofNat p.value.length).toNat = p.value.length := by
      exact Nat.mod_eq_of_lt small
    have applied : s.property p.name p.value.length (readNodeName mem (pos + 4 + 8)).1
        (fun i => readBe32 mem (pos + 4 + 8 + UInt64.ofNat (4 * i))) = s.apply (.prop p) := by
      apply Scan.property_congr
      · intro compatible
        rw [readNodeName, textAt_of_value value (ends compatible)]
        rfl
      · intro i inside
        rw [readBe32, bytesAt_window value inside]
        rfl
    rw [← applied]
    simp only [step, readBe32_of_wordAt word, readBe32_of_wordAt len, readBe32_of_wordAt offset,
      readString_of_nameAt named, length]
    rfl

/-- **A stream.** On tokens that lie in memory one after the other the loop folds over them. -/
theorem Stream.endsWith {pos stop : UInt64} {tokens : List Token}
    (stream : Stream mem stringsBase pos tokens stop) (s : Scan) {devices : List DeviceNode} :
    EndsWith mem stringsBase pos s devices ↔ EndsWith mem stringsBase stop (tokens.foldl Scan.apply s) devices := by
  induction stream generalizing s with
  | nil pos => exact Iff.rfl
  | @nop pos stop tokens word more ih =>
    have goes : step mem stringsBase pos s = some (pos + 4, s) := by
      simp only [step, readBe32_of_wordAt word]
      rfl
    rw [endsWith_some goes]
    exact ih s
  | cons here _ ih =>
    rw [endsWith_some (step_of_tokenAt here s)]
    exact ih _

/-- **A flattened tree** is parsed to what the fold over its tokens has collected. -/
theorem Flattened.parses_iff {dtbAddr : UInt64} {tree : Tree} (layout : Flattened mem dtbAddr tree)
    {devices : List DeviceNode} : Parses mem dtbAddr devices ↔
    devices = (tree.tokens.foldl Scan.apply Scan.new).devices := by
  obtain ⟨_, stream, finish⟩ := layout.tokens
  rw [Dtb.parses_iff layout.nonzero (readBe32_of_wordAt layout.magic), stream.endsWith]
  apply endsWith_none
  simp only [step, readBe32_of_wordAt finish]
  rfl

end HavyOs.Dtb
