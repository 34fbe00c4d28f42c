import HavyOs.Dtb.Devices

/-!
# What the parser reads

`parse_devices` is not told the size that `validate_dtb` has found, so it follows the offsets and
lengths of the blob wherever they lead. `Walk` are the blobs on which the tokens and the names of
nodes stay inside, up to a token that ends the loop. Where the walk leaves the blob, no-ops behind
it keep the loop going for ever.
-/

namespace HavyOs.Dtb

open HavyOs.Lib List
open UInt64 (ofNat)

/-- `mem'` has the first `size` bytes at `addr` that `mem` has. -/
def Agree (addr : UInt64) (size : Nat) (mem mem' : Memory) : Prop :=
  ∀ i, i < size → mem' (addr + ofNat i) = mem (addr + ofNat i)

variable (mem : Memory)

/-- On any two memories with the bytes of the blob `parse_devices` returns, and the same devices. -/
def DependsOnBlob (addr : UInt64) (size : Nat) : Prop :=
  ∀ m₁ m₂, Agree addr size mem m₁ → Agree addr size mem m₂ → ∃ devices, Parses m₁ addr devices ∧ Parses m₂ addr devices

/-! ## Reads at an offset -/

def wordOf (addr : UInt64) (off : Nat) : UInt32 := readBe32 mem (addr + ofNat off)

/-- The name at an offset, and the bytes it takes. -/
def nameOf (addr : UInt64) (off : Nat) : String × Nat := readNodeName mem (addr + ofNat off)

/-- The name in the strings block for the property at an offset. -/
def propName (addr stringsBase : UInt64) (off : Nat) : String := readString mem stringsBase (wordOf mem addr (off + 8))

/-- What the parser does with the property at an offset. -/
def propertyAt (addr stringsBase : UInt64) (off : Nat) (s : Scan) : Scan :=
  s.property (propName mem addr stringsBase off) (wordOf mem addr (off + 4)).toNat (nameOf mem addr (off + 12)).1
    fun i => wordOf mem addr (off + 12 + 4 * i)

/-- The loop ends at this token. -/
def Unknown (token : UInt32) : Prop := token ≠ fdtBeginNode ∧ token ≠ fdtEndNode ∧ token ≠ fdtProp ∧ token ≠ fdtNop

theorem toUInt64_eq (x : UInt32) : x.toUInt64 = ofNat x.toNat := by
  rw [← toUInt64_ofNat x.toNat_lt, UInt32.ofNat_toNat]

section Step

variable {mem : Memory} {addr stringsBase : UInt64} {off : Nat}

theorem add_four (addr : UInt64) (off : Nat) : addr + ofNat off + 4 = addr + ofNat (off + 4) :=
  (add_ofNat_add addr off 4).symm

theorem step_unknown (unknown : Unknown (wordOf mem addr off)) (s : Scan) :
    step mem stringsBase (addr + ofNat off) s = none := by
  obtain ⟨notBegin, notEnd, notProp, notNop⟩ := unknown
  rw [wordOf] at notBegin notEnd notProp notNop
  simp only [step, notBegin, notEnd, notProp, notNop, if_false]

theorem step_beginNode (token : wordOf mem addr off = fdtBeginNode) (s : Scan) :
    step mem stringsBase (addr + ofNat off) s =
      some (addr + ofNat (off + 4 + (nameOf mem addr (off + 4)).2), s.beginNode (nameOf mem addr (off + 4)).1) := by
  rw [wordOf] at token
  simp only [step, token, if_true, add_four, nameOf, add_ofNat_add addr (off + 4)]

theorem step_endNode (token : wordOf mem addr off = fdtEndNode) (s : Scan) :
    step mem stringsBase (addr + ofNat off) s = some (addr + ofNat (off + 4), s.endNode) := by
  rw [wordOf] at token
  simp only [step, token, add_four]
  rfl

theorem step_nop (token : wordOf mem addr off = fdtNop) (s : Scan) :
    step mem stringsBase (addr + ofNat off) s = some (addr + ofNat (off + 4), s) := by
  rw [wordOf] at token
  simp only [step, token, add_four]
  rfl

theorem step_prop (token : wordOf mem addr off = fdtProp) (s : Scan) :
    step mem stringsBase (addr + ofNat off) s =
      some (addr + ofNat (off + 12 + alignUp (wordOf mem addr (off + 4)).toNat),
      propertyAt mem addr stringsBase off s) := by
  rw [wordOf] at token
  have data : addr + ofNat (off + 4) + 8 = addr + ofNat (off + 12) := (add_ofNat_add addr (off + 4) 8).symm
  simp only [step, token, add_four, data, propertyAt, wordOf, add_ofNat_add addr (off + 12)]
  rfl

end Step

/-! ## The nesting level -/

/-- What the parser knows of the path to the current node. -/
structure Level where
  depth : UInt32
  inSoc : Bool
  socDepth : UInt32

namespace Level

variable (level : Level)

def beginNode (name : String) : Level :=
  if level.depth + 1 = 2 ∧ name = "soc" then ⟨level.depth + 1, true, level.depth + 1⟩
  else { level with depth := level.depth + 1 }

def endNode : Level :=
  { level with
    depth := if level.depth = 0 then 0 else level.depth - 1
    inSoc := if level.depth = level.socDepth then false else level.inSoc }

def BelowSoc : Prop := level.inSoc ∧ level.socDepth < level.depth

/-- The level at which the names of properties are looked at. -/
def Reads : Prop := level.BelowSoc ∨ level.depth = 2

end Level

def Scan.level (s : Scan) : Level := ⟨s.depth, s.inSoc, s.socDepth⟩

variable (s : Scan) (name : String)

theorem Scan.level_beginNode : (s.beginNode name).level = s.level.beginNode name := by
  unfold beginNode Level.beginNode level
  dsimp only
  split_ifs <;> rfl

theorem Scan.level_endNode : s.endNode.level = s.level.endNode := by
  unfold endNode Level.endNode level
  dsimp only
  split_ifs <;> rfl

theorem Scan.level_property (len : Nat) (text : String) (cell : Nat → UInt32) :
    (s.property name len text cell).level = s.level := by
  unfold property trackCells
  split_ifs <;> rfl

/-! ## The walk -/

/-- The text at an offset ends inside the blob, or is cut there after 256 bytes. -/
def TextInside (addr : UInt64) (size off : Nat) : Prop :=
  off + min (textLength mem (addr + ofNat off) 256 + 1) 256 ≤ size

instance (addr : UInt64) (size off : Nat) : Decidable (TextInside mem addr size off) :=
  inferInstanceAs (Decidable (_ ≤ _))

/-- The tokens from an offset on lie inside the blob, up to one that ends the loop. The condition
`ok` is on the properties. A token that lies across the end of the blob ends the loop if one of its
bytes in the blob says that it is none of the known ones. -/
inductive Walk (mem : Memory) (addr : UInt64) (size : Nat) (ok : Level → Nat → Prop) : Level → Nat → Prop where
  | stopped {level : Level} {off : Nat} (inside : off + 4 ≤ size) (unknown : Unknown (wordOf mem addr off)) :
      Walk mem addr size ok level off
  | cut {level : Level} {off i : Nat} (high : i < 3) (inside : off + i < size) (across : size < off + 4)
      (nonzero : mem (addr + ofNat (off + i)) ≠ 0) : Walk mem addr size ok level off
  | beginNode {level : Level} {off : Nat} (inside : off + 4 ≤ size) (token : wordOf mem addr off = fdtBeginNode)
      (named : TextInside mem addr size (off + 4))
      (more : Walk mem addr size ok (level.beginNode (nameOf mem addr (off + 4)).1)
      (off + 4 + (nameOf mem addr (off + 4)).2)) :
      Walk mem addr size ok level off
  | endNode {level : Level} {off : Nat} (inside : off + 4 ≤ size) (token : wordOf mem addr off = fdtEndNode)
      (more : Walk mem addr size ok level.endNode (off + 4)) : Walk mem addr size ok level off
  | nop {level : Level} {off : Nat} (inside : off + 4 ≤ size) (token : wordOf mem addr off = fdtNop)
      (more : Walk mem addr size ok level (off + 4)) : Walk mem addr size ok level off
  | prop {level : Level} {off : Nat} (inside : off + 12 ≤ size) (token : wordOf mem addr off = fdtProp)
      (strings : ok level off)
      (more : Walk mem addr size ok level (off + 12 + alignUp (wordOf mem addr (off + 4)).toNat)) :
      Walk mem addr size ok level off

def structOff (addr : UInt64) : Nat := (wordOf mem addr 8).toNat

def stringsOff (addr : UInt64) : Nat := (wordOf mem addr 12).toNat

/-- The name of a property next to the root or below `/soc` ends inside the blob. -/
def NameInside (addr : UInt64) (size : Nat) (level : Level) (off : Nat) : Prop :=
  level.Reads → TextInside mem addr size (stringsOff mem addr + (wordOf mem addr (off + 8)).toNat)

/-! ## Blobs that are read inside -/

section Inside

variable {mem mem' : Memory} {addr : UInt64} {size off : Nat}

theorem Walk.lt {ok : Level → Nat → Prop} {level : Level} (walk : Walk mem addr size ok level off) : off < size := by
  cases walk <;> omega

section

variable (agree : Agree addr size mem mem')

include agree

theorem wordOf_congr (inside : off + 4 ≤ size) : wordOf mem' addr off = wordOf mem addr off := by
  have bytes : bytesAt mem' (addr + ofNat off) 4 = bytesAt mem (addr + ofNat off) 4 := by
    apply bytesAt_congr
    intro i low
    rw [← add_ofNat_add]
    exact agree _ (by omega)
  rw [wordOf, wordOf, readBe32, readBe32, bytes]

theorem textAt_congr (inside : TextInside mem addr size off) :
    textAt mem' (addr + ofNat off) = textAt mem (addr + ofNat off) := by
  unfold TextInside at inside
  have length : textLength mem' (addr + ofNat off) 256 = textLength mem (addr + ofNat off) 256 := by
    apply textLength_congr
    intro i within limit
    rw [← add_ofNat_add]
    exact agree _ (by omega)
  have short := textLength_le mem (addr + ofNat off) 256
  rw [textAt, length]
  apply bytesAt_congr
  intro i within
  rw [← add_ofNat_add]
  exact agree _ (by omega)

theorem nameOf_congr (inside : TextInside mem addr size off) : nameOf mem' addr off = nameOf mem addr off := by
  simp only [nameOf, readNodeName, textAt_congr agree inside]

theorem propName_congr (here : off + 12 ≤ size)
    (inside : TextInside mem addr size (stringsOff mem addr + (wordOf mem addr (off + 8)).toNat)) :
    propName mem' addr (addr + ofNat (stringsOff mem addr)) off =
      propName mem addr (addr + ofNat (stringsOff mem addr)) off := by
  have place : addr + ofNat (stringsOff mem addr) + (wordOf mem addr (off + 8)).toUInt64 =
      addr + ofNat (stringsOff mem addr + (wordOf mem addr (off + 8)).toNat) := by
    rw [add_ofNat_add, toUInt64_eq]
  rw [propName, propName, wordOf_congr agree (by omega)]
  simp only [readString, place, textAt_congr agree inside]

omit agree in
theorem Scan.property_of_not_reads {s : Scan} (blind : ¬ s.level.Reads) (name : String) (len : Nat) (text : String)
    (cell : Nat → UInt32) : s.property name len text cell = s := by
  have above : ¬ (s.inSoc = true ∧ s.socDepth < s.depth) := fun below => blind (Or.inl below)
  have other : s.depth ≠ 2 := fun level => blind (Or.inr level)
  simp only [property, above, other, if_false]

/-- A property whose name ends inside the blob, with a zero byte behind its value. -/
theorem propertyAt_congr {s : Scan} (inside : off + 12 ≤ size)
    (name : NameInside mem addr size s.level off) (value : off + 12 + alignUp (wordOf mem addr (off + 4)).toNat < size)
    (zero : mem (addr + ofNat (off + 12 + alignUp (wordOf mem addr (off + 4)).toNat)) = 0) :
    propertyAt mem' addr (addr + ofNat (stringsOff mem addr)) off s =
      propertyAt mem addr (addr + ofNat (stringsOff mem addr)) off s := by
  by_cases reads : s.level.Reads
  · rw [propertyAt, propName_congr agree inside (name reads), wordOf_congr agree (by omega)]
    have text : TextInside mem addr size (off + 12) := by
      rw [add_ofNat_add] at zero
      have short := textLength_le_of_zero zero 256
      unfold TextInside
      omega
    apply Scan.property_congr
    · intro _
      rw [nameOf_congr agree text]
    · intro i within
      apply wordOf_congr agree
      unfold alignUp at value
      omega
  · rw [propertyAt, propertyAt, Scan.property_of_not_reads reads, Scan.property_of_not_reads reads]

end

theorem wordOf_toNat (mem : Memory) (addr : UInt64) (off : Nat) : (wordOf mem addr off).toNat =
    16777216 * (mem (addr + ofNat off)).toNat + 65536 * (mem (addr + ofNat (off + 1))).toNat +
      256 * (mem (addr + ofNat (off + 2))).toNat + (mem (addr + ofNat (off + 3))).toNat := by
  have bytes : bytesAt mem (addr + ofNat off) 4 = [mem (addr + ofNat off), mem (addr + ofNat (off + 1)),
      mem (addr + ofNat (off + 2)), mem (addr + ofNat (off + 3))] := by
    simp only [bytesAt, ← add_ofNat_add]
    rfl
  have b₀ := (mem (addr + ofNat off)).toNat_lt
  have b₁ := (mem (addr + ofNat (off + 1))).toNat_lt
  have b₂ := (mem (addr + ofNat (off + 2))).toNat_lt
  have b₃ := (mem (addr + ofNat (off + 3))).toNat_lt
  rw [wordOf, readBe32, bytes, UInt32.toNat_ofNat']
  simp only [fromBe, foldl_cons, foldl_nil]
  omega

theorem unknown_of_byte {i : Nat} (high : i < 3) (nonzero : mem (addr + ofNat (off + i)) ≠ 0) :
    Unknown (wordOf mem addr off) := by
  have known : ∀ x : UInt32, x.toNat < 256 → wordOf mem addr off ≠ x := by
    intro x small same
    have word := wordOf_toNat mem addr off
    rw [same] at word
    apply nonzero
    apply UInt8.toNat_inj.mp
    obtain rfl | rfl | rfl : i = 0 ∨ i = 1 ∨ i = 2 := by omega
    all_goals
      simp only [Nat.add_zero, UInt8.toNat_zero]
      omega
  exact ⟨known _ (by decide), known _ (by decide), known _ (by decide), known _ (by decide)⟩

/-- Either the loop ends here, or a known token stands here with its zero byte first. -/
theorem Walk.stops_or_zero {ok : Level → Nat → Prop} {level : Level} (walk : Walk mem addr size ok level off) :
    (∀ mem', Agree addr size mem mem' → Unknown (wordOf mem' addr off)) ∨ mem (addr + ofNat off) = 0 := by
  have zero : ∀ x : UInt32, x.toNat < 256 → wordOf mem addr off = x → mem (addr + ofNat off) = 0 := by
    intro x small same
    have word := wordOf_toNat mem addr off
    rw [same] at word
    apply UInt8.toNat_inj.mp
    rw [UInt8.toNat_zero]
    omega
  cases walk with
  | stopped inside unknown =>
    left
    intro mem' agree
    rw [wordOf_congr agree inside]
    exact unknown
  | cut high inside _ nonzero =>
    left
    intro mem' agree
    rw [← agree _ inside] at nonzero
    exact unknown_of_byte high nonzero
  | beginNode _ token _ _ => exact Or.inr (zero _ (by decide) token)
  | endNode _ token _ => exact Or.inr (zero _ (by decide) token)
  | nop _ token _ => exact Or.inr (zero _ (by decide) token)
  | prop _ token _ _ => exact Or.inr (zero _ (by decide) token)

/-- **Walks inside.** The loop ends with the same devices whatever lies behind the blob. -/
theorem Walk.endsWith {level : Level} (walk : Walk mem addr size (NameInside mem addr size) level off) :
    ∀ s : Scan, s.level = level → ∃ devices, ∀ mem', Agree addr size mem mem' →
      EndsWith mem' (addr + ofNat (stringsOff mem addr)) (addr + ofNat off) s devices := by
  induction walk with
  | stopped inside unknown =>
    intro s _
    refine ⟨s.devices, fun mem' agree => ?_⟩
    rw [← wordOf_congr agree inside] at unknown
    exact (endsWith_none (step_unknown unknown s)).mpr rfl
  | cut high inside _ nonzero =>
    intro s _
    refine ⟨s.devices, fun mem' agree => ?_⟩
    rw [← agree _ inside] at nonzero
    exact (endsWith_none (step_unknown (unknown_of_byte high nonzero) s)).mpr rfl
  | @beginNode level off inside token named _ ih =>
    intro s same
    obtain ⟨devices, ends⟩ := ih (s.beginNode (nameOf mem addr (off + 4)).1) (by rw [s.level_beginNode, same])
    refine ⟨devices, fun mem' agree => ?_⟩
    rw [← wordOf_congr agree inside] at token
    rw [endsWith_some (step_beginNode token s), nameOf_congr agree named]
    exact ends mem' agree
  | @endNode level off inside token _ ih =>
    intro s same
    obtain ⟨devices, ends⟩ := ih s.endNode (by rw [s.level_endNode, same])
    refine ⟨devices, fun mem' agree => ?_⟩
    rw [← wordOf_congr agree inside] at token
    rw [endsWith_some (step_endNode token s)]
    exact ends mem' agree
  | @nop level off inside token _ ih =>
    intro s same
    obtain ⟨devices, ends⟩ := ih s same
    refine ⟨devices, fun mem' agree => ?_⟩
    rw [← wordOf_congr agree inside] at token
    rw [endsWith_some (step_nop token s)]
    exact ends mem' agree
  | @prop level off inside token name more ih =>
    intro s same
    subst same
    obtain stops | zero := more.stops_or_zero
    · -- the text of the property may run over the end of the blob, but it is never pushed
      refine ⟨s.devices, fun mem' agree => ?_⟩
      rw [← wordOf_congr agree (by omega)] at token
      rw [endsWith_some (step_prop token s), wordOf_congr agree (by omega),
        endsWith_none (step_unknown (stops mem' agree) _)]
      unfold propertyAt Scan.property Scan.trackCells
      split_ifs <;> rfl
    · obtain ⟨devices, ends⟩ :=
        ih (propertyAt mem addr (addr + ofNat (stringsOff mem addr)) off s) (Scan.level_property ..)
      refine ⟨devices, fun mem' agree => ?_⟩
      rw [← wordOf_congr agree (by omega)] at token
      rw [endsWith_some (step_prop token s), wordOf_congr agree (by omega),
        propertyAt_congr agree inside name more.lt zero]
      exact ends mem' agree

end Inside

/-! ## Blobs that lead outside -/

/-- The offset, far behind any blob, of the property that leads back. -/
def trap (r : Nat) : Nat := 2 ^ 64 - 2 ^ 22 + r

/-- A property of 6291444 bytes, over the end of the address space and past the blob. -/
def leap : List UInt8 := [0, 0, 0, 3, 0, 0x5F, 0xFF, 0xF4]

/-- A byte behind the blob: no-ops at the offsets that are `r` modulo four, and the property at `trap r`. -/
def beyond (r o : Nat) : UInt8 :=
  if trap r ≤ o ∧ o < trap r + 8 then leap.getD (o - trap r) 0
  else if o % 4 = (r + 3) % 4 then 4
  else 0

/-- The blob of `mem`, with no-ops behind it. -/
def extended (addr : UInt64) (size r : Nat) : Memory := fun a =>
  if (a - addr).toNat < size then mem a else beyond r (a - addr).toNat

section Outside

variable {mem : Memory} {addr stringsBase : UInt64} {size r o : Nat}

theorem extended_at (space : o < 2 ^ 64) : extended mem addr size r (addr + ofNat o) =
    if o < size then mem (addr + ofNat o) else beyond r o := by
  have offset : (addr + ofNat o - addr).toNat = o := by
    rw [UInt64.add_comm, UInt64.add_sub_cancel]
    exact Nat.mod_eq_of_lt space
  rw [extended, offset]

theorem agree_extended (small : size ≤ 2 ^ 20) : Agree addr size mem (extended mem addr size r) := by
  intro i inside
  rw [extended_at (by omega), if_pos inside]

theorem wordOf_nop (phase : o % 4 = r) (low : o < trap r) (behind : size ≤ o + 3)
    (zeros : ∀ i, i < 3 → o + i < size → mem (addr + ofNat (o + i)) = 0) :
    wordOf (extended mem addr size r) addr o = fdtNop := by
  unfold trap at low
  have high : ∀ i, i < 3 → extended mem addr size r (addr + ofNat (o + i)) = 0 := by
    intro i three
    rw [extended_at (by omega)]
    by_cases inside : o + i < size
    · rw [if_pos inside, zeros i three inside]
    · rw [if_neg inside, beyond, trap, if_neg (by omega), if_neg (by omega)]
  have last : extended mem addr size r (addr + ofNat (o + 3)) = 4 := by
    rw [extended_at (by omega), if_neg (by omega), beyond, trap, if_neg (by omega), if_pos (by omega)]
  apply UInt32.toNat_inj.mp
  rw [wordOf_toNat, high 1 (by omega), high 2 (by omega), last, show addr + ofNat o = addr + ofNat (o + 0) from rfl,
    high 0 (by omega)]
  rfl

section

variable (small : size ≤ 2 ^ 20) (four : r < 4)
include small four

theorem extended_trap {i : Nat} (near : i < 8) :
    extended mem addr size r (addr + ofNat (trap r + i)) = leap.getD i 0 := by
  have far : 2 ^ 20 ≤ trap r ∧ trap r + 8 ≤ 2 ^ 64 := by
    unfold trap
    omega
  rw [extended_at (by omega), if_neg (by omega), beyond, if_pos (by omega), Nat.add_sub_cancel_left]

theorem wordOf_trap : wordOf (extended mem addr size r) addr (trap r) = fdtProp := by
  apply UInt32.toNat_inj.mp
  rw [wordOf_toNat, extended_trap small four (by omega), extended_trap small four (by omega),
    extended_trap small four (by omega),
    show addr + ofNat (trap r) = addr + ofNat (trap r + 0) from rfl, extended_trap small four (by omega)]
  rfl

theorem wordOf_trap_length : (wordOf (extended mem addr size r) addr (trap r + 4)).toNat = 6291444 := by
  have byte : ∀ i, i < 4 → extended mem addr size r (addr + ofNat (trap r + 4 + i)) = leap.getD (4 + i) 0 := by
    intro i near
    rw [Nat.add_assoc]
    exact extended_trap small four (by omega)
  rw [wordOf_toNat, byte 1 (by omega), byte 2 (by omega), byte 3 (by omega), extended_trap small four (by omega)]
  rfl

end

/-- The loop has left the blob, or will leave it. -/
def Astray (mem : Memory) (addr : UInt64) (size r : Nat) (pos : UInt64) (s : Scan) : Prop :=
  ∃ o, pos = addr + ofNat o ∧ o % 4 = r ∧ o ≤ trap r ∧ ¬ Walk mem addr size (fun _ _ => True) s.level o

theorem astray_of_behind {s : Scan} (phase : o % 4 = r) (low : o ≤ trap r) (behind : size ≤ o) :
    Astray mem addr size r (addr + ofNat o) s := by
  refine ⟨o, rfl, phase, low, fun walk => ?_⟩
  have inside := walk.lt
  omega

theorem alignUp_mod (n : Nat) : alignUp n % 4 = 0 := by
  unfold alignUp
  omega

theorem le_alignUp (n : Nat) : n ≤ alignUp n ∧ alignUp n ≤ n + 3 := by
  unfold alignUp
  omega

/-- A step at the end of the blob or behind it: a no-op, or the property that leads back. -/
theorem astray_step_behind (small : size ≤ 2 ^ 20) {s : Scan} (phase : o % 4 = r) (low : o ≤ trap r)
    (behind : size < o + 4)
    (stray : ¬ Walk mem addr size (fun _ _ => True) s.level o) :
    ∃ next, step (extended mem addr size r) stringsBase (addr + ofNat o) s = some next ∧
      Astray mem addr size r next.1 next.2 := by
  have four : r < 4 := by omega
  by_cases trapped : o = trap r
  · subst trapped
    refine ⟨_, step_prop (wordOf_trap small four) s, ?_⟩
    have wraps : addr + ofNat (trap r + 12 + alignUp 6291444) = addr + ofNat (2 ^ 21 + r) := by
      have total : trap r + 12 + alignUp 6291444 = 2 ^ 64 + (2 ^ 21 + r) := by
        unfold trap alignUp
        omega
      rw [total, UInt64.ofNat_add, show ofNat (2 ^ 64) = 0 from rfl, UInt64.zero_add]
    rw [wordOf_trap_length small four, wraps]
    apply astray_of_behind
    · omega
    · unfold trap
      omega
    · omega
  · have zeros : ∀ i, i < 3 → o + i < size → mem (addr + ofNat (o + i)) = 0 := by
      intro i high inside
      by_contra nonzero
      exact stray (Walk.cut high inside behind nonzero)
    refine ⟨_, step_nop (wordOf_nop phase (by omega) (by omega) zeros) s, astray_of_behind (by omega) ?_ (by omega)⟩
    unfold trap at low trapped ⊢
    omega

theorem nameOf_taken (mem : Memory) (addr : UInt64) (off : Nat) :
    (nameOf mem addr off).2 % 4 = 0 ∧ (nameOf mem addr off).2 ≤ 260 := by
  have short := textLength_le mem (addr + ofNat off) 256
  have taken := le_alignUp (textLength mem (addr + ofNat off) 256 + 1)
  have whole := alignUp_mod (textLength mem (addr + ofNat off) 256 + 1)
  simp only [nameOf, readNodeName, textAt, length_bytesAt]
  omega

theorem astray_step_inside (small : size ≤ 2 ^ 20) {s : Scan} (phase : o % 4 = r) (inside : o + 4 ≤ size)
    (stray : ¬ Walk mem addr size (fun _ _ => True) s.level o) :
    ∃ next, step (extended mem addr size r) stringsBase (addr + ofNat o) s = some next ∧
      Astray mem addr size r next.1 next.2 := by
  have agree : Agree addr size mem (extended mem addr size r) := agree_extended small
  have far : 2 ^ 63 ≤ trap r := by
    unfold trap
    omega
  have same := wordOf_congr agree inside
  by_cases isBegin : wordOf mem addr o = fdtBeginNode
  · refine ⟨_, step_beginNode (same.trans isBegin) s, ?_⟩
    by_cases named : TextInside mem addr size (o + 4)
    · rw [nameOf_congr agree named]
      have taken := nameOf_taken mem addr (o + 4)
      refine ⟨_, rfl, by omega, by omega, fun more => stray ?_⟩
      rw [s.level_beginNode] at more
      exact Walk.beginNode inside isBegin named more
    · have taken := nameOf_taken (extended mem addr size r) addr (o + 4)
      -- the name runs over the end of the blob
      refine astray_of_behind (by omega) (by omega) ?_
      have outside : ¬ TextInside (extended mem addr size r) addr size (o + 4) := by
        intro inside
        unfold TextInside at inside named
        have length :
            textLength mem (addr + ofNat (o + 4)) 256 =
              textLength (extended mem addr size r) (addr + ofNat (o + 4)) 256 :=
          textLength_congr fun i within limit => by
            rw [← add_ofNat_add]
            exact (agree _ (by omega)).symm
        rw [length] at named
        exact named inside
      have behind := le_alignUp (textLength (extended mem addr size r) (addr + ofNat (o + 4)) 256 + 1)
      unfold TextInside at outside
      simp only [nameOf, readNodeName, textAt, length_bytesAt]
      omega
  by_cases isEnd : wordOf mem addr o = fdtEndNode
  · refine ⟨_, step_endNode (same.trans isEnd) s, _, rfl, by omega, by omega, fun more => stray ?_⟩
    rw [s.level_endNode] at more
    exact Walk.endNode inside isEnd more
  by_cases isProp : wordOf mem addr o = fdtProp
  · refine ⟨_, step_prop (same.trans isProp) s, ?_⟩
    set len := wordOf (extended mem addr size r) addr (o + 4) with len_eq
    have short := len.toNat_lt
    have taken := le_alignUp len.toNat
    have whole := alignUp_mod len.toNat
    by_cases headed : o + 12 ≤ size
    · refine ⟨_, rfl, by omega, by omega, fun more => stray ?_⟩
      rw [len_eq, wordOf_congr agree (by omega), propertyAt, Scan.level_property] at more
      exact Walk.prop headed isProp trivial more
    · exact astray_of_behind (by omega) (by omega) (by omega)
  by_cases isNop : wordOf mem addr o = fdtNop
  · refine ⟨_, step_nop (same.trans isNop) s, _, rfl, by omega, by omega, fun more => stray ?_⟩
    exact Walk.nop inside isNop more
  · exact absurd (Walk.stopped inside ⟨isBegin, isEnd, isProp, isNop⟩) stray

theorem Astray.not_endsWith (small : size ≤ 2 ^ 20) {pos : UInt64} {s : Scan} (astray : Astray mem addr size r pos s)
    {devices : List DeviceNode} : ¬ EndsWith (extended mem addr size r) stringsBase pos s devices := by
  rintro ⟨fuel, run⟩
  induction fuel generalizing pos s with
  | zero => cases run
  | succ fuel ih =>
    obtain ⟨o, rfl, phase, low, stray⟩ := astray
    have goes : ∃ next, step (extended mem addr size r) stringsBase (addr + ofNat o) s = some next ∧
        Astray mem addr size r next.1 next.2 := by
      by_cases inside : o + 4 ≤ size
      · exact astray_step_inside small phase inside stray
      · exact astray_step_behind small phase low (by omega) stray
    obtain ⟨next, goes, astray⟩ := goes
    rw [parseFrom, goes] at run
    exact ih astray run

end Outside

/-! ## Accepted blobs -/

section Accepted

variable {mem : Memory} {addr : UInt64} {size : Nat}

section

variable (valid : validateDtb mem addr = some size)
include valid

theorem validateDtb_spec : readBe32 mem addr = fdtMagic ∧ 48 ≤ size ∧ size ≤ 2 ^ 20 := by
  unfold validateDtb at valid
  split_ifs at valid with magic
  simp only at valid
  split_ifs at valid with bounds
  have total := Option.some.inj valid
  exact ⟨not_not.mp magic, by omega, by omega⟩

theorem parses_of_agree (nonzero : addr ≠ 0) {mem' : Memory}
    (agree : Agree addr size mem mem') {devices : List DeviceNode} : Parses mem' addr devices ↔
      EndsWith mem' (addr + ofNat (stringsOff mem addr)) (addr + ofNat (structOff mem addr)) Scan.new devices := by
  obtain ⟨magic, _, -⟩ := validateDtb_spec valid
  have start : ∀ m : Memory, wordOf m addr 0 = readBe32 m addr := by
    intro m
    rw [wordOf, show ofNat 0 = 0 from rfl, UInt64.add_zero]
  have magic' : readBe32 mem' addr = fdtMagic := by
    rw [← start, wordOf_congr agree (by omega), start, magic]
  have structWord : wordOf mem' addr 8 = wordOf mem addr 8 := wordOf_congr agree (by omega)
  have stringsWord : wordOf mem' addr 12 = wordOf mem addr 12 := wordOf_congr agree (by omega)
  rw [wordOf, show ofNat 8 = 8 from rfl] at structWord
  rw [wordOf, show ofNat 12 = 12 from rfl] at stringsWord
  rw [parses_iff nonzero magic', structWord, stringsWord, toUInt64_eq, toUInt64_eq]
  rfl

/-- Where the walk leaves the blob, there are contents behind it with which the parser never returns. -/
theorem not_parses_extended (nonzero : addr ≠ 0)
    (stray : ¬ Walk mem addr size (fun _ _ => True) Scan.new.level (structOff mem addr)) (devices : List DeviceNode) :
    ¬ Parses (extended mem addr size (structOff mem addr % 4)) addr devices := by
  obtain ⟨-, -, small⟩ := validateDtb_spec valid
  rw [parses_of_agree valid nonzero (agree_extended small)]
  have low := (wordOf mem addr 8).toNat_lt
  have start : Astray mem addr size (structOff mem addr % 4) (addr + ofNat (structOff mem addr)) Scan.new := by
    refine ⟨_, rfl, rfl, ?_, stray⟩
    unfold structOff trap
    omega
  exact start.not_endsWith small

end

/-- **Device tree parsing and its blob.** For the blobs that `validate_dtb` accepts: if the parser
returns the same devices whatever lies behind the blob, then the walk over the tokens and the names of nodes
stays inside (or there is no blob); and it does if the names of the properties it looks at stay inside, too. -/
theorem depends_on_blob (valid : validateDtb mem addr = some size) :
    (DependsOnBlob mem addr size →
      addr = 0 ∨ Walk mem addr size (fun _ _ => True) Scan.new.level (structOff mem addr)) ∧
    (addr = 0 ∨ Walk mem addr size (NameInside mem addr size) Scan.new.level (structOff mem addr) →
      DependsOnBlob mem addr size) := by
  constructor
  · intro depends
    by_contra neither
    obtain ⟨nonzero, stray⟩ := not_or.mp neither
    have agree : Agree addr size mem (extended mem addr size (structOff mem addr % 4)) :=
      agree_extended (validateDtb_spec valid).2.2
    obtain ⟨devices, parsed, -⟩ := depends _ _ agree agree
    exact not_parses_extended valid nonzero stray devices parsed
  · rintro (rfl | walk) m₁ m₂ agree₁ agree₂
    · exact ⟨[], ⟨0, rfl⟩, ⟨0, rfl⟩⟩
    · by_cases zero : addr = 0
      · subst zero
        exact ⟨[], ⟨0, rfl⟩, ⟨0, rfl⟩⟩
      · obtain ⟨devices, ends⟩ := walk.endsWith Scan.new rfl
        refine ⟨devices, ?_, ?_⟩
        · exact (parses_of_agree valid zero agree₁).mpr (ends m₁ agree₁)
        · exact (parses_of_agree valid zero agree₂).mpr (ends m₂ agree₂)

end Accepted

/-- A check of `fuel` tokens from an offset on: the walk stays inside, and so do the names of all properties. -/
def staysInside (mem : Memory) (addr : UInt64) (size : Nat) : Nat → Nat → Bool
  | 0, _ => false
  | fuel + 1, off =>
    let token := wordOf mem addr off
    if token = fdtBeginNode then
      decide (off + 4 ≤ size ∧ TextInside mem addr size (off + 4)) &&
        staysInside mem addr size fuel (off + 4 + (nameOf mem addr (off + 4)).2)
    else if token = fdtEndNode ∨ token = fdtNop then
      decide (off + 4 ≤ size) && staysInside mem addr size fuel (off + 4)
    else if token = fdtProp then
      decide (off + 12 ≤ size ∧ TextInside mem addr size (stringsOff mem addr + (wordOf mem addr (off + 8)).toNat)) &&
        staysInside mem addr size fuel (off + 12 + alignUp (wordOf mem addr (off + 4)).toNat)
    else decide (off + 4 ≤ size)

theorem Walk.of_staysInside {mem : Memory} {addr : UInt64} {size off fuel : Nat}
    (checked : staysInside mem addr size fuel off = true) (level : Level) :
    Walk mem addr size (NameInside mem addr size) level off := by
  induction fuel generalizing off level with
  | zero => cases checked
  | succ fuel ih =>
    unfold staysInside at checked
    dsimp only at checked
    split_ifs at checked with isBegin isEndOrNop isProp
    · obtain ⟨⟨inside, named⟩, more⟩ := by simpa using checked
      exact .beginNode inside isBegin named (ih more _)
    · obtain ⟨inside, more⟩ := by simpa using checked
      obtain isEnd | isNop := isEndOrNop
      · exact .endNode inside isEnd (ih more _)
      · exact .nop inside isNop (ih more _)
    · obtain ⟨⟨inside, named⟩, more⟩ := by simpa using checked
      exact .prop inside isProp (fun _ => named) (ih more _)
    · obtain ⟨notEnd, notNop⟩ := not_or.mp isEndOrNop
      exact .stopped (by simpa using checked) ⟨isBegin, notEnd, isProp, notNop⟩

theorem depends_on_blob_oneUart : validateDtb (load 0x80000000 oneUart.flatten) 0x80000000 = some 261 ∧
    DependsOnBlob (load 0x80000000 oneUart.flatten) 0x80000000 261 := by
  have valid : validateDtb (load 0x80000000 oneUart.flatten) 0x80000000 = some 261 := by decide +kernel
  have inside : staysInside (load 0x80000000 oneUart.flatten) 0x80000000 261 12
      (structOff (load 0x80000000 oneUart.flatten) 0x80000000) = true := by decide +kernel
  exact ⟨valid, (depends_on_blob valid).2 (Or.inr (.of_staysInside inside _))⟩

def bareHeader : List UInt8 := header 0 0 ++ replicate 16 0

/-- `validate_dtb` accepts the blob, whose first token would lie behind it. With zeros there the parser
returns, with no-ops it does not. -/
theorem no_ops_behind_header : validateDtb (load 0x80000000 bareHeader) 0x80000000 = some 56 ∧
    Parses (load 0x80000000 bareHeader) 0x80000000 [] ∧
    (∀ devices, ¬ Parses (extended (load 0x80000000 bareHeader) 0x80000000 56 0) 0x80000000 devices) ∧
    ¬ DependsOnBlob (load 0x80000000 bareHeader) 0x80000000 56 := by
  have valid : validateDtb (load 0x80000000 bareHeader) 0x80000000 = some 56 := by decide +kernel
  have start : structOff (load 0x80000000 bareHeader) 0x80000000 = 56 := by decide +kernel
  have never : ∀ devices, ¬ Parses (extended (load 0x80000000 bareHeader) 0x80000000 56 0) 0x80000000 devices := by
    have outside := not_parses_extended valid (by decide) (fun walk => absurd walk.lt (by rw [start]; omega))
    rwa [start] at outside
  refine ⟨valid, ⟨1, by decide +kernel⟩, never, ?_⟩
  intro depends
  have agree :
      Agree 0x80000000 56 (load 0x80000000 bareHeader) (extended (load 0x80000000 bareHeader) 0x80000000 56 0) :=
    agree_extended (by decide)
  obtain ⟨devices, parsed, -⟩ := depends _ _ agree agree
  exact never devices parsed

end HavyOs.Dtb
