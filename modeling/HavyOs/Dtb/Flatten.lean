import HavyOs.Dtb.Tree

/-!
# Flattening

Every tree whose names fit has a flattened form: the header, an empty memory reservation block, the
structure block, and a strings block with the name of each property in turn.
-/

namespace HavyOs.Dtb

open HavyOs.Lib List
open Fs (asBytes)

/-- The zero bytes up to the next multiple of four. -/
def padding (n : Nat) : List UInt8 := replicate (alignUp n - n) 0

variable (nameOff : Nat)

/-- The bytes of a token. The name of a property lies at `nameOff` in the strings block. -/
def Token.bytes : Token → List UInt8
  | .beginNode name => toBe 4 fdtBeginNode.toNat ++ (asBytes name ++ [0] ++ padding ((asBytes name).length + 1))
  | .endNode => toBe 4 fdtEndNode.toNat
  | .prop p =>
      toBe 4 fdtProp.toNat ++ (toBe 4 p.value.length ++ (toBe 4 nameOff ++ (p.value ++ padding p.value.length)))

/-- What a token adds to the strings block. -/
def Token.text : Token → List UInt8
  | .prop p => asBytes p.name ++ [0]
  | _ => []

/-- The structure block, with the strings block filled up to `nameOff`. -/
def structureBlock : Nat → List Token → List UInt8
  | _, [] => toBe 4 fdtEnd.toNat
  | nameOff, token :: tokens => token.bytes nameOff ++ structureBlock (nameOff + token.text.length) tokens

def stringsBlock (tokens : List Token) : List UInt8 := tokens.flatMap Token.text

def header (structSize stringsSize : Nat) : List UInt8 :=
  [fdtMagic.toNat, 56 + structSize + stringsSize, 56, 56 + structSize, 40, 17, 16, 0, stringsSize, structSize].flatMap
    (toBe 4)

def Tree.flatten (tree : Tree) : List UInt8 :=
  let struct := structureBlock 0 tree.tokens
  let strings := stringsBlock tree.tokens
  header struct.length strings.length ++ (replicate 16 0 ++ (struct ++ strings))

def ShortName (name : String) : Prop := 0 ∉ asBytes name ∧ (asBytes name).length ≤ 256

instance (name : String) : Decidable (ShortName name) := inferInstanceAs (Decidable (_ ∧ _))

/-- Names are short, and the value of a `compatible` property is a list of strings. -/
def Token.Fits : Token → Prop
  | .beginNode name => ShortName name
  | .endNode => True
  | .prop p => ShortName p.name ∧ (p.name = "compatible" → 0 ∈ p.value)

instance : DecidablePred Token.Fits
  | .beginNode name => inferInstanceAs (Decidable (ShortName name))
  | .endNode => inferInstanceAs (Decidable True)
  | .prop p => inferInstanceAs (Decidable (ShortName p.name ∧ (p.name = "compatible" → 0 ∈ p.value)))

/-- The blob of the tree is no longer than its size field can say. -/
structure Tree.Fits (tree : Tree) : Prop where
  tokens : ∀ token ∈ tree.tokens, token.Fits
  size : tree.flatten.length < 2 ^ 32

theorem length_padding (n : Nat) : n + (padding n).length = alignUp n := by
  rw [padding, length_replicate, alignUp]
  omega

theorem toUInt64_ofNat {n : Nat} (small : n < 2 ^ 32) : (UInt32.ofNat n).toUInt64 = UInt64.ofNat n := by
  apply UInt64.toNat_inj.mp
  rw [UInt64.toNat_ofNat', UInt32.toNat_toUInt64, UInt32.toNat_ofNat']
  omega

/-! ## A flattened tree lies in memory -/

section Blocks

variable {mem : Memory} {stringsBase pos : UInt64} {nameOff : Nat}

theorem nameAt_of_hasBytes {name : String} (short : ShortName name) (holds : HasBytes mem pos (asBytes name ++ [0])) :
    NameAt mem pos name where
  bytes := holds.left
  ends := byte_of_bytesAt holds (by simp)
  plain := short.1
  short := short.2

theorem wordAt_of_hasBytes {x : Nat} (small : x < 2 ^ 32) (holds : HasBytes mem pos (toBe 4 x)) :
    WordAt mem pos (UInt32.ofNat x) := by
  rw [WordAt, UInt32.toNat_ofNat', Nat.mod_eq_of_lt small]
  rwa [HasBytes] at holds

theorem tokenAt_of_hasBytes {token : Token} (fits : token.Fits) (holds : HasBytes mem pos (token.bytes nameOff))
    (named : HasBytes mem (stringsBase + UInt64.ofNat nameOff) token.text) (low : nameOff < 2 ^ 32)
    (small : (token.bytes nameOff).length < 2 ^ 32) :
    TokenAt mem stringsBase pos token (pos + UInt64.ofNat (token.bytes nameOff).length) := by
  cases token with
  | beginNode name =>
    have word : WordAt mem pos fdtBeginNode := wordAt_of_hasBytes (by decide) holds.left
    have name' : NameAt mem (pos + 4) name := nameAt_of_hasBytes fits (holds.right (toBe_length _ _)).left
    have length : ((Token.beginNode name).bytes nameOff).length = 4 + alignUp ((asBytes name).length + 1) := by
      simp only [Token.bytes, length_append, toBe_length, length_singleton, length_padding]
    rw [length, add_ofNat_add]
    exact TokenAt.beginNode word name'
  | endNode =>
    exact TokenAt.endNode (wordAt_of_hasBytes (by decide) holds)
  | prop p =>
    have length : ((Token.prop p).bytes nameOff).length = 4 + (8 + alignUp p.value.length) := by
      simp only [Token.bytes, length_append, toBe_length, length_padding]
      omega
    have le : p.value.length ≤ alignUp p.value.length := by
      rw [alignUp]
      omega
    have behind := holds.right (toBe_length _ _)
    have afterLen := behind.right (toBe_length _ _)
    have afterOff := afterLen.right (toBe_length _ _)
    rw [← toUInt64_ofNat low] at named
    rw [length, add_ofNat_add, add_ofNat_add]
    exact TokenAt.prop (wordAt_of_hasBytes (by decide) holds.left) (by omega)
      (wordAt_of_hasBytes (by omega) behind.left)
      (wordAt_of_hasBytes low afterLen.left) (nameAt_of_hasBytes fits.1 named)
      (by rw [← add_ofNat_add] at afterOff; exact afterOff.left) fits.2

theorem stream_of_hasBytes {tokens : List Token} (fits : ∀ token ∈ tokens, token.Fits)
    (holds : HasBytes mem pos (structureBlock nameOff tokens))
    (named : HasBytes mem (stringsBase + UInt64.ofNat nameOff) (stringsBlock tokens))
    (low : nameOff + (stringsBlock tokens).length < 2 ^ 32) (small : (structureBlock nameOff tokens).length < 2 ^ 32) :
    ∃ stop, Stream mem stringsBase pos tokens stop ∧ WordAt mem stop fdtEnd := by
  induction tokens generalizing pos nameOff with
  | nil => exact ⟨pos, .nil pos, wordAt_of_hasBytes (by decide) holds⟩
  | cons token tokens ih =>
    simp only [stringsBlock, flatMap_cons, length_append] at low
    simp only [structureBlock, length_append] at small
    have here := tokenAt_of_hasBytes (fits token mem_cons_self) holds.left named.left (by omega) (by omega)
    have rest := named.right rfl
    rw [← add_ofNat_add] at rest
    obtain ⟨stop, stream, finish⟩ := ih (fun t member => fits t (mem_cons_of_mem _ member)) (holds.right rfl) rest
      (by rw [stringsBlock]; omega) (by omega)
    exact ⟨stop, .cons here stream, finish⟩

end Blocks

theorem Token.bytes_length_pos (token : Token) : 0 < (token.bytes nameOff).length := by
  cases token with
  | beginNode name =>
    rw [bytes, length_append, toBe_length]
    omega
  | endNode =>
    rw [bytes, toBe_length]
    omega
  | prop p =>
    rw [bytes, length_append, toBe_length]
    omega

theorem length_le_structureBlock (tokens : List Token) : tokens.length ≤ (structureBlock nameOff tokens).length := by
  induction tokens generalizing nameOff with
  | nil => exact Nat.zero_le _
  | cons token tokens ih =>
    have some := token.bytes_length_pos nameOff
    have more := ih (nameOff + token.text.length)
    rw [structureBlock, length_append, length_cons]
    omega

theorem length_header (structSize stringsSize : Nat) : (header structSize stringsSize).length = 40 := by
  simp [header]

/-- **Flattening.** Wherever the blob of a tree lies, the tree lies there in its flattened form. -/
theorem flattened_of_hasBytes {mem : Memory} {addr : UInt64} {tree : Tree} (nonzero : addr ≠ 0) (fits : tree.Fits)
    (holds : HasBytes mem addr tree.flatten) : Flattened mem addr tree := by
  have size := fits.size
  simp only [Tree.flatten] at size
  simp only [length_append, length_header, length_replicate] at size
  have head := holds.left
  have magic : WordAt mem addr fdtMagic := wordAt_of_hasBytes (by decide) head.left
  have second := (head.right (toBe_length _ _)).right (toBe_length _ _)
  rw [← add_ofNat_add] at second
  have third := second.right (toBe_length _ _)
  rw [← add_ofNat_add] at third
  have structOff : readBe32 mem (addr + 8) = UInt32.ofNat 56 :=
    readBe32_of_wordAt (wordAt_of_hasBytes (by decide) second.left)
  have stringsOff : readBe32 mem (addr + 12) = UInt32.ofNat (56 + (structureBlock 0 tree.tokens).length) :=
    readBe32_of_wordAt (wordAt_of_hasBytes (by omega) third.left)
  have blocks := (holds.right (length_header _ _)).right length_replicate
  rw [← add_ofNat_add] at blocks
  have texts := blocks.right rfl
  rw [← add_ofNat_add] at texts
  refine ⟨nonzero, magic, ?_, ?_⟩
  · have few := length_le_structureBlock 0 tree.tokens
    omega
  · rw [structOff, stringsOff, toUInt64_ofNat (by omega)]
    apply stream_of_hasBytes fits.tokens blocks.left
    · rw [show UInt64.ofNat 0 = 0 from rfl, UInt64.add_zero]
      exact texts
    · omega
    · omega

/-- **Every tree that fits has a flattened form.** -/
theorem flattened_load {addr : UInt64} {tree : Tree} (nonzero : addr ≠ 0) (fits : tree.Fits) :
    Flattened (load addr tree.flatten) addr tree := by
  have size := fits.size
  exact flattened_of_hasBytes nonzero fits (hasBytes_load addr (by omega))

end HavyOs.Dtb
