import Mathlib.Data.List.Basic

/-!
# UTF-8 and ASCII

The bytes of a text are the encodings of its characters one after the other. A byte below 128 is
a character of its own and no part of another one, so a text can be cut at such a byte, and a text
of such bytes is read character by character.
-/

namespace HavyOs.Lib

open List
open String (length_utf8EncodeChar utf8EncodeChar)

def encode (text : List Char) : List UInt8 := text.flatMap utf8EncodeChar

def asciiChar (b : UInt8) : Char := Char.ofNat b.toNat

def IsAscii (b : UInt8) : Prop := b.toNat < 128

instance : DecidablePred IsAscii := fun b => inferInstanceAs (Decidable (b.toNat < 128))

variable {b : UInt8} {text p : List Char} {n : Nat}

theorem toNat_asciiChar (ascii : IsAscii b) : (asciiChar b).toNat = b.toNat := by
  have valid : b.toNat.isValidChar := Or.inl (by unfold IsAscii at ascii; omega)
  rw [asciiChar, Char.ofNat, dif_pos valid]
  rfl

@[simp] theorem encode_nil : encode [] = [] := rfl

@[simp] theorem encode_cons (c : Char) (text : List Char) : encode (c :: text) = utf8EncodeChar c ++ encode text := rfl

theorem encode_append (left right : List Char) : encode (left ++ right) = encode left ++ encode right :=
  flatMap_append

theorem utf8EncodeChar_ne_nil (c : Char) : utf8EncodeChar c ≠ [] := by
  unfold utf8EncodeChar
  dsimp only
  split
  · exact cons_ne_nil _ _
  · split
    · exact cons_ne_nil _ _
    · split
      · exact cons_ne_nil _ _
      · exact cons_ne_nil _ _

theorem encode_eq_nil (empty : encode text = []) : text = [] := by
  cases text with
  | nil => rfl
  | cons c text => exact absurd (append_eq_nil_iff.mp empty).1 (utf8EncodeChar_ne_nil c)

/-- A byte of a longer encoding is 128 or more. -/
theorem not_isAscii_of_mem {codes : List Nat} (member : b ∈ codes.map UInt8.ofNat)
    (range : ∀ x ∈ codes, 128 ≤ x ∧ x < 256) : ¬IsAscii b := by
  obtain ⟨x, inside, rfl⟩ := mem_map.mp member
  have := range x inside
  unfold IsAscii
  rw [UInt8.toNat_ofNat']
  omega

/-- A byte below 128 is the whole encoding of its character. -/
theorem utf8EncodeChar_of_ascii {c : Char} (member : b ∈ utf8EncodeChar c) (ascii : IsAscii b) :
    utf8EncodeChar c = [b] ∧ c = asciiChar b := by
  unfold utf8EncodeChar at member ⊢
  dsimp only at member
  split at member
  · rename_i small
    rw [if_pos small, mem_singleton.mp member]
    refine ⟨rfl, ?_⟩
    have value : (UInt8.ofNat c.val.toNat).toNat = c.toNat := by
      change c.val.toNat % 2 ^ 8 = c.val.toNat
      omega
    rw [asciiChar, value, Char.ofNat_toNat]
  · exfalso
    split at member
    · exact not_isAscii_of_mem (show b ∈ [_, _].map UInt8.ofNat from member) (by simp; omega) ascii
    · split at member
      · exact not_isAscii_of_mem (show b ∈ [_, _, _].map UInt8.ofNat from member) (by simp; omega) ascii
      · exact not_isAscii_of_mem (show b ∈ [_, _, _, _].map UInt8.ofNat from member) (by simp; omega) ascii

/-- **A text is cut at a byte below 128.** -/
theorem encode_split {left right : List UInt8} (ascii : IsAscii b)
    (bytes : encode text = left ++ b :: right) :
    ∃ before after, text = before ++ asciiChar b :: after ∧ encode before = left ∧ encode after = right := by
  induction text generalizing left with
  | nil => exact absurd bytes.symm (append_ne_nil_of_right_ne_nil _ (cons_ne_nil _ _))
  | cons c text ih =>
    rcases append_eq_append_iff.mp bytes with ⟨more, rfl, rest⟩ | ⟨more, first, rest⟩
    · -- the byte is behind the first character
      obtain ⟨before, after, rfl, sameLeft, sameRight⟩ := ih rest
      exact ⟨c :: before, after, rfl, by rw [encode_cons, sameLeft], sameRight⟩
    · cases more with
      | nil =>
        obtain ⟨before, after, rfl, sameLeft, sameRight⟩ := ih (show encode text = [] ++ b :: right from rest.symm)
        refine ⟨c :: before, after, rfl, ?_, sameRight⟩
        rw [encode_cons, sameLeft, append_nil, first, append_nil]
      | cons b' more =>
        -- the byte is in the first character, so it is this character
        obtain ⟨rfl, same⟩ := cons.inj rest
        obtain ⟨single, char⟩ := utf8EncodeChar_of_ascii (by rw [first]; simp) ascii
        rw [single] at first
        have lengths := congrArg length first
        simp only [length_cons, length_append, length_nil] at lengths
        have noLeft : left = [] := length_eq_zero_iff.mp (by omega)
        have noMore : more = [] := length_eq_zero_iff.mp (by omega)
        refine ⟨[], text, by rw [nil_append, char], by rw [noLeft, encode_nil], ?_⟩
        rw [same, noMore]
        exact (nil_append _).symm

/-- A text of bytes below 128 is read byte by byte. -/
theorem encode_ascii_append {bytes right : List UInt8} (ascii : ∀ b ∈ bytes, IsAscii b)
    (same : encode text = bytes ++ right) : ∃ rest, text = bytes.map asciiChar ++ rest ∧ encode rest = right := by
  induction bytes generalizing text with
  | nil => exact ⟨text, rfl, same⟩
  | cons b bytes ih =>
    obtain ⟨_, _, rfl, nothing, later⟩ := encode_split (ascii b mem_cons_self)
      (show encode text = [] ++ b :: (bytes ++ right) from same)
    obtain ⟨rest, rfl, last⟩ := ih (fun b' member => ascii b' (mem_cons_of_mem b member)) later
    exact ⟨rest, by rw [encode_eq_nil nothing]; rfl, last⟩

theorem eq_map_of_encode_ascii {bytes : List UInt8} (ascii : ∀ b ∈ bytes, IsAscii b)
    (same : encode text = bytes) : text = bytes.map asciiChar := by
  obtain ⟨_, rfl, empty⟩ := encode_ascii_append ascii (same.trans (append_nil bytes).symm)
  rw [encode_eq_nil empty, append_nil]

theorem asciiChar_not_mem {bytes : List UInt8} (ascii : IsAscii b) (others : ∀ a ∈ bytes, IsAscii a ∧ a ≠ b) :
    asciiChar b ∉ bytes.map asciiChar := by
  intro member
  obtain ⟨a, present, same⟩ := mem_map.mp member
  have value := congrArg Char.toNat same
  rw [toNat_asciiChar (others a present).1, toNat_asciiChar ascii] at value
  exact (others a present).2 (UInt8.toNat_inj.mp value)

/-! ## Slices -/

theorem length_le_encode (text : List Char) : text.length ≤ (encode text).length := by
  induction text with
  | nil => exact Nat.zero_le _
  | cons c text ih =>
    have wide := c.utf8Size_pos
    rw [encode_cons, length_append, length_utf8EncodeChar, length_cons]
    omega

/-- A text has as many bytes as characters when all of them are ASCII, and else more. -/
theorem length_encode_eq_iff : (encode text).length = text.length ↔ ∀ c ∈ text, c.utf8Size = 1 := by
  induction text with
  | nil => simp
  | cons c text ih =>
    have wide := c.utf8Size_pos
    have longer := length_le_encode text
    rw [forall_mem_cons, ← ih, encode_cons, length_append, length_utf8EncodeChar, length_cons]
    omega

/-- The slice `text[..n]`, if a character ends there. -/
def sliceTo : List Char → Nat → Option (List Char)
  | _, 0 => some []
  | [], _ => none
  | c :: text, n => if c.utf8Size ≤ n then (sliceTo text (n - c.utf8Size)).map (c :: ·) else none

theorem sliceTo_spec (cut : sliceTo text n = some p) : p <+: text ∧ (encode p).length = n := by
  fun_induction sliceTo generalizing p with
  | case1 => cases cut; exact ⟨List.nil_prefix, rfl⟩
  | case2 => cases cut
  | case3 c text n positive fits ih =>
    obtain ⟨_, tail, rfl⟩ := Option.map_eq_some_iff.mp cut
    obtain ⟨begins, length⟩ := ih tail
    rw [encode_cons, length_append, length_utf8EncodeChar]
    exact ⟨(prefix_cons_inj c).mpr begins, by omega⟩
  | case4 => cases cut

theorem sliceTo_encode (begins : p <+: text) : sliceTo text (encode p).length = some p := by
  obtain ⟨_, rfl⟩ := begins
  induction p with
  | nil => simp [sliceTo]
  | cons c p ih =>
    have wide := c.utf8Size_pos
    rw [encode_cons, length_append, length_utf8EncodeChar, cons_append, sliceTo, if_pos (by omega),
      Nat.add_sub_cancel_left, ih]
    · rfl
    · omega

end HavyOs.Lib
