import Mathlib.Data.List.Basic

/-!
# Lines, fields and numbers of a text

A text is a list of characters. `lines` cuts it at the newlines and takes the line ends off,
`rsplitOnce` cuts a line at the last occurrence of a separator, and `parseUnsigned` reads a
decimal number, all as the string library of the modelled programs does. What is written as
lines is read back as these lines when no line has a newline in it, and a number is read back
as it was printed. `findSub` is the first occurrence of a pattern.
-/

namespace HavyOs.Lib

open List

/-! ## Lines -/

/-- `split_inclusive('\n')`: the lines with their newlines. -/
def splitInclusive : List Char → List (List Char)
  | [] => []
  | c :: rest =>
    if c = '\n' then ['\n'] :: splitInclusive rest
    else match splitInclusive rest with
      | [] => [[c]]
      | line :: more => (c :: line) :: more

/-- `strip_suffix` of one character. -/
def stripSuffix (c : Char) (line : List Char) : Option (List Char) :=
  if line.getLast? = some c then some line.dropLast else none

/-- A line without its end, a newline or a carriage return and a newline. -/
def stripLineEnd (line : List Char) : List Char :=
  match stripSuffix '\n' line with
  | none => line
  | some line => (stripSuffix '\r' line).getD line

def lines (text : List Char) : List (List Char) := (splitInclusive text).map stripLineEnd

variable {line text : List Char} {c sep : Char} {right left : List Char} {n : Nat}

theorem splitInclusive_line (plain : '\n' ∉ line) (rest : List Char) :
    splitInclusive (line ++ '\n' :: rest) = (line ++ ['\n']) :: splitInclusive rest := by
  induction line with
  | nil => rw [nil_append, splitInclusive, if_pos rfl, nil_append]
  | cons c line ih =>
    have other : c ≠ '\n' := fun same => plain (same ▸ mem_cons_self)
    rw [cons_append, splitInclusive, if_neg other, ih fun member => plain (mem_cons_of_mem c member)]
    rfl

theorem stripLineEnd_newline (plain : line.getLast? ≠ some '\r') : stripLineEnd (line ++ ['\n']) = line := by
  have newline : stripSuffix '\n' (line ++ ['\n']) = some line := by simp [stripSuffix]
  have kept : stripSuffix '\r' line = none := if_neg plain
  simp [stripLineEnd, newline, kept]

/-- Lines that are written one after the other are read back. -/
theorem lines_flatMap {texts : List (List Char)} (plain : ∀ line ∈ texts, '\n' ∉ line ∧ line.getLast? ≠ some '\r') :
    lines (texts.flatMap fun line => line ++ ['\n']) = texts := by
  induction texts with
  | nil => rfl
  | cons line texts ih =>
    obtain ⟨one, last⟩ := plain line mem_cons_self
    have rest := ih fun other member => plain other (mem_cons_of_mem line member)
    rw [lines] at rest ⊢
    rw [flatMap_cons, append_assoc, singleton_append, splitInclusive_line one, map_cons,
      stripLineEnd_newline last, rest]

theorem splitInclusive_last (nonempty : line ≠ []) (plain : '\n' ∉ line) : splitInclusive line = [line] := by
  induction line with
  | nil => exact absurd rfl nonempty
  | cons c rest ih =>
    have other : c ≠ '\n' := fun same => plain (same ▸ mem_cons_self)
    rw [splitInclusive, if_neg other]
    cases rest with
    | nil => rfl
    | cons d rest => rw [ih (cons_ne_nil d rest) fun member => plain (mem_cons_of_mem c member)]

/-- Lines that end with a carriage return and a newline are read back, also the last, which has no end. -/
theorem lines_crlf {first : List Char} {more : List (List Char)}
    (plain : ∀ line ∈ first :: more, line ≠ [] ∧ '\n' ∉ line ∧ '\r' ∉ line) :
    lines (first ++ more.flatMap fun line => '\r' :: '\n' :: line) = first :: more := by
  induction more generalizing first with
  | nil =>
    obtain ⟨nonempty, newline, _⟩ := plain first mem_cons_self
    have whole : splitInclusive first = [first] := splitInclusive_last nonempty newline
    have kept : stripSuffix '\n' first = none := if_neg fun last => newline (mem_of_getLast? last)
    rw [flatMap_nil, append_nil, lines, whole, map_singleton, stripLineEnd, kept]
  | cons line more ih =>
    obtain ⟨_, newline, _⟩ := plain first mem_cons_self
    have rest := ih fun other member => plain other (mem_cons_of_mem first member)
    have ended : '\n' ∉ first ++ ['\r'] := by
      intro member
      rcases mem_append.mp member with inside | last
      · exact newline inside
      · exact absurd (mem_singleton.mp last) (by decide)
    have cut : first ++ (line :: more).flatMap (fun line => '\r' :: '\n' :: line) =
        (first ++ ['\r']) ++ '\n' :: (line ++ more.flatMap fun line => '\r' :: '\n' :: line) := by
      rw [append_assoc]
      rfl
    have stripped : stripLineEnd (first ++ ['\r'] ++ ['\n']) = first := by simp [stripLineEnd, stripSuffix]
    rw [lines] at rest ⊢
    rw [cut, splitInclusive_line ended, map_cons, stripped, rest]

/-- Only the end of a line is a newline. -/
theorem newline_of_mem_splitInclusive (member : line ∈ splitInclusive text) :
    '\n' ∉ line ∨ ∃ start, line = start ++ ['\n'] ∧ '\n' ∉ start := by
  induction text generalizing line with
  | nil => exact absurd member not_mem_nil
  | cons c rest ih =>
    rw [splitInclusive] at member
    split_ifs at member with other
    · rcases mem_cons.mp member with rfl | later
      · exact .inr ⟨[], rfl, not_mem_nil⟩
      · exact ih later
    · have plain : ∀ start, '\n' ∉ start → '\n' ∉ c :: start := by
        intro start absent member
        rcases mem_cons.mp member with same | later
        · exact other same.symm
        · exact absent later
      split at member
      · rw [mem_singleton.mp member]
        exact .inl (plain [] not_mem_nil)
      · rename_i first more cut
        rcases mem_cons.mp member with rfl | later
        · rcases ih (cut ▸ mem_cons_self) with absent | ⟨start, rfl, absent⟩
          · exact .inl (plain first absent)
          · exact .inr ⟨c :: start, rfl, plain start absent⟩
        · exact ih (cut ▸ mem_cons_of_mem first later)

/-- A line that was read has no newline. -/
theorem newline_not_mem_lines (member : line ∈ lines text) : '\n' ∉ line := by
  obtain ⟨whole, present, rfl⟩ := mem_map.mp member
  unfold stripLineEnd
  rcases newline_of_mem_splitInclusive present with absent | ⟨start, rfl, absent⟩
  · have kept : stripSuffix '\n' whole = none := if_neg fun last => absent (mem_of_getLast? last)
    rw [kept]
    exact absent
  · have newline : stripSuffix '\n' (start ++ ['\n']) = some start := by simp [stripSuffix]
    simp only [newline]
    cases stripped : stripSuffix '\r' start with
    | none => exact absent
    | some shorter =>
      unfold stripSuffix at stripped
      split_ifs at stripped
      rw [← Option.some.inj stripped]
      exact fun member => absent (dropLast_subset _ member)

/-! ## Fields -/

/-- `rfind` of one character, with what is before it and what is behind it. -/
def rsplitOnce (sep : Char) : List Char → Option (List Char × List Char)
  | [] => none
  | c :: rest =>
    match rsplitOnce sep rest with
    | some (left, right) => some (c :: left, right)
    | none => if c = sep then some ([], rest) else none

theorem rsplitOnce_none (absent : sep ∉ line) : rsplitOnce sep line = none := by
  induction line with
  | nil => rfl
  | cons c rest ih =>
    have other : c ≠ sep := fun same => absent (same ▸ mem_cons_self)
    rw [rsplitOnce, ih fun member => absent (mem_cons_of_mem c member)]
    exact if_neg other

/-- The last separator is the one before a field without separators. -/
theorem rsplitOnce_append (absent : sep ∉ right) (left : List Char) :
    rsplitOnce sep (left ++ sep :: right) = some (left, right) := by
  induction left with
  | nil =>
    rw [nil_append, rsplitOnce, rsplitOnce_none absent]
    exact if_pos rfl
  | cons c left ih => rw [cons_append, rsplitOnce, ih]

/-- Both fields are parts of the line. -/
theorem mem_of_rsplitOnce (cut : rsplitOnce sep line = some (left, right)) : line = left ++ sep :: right := by
  induction line generalizing left right with
  | nil => cases cut
  | cons c rest ih =>
    rw [rsplitOnce] at cut
    split at cut
    · rename_i left' right' found
      cases Option.some.inj cut
      rw [ih found, cons_append]
    · split_ifs at cut with same
      cases Option.some.inj cut
      rw [same, nil_append]

/-- `find` of one character, with what is before it and what is behind it. -/
def splitOnce (sep : Char) : List Char → Option (List Char × List Char)
  | [] => none
  | c :: rest => if c = sep then some ([], rest) else (splitOnce sep rest).map fun (left, right) => (c :: left, right)

/-- The first separator is the one behind a field without separators. -/
theorem splitOnce_append (absent : sep ∉ left) (right : List Char) :
    splitOnce sep (left ++ sep :: right) = some (left, right) := by
  induction left with
  | nil => exact if_pos rfl
  | cons c left ih =>
    have other : c ≠ sep := fun same => absent (same ▸ mem_cons_self)
    rw [cons_append, splitOnce, if_neg other, ih fun member => absent (mem_cons_of_mem c member)]
    rfl

def splitn (sep : Char) : Nat → List Char → List (List Char)
  | 0, _ => []
  | 1, text => [text]
  | n + 2, text =>
    match splitOnce sep text with
    | none => [text]
    | some (left, right) => left :: splitn sep (n + 1) right

theorem splitn_append (absent : sep ∉ left) (n : Nat) (right : List Char) :
    splitn sep (n + 2) (left ++ sep :: right) = left :: splitn sep (n + 1) right := by
  rw [splitn, splitOnce_append absent]

/-- `char::is_whitespace`, the property `White_Space` of Unicode. -/
def isWhitespace (c : Char) : Bool :=
  let v := c.toNat
  (9 ≤ v && v ≤ 13) || v == 0x20 || v == 0x85 || v == 0xA0 || v == 0x1680 || (0x2000 ≤ v && v ≤ 0x200A) ||
  v == 0x2028 ||
    v == 0x2029 || v == 0x202F || v == 0x205F || v == 0x3000

def trimStart (text : List Char) : List Char := text.dropWhile isWhitespace

def trim (text : List Char) : List Char := (trimStart (trimStart text).reverse).reverse

theorem trimStart_append {blank rest : List Char} (blanks : ∀ c ∈ blank, isWhitespace c = true) :
    trimStart (blank ++ rest) = trimStart rest := dropWhile_append_of_pos blanks

theorem trimStart_of_all (plain : ∀ c ∈ text, isWhitespace c = false) : trimStart text = text := by
  cases text with
  | nil => rfl
  | cons c rest => exact dropWhile_cons_of_neg (by rw [plain c mem_cons_self]; exact Bool.false_ne_true)

/-- Blanks around a word are taken off. -/
theorem trim_word {word : List Char} (before : ∀ c ∈ left, isWhitespace c = true)
    (behind : ∀ c ∈ right, isWhitespace c = true) (nonempty : word ≠ []) (plain : ∀ c ∈ word, isWhitespace c = false) :
    trim (left ++ word ++ right) = word := by
  have start : trimStart (word ++ right) = word ++ right := by
    cases word with
    | nil => exact absurd rfl nonempty
    | cons c word => exact dropWhile_cons_of_neg (by rw [plain c mem_cons_self]; exact Bool.false_ne_true)
  have stop : trimStart (right.reverse ++ word.reverse) = word.reverse := by
    rw [trimStart_append fun c member => behind c (mem_reverse.mp member)]
    exact trimStart_of_all fun c member => plain c (mem_reverse.mp member)
  rw [trim, append_assoc, trimStart_append before, start, reverse_append, stop, reverse_reverse]

theorem trim_of_all {word : List Char} (plain : ∀ c ∈ word, isWhitespace c = false) : trim word = word := by
  rw [trim, trimStart_of_all plain, trimStart_of_all fun c member => plain c (mem_reverse.mp member), reverse_reverse]

/-! ## Searching -/

section Search

variable {α : Type} [DecidableEq α]

/-- The position of the first occurrence of a pattern. -/
def findSub (pattern : List α) : List α → Option Nat
  | [] => none
  | a :: rest => if pattern <+: a :: rest then some 0 else (findSub pattern rest).map (· + 1)

theorem findSub_none {pattern text : List α} (absent : ∀ i, ¬pattern <+: text.drop i) :
    findSub pattern text = none := by
  induction text with
  | nil => rfl
  | cons a rest ih =>
    have later := ih fun i => absent (i + 1)
    have here : ¬pattern <+: a :: rest := absent 0
    rw [findSub, if_neg here, later, Option.map_none]

/-- What is found is an occurrence, and the first one. -/
theorem findSub_sound {pattern text : List α} {i : Nat} (found : findSub pattern text = some i) :
    pattern <+: text.drop i ∧ ∀ j < i, ¬pattern <+: text.drop j := by
  induction text generalizing i with
  | nil => cases found
  | cons a rest ih =>
    rw [findSub] at found
    split_ifs at found with here
    · cases found
      exact ⟨here, fun j below => absurd below (Nat.not_lt_zero j)⟩
    · obtain ⟨k, later, rfl⟩ := Option.map_eq_some_iff.mp found
      obtain ⟨occurs, first⟩ := ih later
      refine ⟨occurs, fun j below => ?_⟩
      cases j with
      | zero => exact here
      | succ j => exact first j (by omega)

/-- An occurrence before which there is none is found. -/
theorem findSub_first {pattern text : List α} {i : Nat} (nonempty : pattern ≠ []) (occurs : pattern <+: text.drop i)
    (first : ∀ j < i, ¬pattern <+: text.drop j) : findSub pattern text = some i := by
  cases found : findSub pattern text with
  | some k =>
    obtain ⟨here, least⟩ := findSub_sound found
    have notBefore : ¬k < i := fun before => first k before here
    have notBehind : ¬i < k := fun behind => least i behind occurs
    exact congrArg some (by omega)
  | none =>
    exfalso
    induction text generalizing i with
    | nil =>
      rw [drop_nil] at occurs
      exact nonempty (prefix_nil.mp occurs)
    | cons a rest ih =>
      rw [findSub] at found
      split_ifs at found with absent
      cases i with
      | zero => exact absent occurs
      | succ i => exact ih occurs (fun j below => first (j + 1) (by omega)) (Option.map_eq_none_iff.mp found)

end Search

/-! ## Numbers -/

/-- The value of a nonempty list of digits that is below the bound. -/
def parseDigits (bound : Nat) (digits : List Char) : Option Nat :=
  if digits ≠ [] ∧ digits.all Char.isDigit ∧ Nat.ofDigitChars 10 digits 0 < bound then
    some (Nat.ofDigitChars 10 digits 0)
  else none

/-- `str::parse` of an unsigned number below the bound, which a plus sign may precede. -/
def parseUnsigned (bound : Nat) : List Char → Option Nat
  | '+' :: digits => parseDigits bound digits
  | digits => parseDigits bound digits

def printDecimal (n : Nat) : List Char := Nat.toDigits 10 n

theorem isDigit_of_mem_printDecimal (member : c ∈ printDecimal n) : c.isDigit = true :=
  Nat.isDigit_of_mem_toDigits (by decide) (by decide) member

theorem not_mem_printDecimal (other : c.isDigit = false) : c ∉ printDecimal n := by
  intro member
  rw [isDigit_of_mem_printDecimal member] at other
  cases other

theorem parseUnsigned_printDecimal {bound : Nat} (below : n < bound) :
    parseUnsigned bound (printDecimal n) = some n := by
  have value : Nat.ofDigitChars 10 (printDecimal n) 0 = n := Nat.ofDigitChars_toDigits (by decide) (by decide)
  have digits : parseDigits bound (printDecimal n) = some n := by
    rw [parseDigits, value, if_pos]
    exact ⟨Nat.toDigits_ne_nil, all_eq_true.mpr fun c => isDigit_of_mem_printDecimal, below⟩
  have unsigned : '+' ∉ printDecimal n := not_mem_printDecimal (by decide)
  unfold parseUnsigned
  split
  · rename_i rest same
    rw [same] at unsigned
    exact absurd mem_cons_self unsigned
  · exact digits

end HavyOs.Lib
