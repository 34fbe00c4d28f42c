import Mathlib.Data.List.Forall2
import Mathlib.Data.List.Infix

/-!
# The line tools

`print_last_lines` of `bin/tail.rs` and the search of `bin/grep.rs`. Both cut a file into lines in
one scan over its bytes, each with a rule of its own for the last line.
-/

namespace HavyOs.Bin

open List

/-- The lines of a file, where a final newline does not start a further line. -/
def lines : List UInt8 → List (List UInt8)
  | [] => []
  | c :: rest => if c = 10 then [] :: lines rest else
    match lines rest with
    | [] => [[c]]
    | line :: more => (c :: line) :: more

/-- The lines, each with its newline. -/
def unlines (ls : List (List UInt8)) : List UInt8 := ls.flatMap (· ++ [10])

theorem unlines_cons (line : List UInt8) (more : List (List UInt8)) :
    unlines (line :: more) = line ++ 10 :: unlines more := by
  simp [unlines]

theorem unlines_append (a b : List (List UInt8)) : unlines (a ++ b) = unlines a ++ unlines b := flatMap_append

theorem length_le_unlines (ls : List (List UInt8)) : ls.length ≤ (unlines ls).length := by
  induction ls with
  | nil => exact Nat.zero_le _
  | cons line ls ih =>
    rw [unlines_cons, length_append, length_cons, length_cons]
    omega

theorem eq_of_unlines_drop {ls : List (List UInt8)} {more : List UInt8} {i j : Nat} (le : i ≤ j) (fits : j ≤ ls.length)
    (same : unlines (ls.drop i) ++ more = unlines (ls.drop j)) : i = j ∧ more = [] := by
  have shown := length_le_unlines ((ls.drop i).take (j - i))
  rw [← take_append_drop (j - i) (ls.drop i), drop_drop, Nat.add_sub_cancel' le, unlines_append] at same
  have size := congrArg length same
  simp only [length_append, length_take, length_drop] at size shown
  exact ⟨by omega, eq_nil_of_length_eq_zero (by omega)⟩

variable {content cur rest : List UInt8} {b k : Nat}

theorem lines_line (plain : 10 ∉ cur) : lines (cur ++ 10 :: rest) = cur :: lines rest := by
  induction cur with
  | nil => simp [lines]
  | cons c cur ih =>
    obtain ⟨other, plain⟩ := not_or.mp (mem_cons.not.mp plain)
    simp [lines, ih plain, Ne.symm other]

theorem lines_last (plain : 10 ∉ cur) (nonempty : cur ≠ []) : lines cur = [cur] := by
  induction cur with
  | nil => exact absurd rfl nonempty
  | cons c cur ih =>
    obtain ⟨other, plain⟩ := not_or.mp (mem_cons.not.mp plain)
    cases cur with
    | nil => simp [lines, Ne.symm other]
    | cons d cur => rw [lines, if_neg (Ne.symm other), ih plain (cons_ne_nil _ _)]

theorem lines_ne_nil (nonempty : content ≠ []) : lines content ≠ [] := by
  cases content with
  | nil => exact absurd rfl nonempty
  | cons c rest =>
    rw [lines]
    split
    · exact cons_ne_nil _ _
    · split <;> exact cons_ne_nil _ _

theorem split_lines (below : k < (lines content).length) :
    ∃ cur, cur ≠ [] ∧ content = unlines ((lines content).take k) ++ cur ∧ lines cur = (lines content).drop k := by
  induction content generalizing k with
  | nil => exact absurd below (Nat.not_lt_zero k)
  | cons c rest ih =>
    cases k with
    | zero => exact ⟨c :: rest, cons_ne_nil _ _, rfl, rfl⟩
    | succ k =>
      by_cases newline : c = 10
      · simp only [newline] at below ⊢
        obtain ⟨cur, some, whole, later⟩ := ih (Nat.lt_of_succ_lt_succ below)
        exact ⟨cur, some, congrArg (cons 10) whole, later⟩
      · simp only [lines, newline, if_false] at below ⊢
        split at below
        · simp at below
        · rename_i line more first
          obtain ⟨cur, some, whole, later⟩ := ih (by rw [first]; exact below)
          simp only [first] at whole later
          exact ⟨cur, some, congrArg (cons c) whole, later⟩

theorem unlines_lines (nonempty : content ≠ []) :
    unlines (lines content) ++ (if content.getLast? = some 10 then [10] else []) = content ++ [10] := by
  induction content with
  | nil => exact absurd rfl nonempty
  | cons c rest ih =>
    cases rest with
    | nil => by_cases newline : c = 10 <;> simp [lines, unlines, newline]
    | cons d rest =>
      rw [cons_append, ← ih (cons_ne_nil _ _), lines]
      split
      · simp [unlines, *]
      · split
        · exact absurd ‹_› (lines_ne_nil (cons_ne_nil _ _))
        · simp [unlines, *]

/-! ## `tail` -/

/-- A byte of the scan in `print_last_lines`; the table is the entries of `line_positions` in use. -/
def notePosition (len : Nat) (table : List Nat) (byte : UInt8 × Nat) : List Nat :=
  if byte.1 = 10 ∧ byte.2 + 1 < len ∧ table.length < 512 then table ++ [byte.2 + 1] else table

/-- The loop of `print_last_lines` over the entries from `start_line` on. -/
def printLines (content : List UInt8) : List Nat → List UInt8
  | [] => []
  | lineStart :: later =>
    let lineEnd := match later with
      | next :: _ => next - 1
      | [] => content.length
    (if lineStart < content.length then (content.take (min lineEnd content.length)).drop lineStart ++ [10] else []) ++
      printLines content later

/-- `print_last_lines`: what it writes. -/
def printLastLines (content : List UInt8) (numLines : Nat) : List UInt8 :=
  let table := content.zipIdx.foldl (notePosition content.length) [0]
  printLines content (table.drop (if table.length > numLines then table.length - numLines else 0))

/-- Where the line after each of some lines begins. -/
def ends (b : Nat) : List (List UInt8) → List Nat
  | [] => []
  | line :: more => (b + line.length + 1) :: ends (b + line.length + 1) more

theorem length_ends (ls : List (List UInt8)) : (ends b ls).length = ls.length := by
  induction ls generalizing b with
  | nil => rfl
  | cons line ls ih => rw [ends, length_cons, ih, length_cons]

theorem scan_spec {len : Nat} {table : List Nat} (size : b + cur.length + rest.length = len) (plain : 10 ∉ cur)
    (room : table.length ≤ 512) : (rest.zipIdx (b + cur.length)).foldl (notePosition len) table =
      table ++ ends b ((lines (cur ++ rest)).dropLast.take (512 - table.length)) := by
  induction rest generalizing b cur table with
  | nil =>
    by_cases empty : cur = []
    · simp [empty, lines, ends]
    · simp [lines_last plain empty, ends]
  | cons c rest ih =>
    rw [length_cons] at size
    rw [zipIdx_cons, foldl_cons, notePosition]
    by_cases newline : c = 10
    · -- the line ends here, in the table or not
      rw [newline, lines_line plain]
      by_cases final : rest = []
      · simp [final, lines, ends, ← size]
      have left := length_pos_of_ne_nil final
      have ih {table : List Nat} (room : table.length ≤ 512) := ih (b := b + cur.length + 1) (by grind) not_mem_nil room
      rw [length_nil] at ih
      rw [dropLast_cons_of_ne_nil (lines_ne_nil final)]
      by_cases free : table.length < 512
      · rw [if_pos ⟨rfl, by omega, free⟩, ih (by simp; omega), append_assoc, length_append,
          show 512 - table.length = 512 - (table.length + 1) + 1 by omega]
        rfl
      · rw [if_neg (by omega), ih room, Nat.sub_eq_zero_of_le (by omega)]
        rfl
    · have plain : 10 ∉ cur ++ [c] := by simp [plain, Ne.symm newline]
      have ih := ih (b := b) (by grind) plain room
      rw [if_neg (by simp [newline])]
      simpa [Nat.add_assoc] using ih

theorem printLines_spec {ls : List (List UInt8)} (whole : content.drop b = unlines ls ++ cur) (more : cur ≠ [])
    (below : k ≤ ls.length) : printLines content ((b :: ends b ls).drop k) = unlines (ls.drop k) ++ cur ++ [10] := by
  induction ls generalizing b k with
  | nil =>
    have size := congrArg length whole
    have := length_pos_of_ne_nil more
    rw [length_drop, length_append] at size
    rw [Nat.le_zero.mp below, drop_zero, ends, printLines, if_pos (by omega), Nat.min_self, take_length, whole]
    simp [printLines]
  | cons line ls ih =>
    rw [unlines_cons, append_assoc, cons_append] at whole
    have size := congrArg length whole
    have rest : content.drop (b + line.length + 1) = unlines ls ++ cur := by
      rw [Nat.add_assoc, ← drop_drop, whole, ← drop_drop, drop_left, drop_one, tail_cons]
    rw [length_drop, length_append, length_cons] at size
    cases k with
    | succ k => exact ih rest (Nat.le_of_succ_le_succ below)
    | zero =>
      have ih := ih rest (Nat.zero_le _)
      rw [drop_zero] at ih ⊢
      rw [ends, printLines, ih, if_pos (by omega), drop_take, whole, take_left' (by simp; omega)]
      simp [unlines_cons]

theorem printLastLines_eq (nonempty : content ≠ []) (n : Nat) : printLastLines content (n + 1) =
    unlines ((lines content).drop (min (lines content).length 512 - (n + 1))) ++
      if content.getLast? = some 10 then [10] else [] := by
  have some := length_pos_of_ne_nil (lines_ne_nil nonempty)
  have size : 0 + ([] : List UInt8).length + content.length = content.length := Nat.zero_add _
  have table := scan_spec size not_mem_nil (by decide : [0].length ≤ 512)
  rw [length_nil, nil_append, dropLast_eq_take, take_take, singleton_append] at table
  rw [show min (lines content).length 512 = min 511 ((lines content).length - 1) + 1 by omega]
  have below : min 511 ((lines content).length - 1) < (lines content).length := by omega
  generalize min 511 ((lines content).length - 1) = m at *
  obtain ⟨cur, more, whole, later⟩ := split_lines below
  have size : ((lines content).take m).length = m := length_take_of_le below.le
  have last : content.getLast? = cur.getLast? := by rw [whole, getLast?_append_of_ne_nil _ more]
  have rows : (lines content).drop (m - n) = ((lines content).take m).drop (m - n) ++ lines cur := by
    rw [later, ← drop_append_of_le_length (by omega), take_append_drop]
  rw [printLastLines, table, length_cons, length_ends, size,
    show (if m + 1 > n + 1 then m + 1 - (n + 1) else 0) = m - n by split <;> omega,
    printLines_spec (b := 0) whole more (by omega), append_assoc, ← unlines_lines more, last, Nat.add_sub_add_right,
      rows,
    unlines_append, append_assoc]

/-- **The last lines are written exactly when the file does not end in a newline and the table holds
every line**, or all the lines are asked for. -/
theorem printLastLines_lines_iff (content : List UInt8) (n : Nat) :
    printLastLines content (n + 1) = unlines ((lines content).drop ((lines content).length - (n + 1))) ↔
      content = [] ∨ content.getLast? ≠ some 10 ∧ ((lines content).length ≤ 512 ∨ (lines content).length ≤ n + 1) := by
  by_cases empty : content = []
  · subst empty
    exact iff_of_true (by simp [printLastLines, lines, unlines, printLines]) (Or.inl rfl)
  rw [printLastLines_eq empty, or_iff_right empty]
  constructor
  · intro same
    obtain ⟨_, last⟩ := eq_of_unlines_drop (by omega) (by omega) same
    exact ⟨fun newline => by simp [newline] at last, by omega⟩
  · rintro ⟨last, _⟩
    rw [if_neg last, append_nil]
    congr 2
    omega

/-- The newline at the end of a file is written twice. -/
theorem printLastLines_final_newline :
    printLastLines [97, 10] 1 ≠ unlines ((lines [97, 10]).drop ((lines [97, 10]).length - 1)) := by
  decide

/-! ## `grep` -/

def toLower (c : UInt8) : UInt8 := if c ≥ 65 ∧ c ≤ 90 then c + 32 else c

/-- `pattern`, which is not empty, and the options. -/
structure Grep where
  pattern : List UInt8
  caseInsensitive : Bool
  invertMatch : Bool
  nonempty : pattern ≠ []

namespace Grep

variable (g : Grep)

def folded (c : UInt8) : UInt8 := if g.caseInsensitive then toLower c else c

/-- `contains_pattern`: the first position where the pattern stands. -/
def containsPattern (line : List UInt8) : Option Nat :=
  if g.pattern = [] ∨ g.pattern.length > line.length then none
  else (range (line.length - g.pattern.length + 1)).find? fun i => (range g.pattern.length).all fun j =>
    g.folded (line.getD (i + j) 0) == g.folded (g.pattern.getD j 0)

/-- The parts of a line that are passed to `print`, where the match has a colour of its own, if any are. -/
def parts (line : List UInt8) : Option (List (List UInt8)) :=
  let matchPos := g.containsPattern line
  let shouldPrint := if g.invertMatch then !matchPos.isSome else matchPos.isSome
  if shouldPrint then
    match g.invertMatch, matchPos with
    | false, some pos => some [line.take pos, (line.drop pos).take g.pattern.length, line.drop (pos + g.pattern.length)]
    | _, _ => some [line]
  else none

/-- `line_num`, `line_start`, and the lines that were printed, each in its parts and with its number. -/
structure Scan where
  lineNum : Nat := 1
  lineStart : Nat := 0
  printed : List (List (List UInt8) × Nat) := []

def scanByte (content : List UInt8) (s : Scan) (byte : UInt8 × Nat) : Scan :=
  if byte.1 = 10 ∨ byte.2 = content.length - 1 then
    let stop := if byte.1 = 10 then byte.2 else byte.2 + 1
    let line := (content.take stop).drop s.lineStart
    ⟨s.lineNum + 1, byte.2 + 1, s.printed ++ ((g.parts line).map (·, s.lineNum)).toList⟩
  else s

def run (content : List UInt8) : List (List (List UInt8) × Nat) :=
  (content.zipIdx.foldl (g.scanByte content) {}).printed

/-- The bytes are the same, or one letter of the alphabet in upper and in lower case, where case does not count. -/
def Same (a b : UInt8) : Prop :=
  a = b ∨ g.caseInsensitive = true ∧ (65 ≤ a ∧ a ≤ 90 ∧ b = a + 32 ∨ 65 ≤ b ∧ b ≤ 90 ∧ a = b + 32)

/-- The pattern stands somewhere in the line. -/
def Contains (line : List UInt8) : Prop := ∃ part, part <:+: line ∧ Forall₂ g.Same g.pattern part

theorem folded_eq_iff (a b : UInt8) : g.folded a = g.folded b ↔ g.Same a b := by
  rw [folded, folded, Same]
  cases g.caseInsensitive <;> grind [toLower]

theorem contains_iff (line : List UInt8) : g.Contains line ↔ g.pattern.map g.folded <:+: line.map g.folded := by
  have same (part : List UInt8) : Forall₂ g.Same g.pattern part ↔ g.pattern.map g.folded = part.map g.folded := by
    rw [← forall₂_eq_eq_eq, forall₂_map_left_iff, forall₂_map_right_iff]
    simp only [folded_eq_iff]
  rw [infix_map_iff, Contains]
  simp only [same]

theorem isSome_containsPattern (line : List UInt8) : (g.containsPattern line).isSome ↔ g.Contains line := by
  rw [containsPattern, contains_iff, infix_iff_getElem?]
  simp only [length_map]
  split
  · have := g.nonempty
    simp_all
    omega
  · rw [find?_isSome]
    constructor
    · rintro ⟨i, inside, same⟩
      have := mem_range.mp inside
      refine ⟨i, by omega, fun j short => ?_⟩
      have := all_eq_true.mp same j (mem_range.mpr short)
      grind
    · rintro ⟨i, inside, same⟩
      refine ⟨i, mem_range.mpr (by omega), all_eq_true.mpr fun j short => ?_⟩
      grind

theorem map_parts (line : List UInt8) [Decidable (g.Contains line)] :
    (g.parts line).map flatten = if decide (g.Contains line) != g.invertMatch then some line else none := by
  have found := g.isSome_containsPattern line
  rw [parts]
  cases position : g.containsPattern line <;> cases invert : g.invertMatch <;>
    simp_all

theorem scan_lines {s : Scan} (plain : 10 ∉ cur) (here : content.drop s.lineStart = cur ++ rest)
    (more : rest = [] → cur = []) :
    ((rest.zipIdx (s.lineStart + cur.length)).foldl (g.scanByte content) s).printed = s.printed ++
      ((lines (cur ++ rest)).zipIdx s.lineNum).filterMap fun l => (g.parts l.1).map (·, l.2) := by
  induction rest generalizing cur s with
  | nil => simp [more rfl, lines]
  | cons c rest ih =>
    have size := congrArg length here
    rw [length_drop, length_append, length_cons] at size
    have line (n : Nat) : (content.take (s.lineStart + n)).drop s.lineStart = (cur ++ c :: rest).take n := by
      rw [drop_take, here, Nat.add_sub_cancel_left]
    rw [zipIdx_cons, foldl_cons, scanByte]
    by_cases newline : c = 10
    · have later : content.drop (s.lineStart + cur.length + 1) = rest := by
        rw [Nat.add_assoc, ← drop_drop, here, ← drop_drop, drop_left, drop_one, tail_cons]
      simp only [newline, if_true, line]
      rw [lines_line plain]
      refine (ih not_mem_nil later fun _ => rfl).trans ?_
      cases parts : g.parts cur <;> simp [parts]
    · have plain : 10 ∉ cur ++ [c] := by simp [plain, Ne.symm newline]
      cases rest with
      | nil =>
        rw [if_pos (Or.inr (by simp at size; omega))]
        simp only [newline, if_false, Nat.add_assoc, line]
        rw [take_of_length_le (by simp), lines_last plain (by simp)]
        cases parts : g.parts (cur ++ [c]) <;> simp [parts]
      | cons d rest =>
        rw [length_cons] at size
        rw [if_neg (not_or.mpr ⟨newline, by omega⟩)]
        simpa [Nat.add_assoc] using ih plain (by simp [here]) nofun

open Classical in
/-- **`grep` prints the lines that contain the pattern**, or those that do not, whole and numbered from 1. -/
theorem run_lines (content : List UInt8) : (g.run content).map (fun l => (l.1.flatten, l.2)) =
    ((lines content).zipIdx 1).filter fun l => decide (g.Contains l.1) != g.invertMatch := by
  have all := g.scan_lines (s := {}) not_mem_nil (drop_zero (l := content)) fun _ => rfl
  rw [← filterMap_eq_filter]
  refine (congrArg _ all).trans ((map_filterMap ..).trans (filterMap_congr fun l _ => ?_))
  have shown := g.map_parts l.1
  rw [Option.guard_def]
  cases parts : g.parts l.1 <;> grind

end Grep

end HavyOs.Bin
