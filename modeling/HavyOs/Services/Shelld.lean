import HavyOs.Lib.Utf8
import Mathlib.Algebra.Group.Nat.Defs
import Mathlib.Data.List.Induction
import Mathlib.Logic.Function.Iterate

/-!
# The shell

Two helpers of `services/shelld.rs`: the common beginning of the candidates of a completion, and
the walk through the ring of entered commands with the arrow keys.
-/

namespace HavyOs.Shelld

open Lib List

/-! ## The common beginning -/

/-- The inner loop of `find_common_prefix`, which counts characters. -/
def countCommon (prefixLen : Nat) : List Char → List Char → Nat → Nat
  | a :: first, b :: s, common =>
    if a = b ∧ common < prefixLen then countCommon prefixLen first s (common + 1) else common
  | _, _, common => common

/-- The outer loop of `find_common_prefix`. -/
def prefixLen (first : List Char) (rest : List (List Char)) : Nat :=
  rest.foldl (fun prefixLen s => countCommon prefixLen first s 0) (encode first).length

/-- `find_common_prefix`: `none` is a panic, at an offset inside a character. -/
def findCommonPrefix : List (List Char) → Option (List Char)
  | [] => some []
  | first :: rest => sliceTo first (prefixLen first rest)

/-- The text begins every one of the strings. -/
def Begins (text : List Char) (strings : List (List Char)) : Prop := ∀ s ∈ strings, text <+: s

/-- The longest text that begins all the strings. -/
def Longest (text : List Char) (strings : List (List Char)) : Prop :=
  Begins text strings ∧ ∀ other, Begins other strings → other <+: text

variable {first s : List Char} {rest : List (List Char)} {n limit common : Nat}

theorem le_countCommon (h : common ≤ limit) : common + n ≤ countCommon limit first s common ↔
    common + n ≤ limit ∧ n ≤ first.length ∧ first.take n <+: s := by
  fun_induction countCommon generalizing n with
  | case1 a first b s common same ih =>
    cases n with
    | zero => grind [ih (n := 0) same.2]
    | succ n => grind [ih same.2]
  | case2 a first b s common stops => cases n <;> grind
  | case3 first s common stops => cases n <;> grind [cases List]

theorem le_prefixLen (more : rest ≠ []) : n ≤ prefixLen first rest ↔
    n ≤ first.length ∧ ∀ s ∈ rest, first.take n <+: s := by
  have general (limit : Nat) (rest : List (List Char)) :
      n ≤ rest.foldl (fun limit s => countCommon limit first s 0) limit ↔
        n ≤ limit ∧ ∀ s ∈ rest, n ≤ first.length ∧ first.take n <+: s := by
    induction rest generalizing limit with
    | nil => simp
    | cons s rest ih =>
      rw [foldl_cons, ih, ← Nat.zero_add n, le_countCommon (Nat.zero_le limit), Nat.zero_add, forall_mem_cons,
        and_assoc]
  have := length_le_encode first
  obtain ⟨s, _⟩ := exists_mem_of_ne_nil rest more
  rw [prefixLen]
  grind

theorem longest_iff (more : rest ≠ []) {p : List Char} :
    Longest p (first :: rest) ↔ p = first.take (prefixLen first rest) := by
  have longest : Longest (first.take (prefixLen first rest)) (first :: rest) := by
    refine ⟨forall_mem_cons.mpr ⟨List.take_prefix _ _, ((le_prefixLen more).mp (Nat.le_refl _)).2⟩,
      fun other begins => ?_⟩
    obtain ⟨inFirst, inRest⟩ := forall_mem_cons.mp begins
    rw [prefix_iff_eq_take.mp inFirst] at inRest ⊢
    exact take_prefix_take_left ((le_prefixLen more).mpr ⟨inFirst.length_le, inRest⟩)
  constructor
  · intro ⟨begins, greatest⟩
    exact (longest.2 _ begins).eq_of_length_le (greatest _ longest.1).length_le
  · rintro rfl
    exact longest

/-- **The longest common beginning is found exactly when it is ASCII**, or there is one string. -/
theorem findCommonPrefix_longest_iff (first : List Char) (rest : List (List Char)) :
    (∃ p, findCommonPrefix (first :: rest) = some p ∧ Longest p (first :: rest)) ↔
      rest = [] ∨ ∀ p, Begins p (first :: rest) → ∀ c ∈ p, c.utf8Size = 1 := by
  by_cases more : rest = []
  · subst more
    refine iff_of_true ⟨first, sliceTo_encode prefix_rfl, ?_⟩ (Or.inl rfl)
    exact ⟨forall_mem_singleton.mpr prefix_rfl, fun _ begins => begins _ mem_cons_self⟩
  · have length : (first.take (prefixLen first rest)).length = prefixLen first rest :=
      length_take_of_le ((le_prefixLen more).mp (Nat.le_refl _)).1
    rw [or_iff_right more]
    constructor
    · rintro ⟨p, cut, longest⟩ q begins c member
      have bytes := (sliceTo_spec cut).2
      rw [← length, ← (longest_iff more).mp longest] at bytes
      exact length_encode_eq_iff.mp bytes c ((longest.2 q begins).subset member)
    · intro ascii
      have longest := (longest_iff more).mpr (rfl : first.take (prefixLen first rest) = _)
      have cut := sliceTo_encode (List.take_prefix (prefixLen first rest) first)
      rw [length_encode_eq_iff.mpr (ascii _ longest.1), length] at cut
      exact ⟨_, cut, longest⟩

/-- The second byte of `é` is not the start of a character. -/
theorem findCommonPrefix_accents : findCommonPrefix ["éa".toList, "éb".toList] = none := by
  decide +kernel

/-! ## The history -/

def historySize : Nat := 16

/-- `ShellState`, with the used part of each buffer: the line, and the slots of the ring. The counter is a `usize`;
`historyCount_lt` says when it has not wrapped. -/
structure ShellState where
  line : List UInt8 := []
  history : Nat → List UInt8 := fun _ => []
  historyCount : Nat := 0
  historyPos : Nat := 0
  browsingHistory : Bool := false

variable (state : ShellState)

def handleEnter : ShellState :=
  let saved := if state.line = [] then state else
    { state with
      history := Function.update state.history (state.historyCount % historySize) state.line
      historyCount := state.historyCount + 1 }
  { saved with line := [], browsingHistory := false, historyPos := 0 }

def ShellState.maxPos : Nat :=
  if state.historyCount < historySize then state.historyCount else historySize

def handleHistoryUp : ShellState :=
  if state.historyCount = 0 then state
  else if state.historyPos < state.maxPos then
    let pos := if state.browsingHistory then state.historyPos else 0
    if pos < state.maxPos then
      { state with
        browsingHistory := true
        line := state.history ((state.historyCount - 1 - pos) % historySize)
        historyPos := if pos + 1 < state.maxPos then pos + 1 else pos }
    else { state with browsingHistory := true, historyPos := pos }
  else state

def handleHistoryDown : ShellState :=
  if state.browsingHistory ∧ 0 < state.historyPos then
    let pos := state.historyPos - 1
    if pos = 0 then { state with historyPos := pos, browsingHistory := false, line := [] }
    else { state with historyPos := pos, line := state.history ((state.historyCount - pos) % historySize) }
  else if state.browsingHistory then { state with browsingHistory := false, line := [] }
  else state

variable (lines : List (List UInt8))

/-- The shell after these lines were entered one after the other. -/
def entered : ShellState :=
  lines.foldl (fun state line => handleEnter { state with line }) {}

/-- The entered commands, the latest first. An empty line is none. -/
def commands : List (List UInt8) := (lines.filter (· ≠ [])).reverse

/-- The `k`-th most recently entered command, and an empty line for `k = 0`. -/
def recent (k : Nat) : List UInt8 := ([] :: commands lines)[k]?.getD []

/-- How many commands the ring holds. -/
def stored : Nat := min (commands lines).length historySize

/-- An empty line, and the commands in the slots of the ring. -/
structure Recorded (lines : List (List UInt8)) (state : ShellState) : Prop where
  idle : state.line = [] ∧ state.browsingHistory = false ∧ state.historyPos = 0
  count : state.historyCount = (commands lines).length
  slots : ∀ k, k < stored lines → state.history ((state.historyCount - (k + 1)) % historySize) = recent lines (k + 1)

variable {lines : List (List UInt8)} {state : ShellState} {u d k p : Nat}

theorem Recorded.handleEnter {line : List UInt8} (h : Recorded lines state) :
    Recorded (lines ++ [line]) (handleEnter { state with line }) := by
  by_cases blank : line = []
  · have same : commands (lines ++ [line]) = commands lines := by simp [commands, blank]
    simp only [Shelld.handleEnter, blank, if_true]
    exact ⟨⟨rfl, rfl, rfl⟩, by rw [h.count, ← same, blank], by simpa only [stored, recent, ← same, blank] using h.slots⟩
  · have more : commands (lines ++ [line]) = line :: commands lines := by simp [commands, blank]
    simp only [Shelld.handleEnter, blank, if_false]
    refine ⟨⟨rfl, rfl, rfl⟩, by rw [h.count, more, length_cons], fun k within => ?_⟩
    cases k with
    | zero => simp [recent, more]
    | succ k =>
      -- an older slot is not the one that is written
      have old : k < stored lines := by grind [stored]
      have other : (state.historyCount + 1 - (k + 1 + 1)) % historySize ≠ state.historyCount % historySize := by
        grind [stored, historySize, h.count]
      have slot := h.slots k old
      change Function.update state.history _ line _ = _
      rw [Function.update_of_ne other, Nat.add_sub_add_right, slot, recent, recent, more]
      rfl

theorem recorded_entered (lines : List (List UInt8)) : Recorded lines (entered lines) := by
  induction lines using reverseRecOn with
  | nil => exact ⟨⟨rfl, rfl, rfl⟩, rfl, nofun⟩
  | append_singleton lines line ih =>
    rw [entered, foldl_append]
    exact ih.handleEnter

theorem historyCount_lt (few : lines.length < 2 ^ 64) : (entered lines).historyCount < 2 ^ 64 := by
  rw [(recorded_entered lines).count, commands, length_reverse]
  exact Nat.lt_of_le_of_lt (length_filter_le _ _) few

theorem handleHistoryUp_iterate (h : Recorded lines state) (within : u < stored lines) :
    handleHistoryUp^[u + 1] state =
      { state with line := recent lines (u + 1), historyPos := min (u + 1) (stored lines - 1), browsingHistory :=
      true } := by
  have top : state.maxPos = stored lines := by grind [ShellState.maxPos, stored, h.count]
  have slot := h.slots u within
  induction u with
  | zero =>
    change handleHistoryUp state = _
    grind [handleHistoryUp, stored, h.count, h.idle]
  | succ u ih =>
    rw [Function.iterate_succ_apply', ih (by omega) (h.slots u (by omega))]
    grind [handleHistoryUp, ShellState.maxPos]

theorem handleHistoryDown_iterate (h : Recorded lines state) (line : List UInt8) (within : p < stored lines) :
    handleHistoryDown^[d + 1] { state with line, historyPos := p, browsingHistory := true } =
      { state with line := recent lines (p - (d + 1)), historyPos := p - (d + 1), browsingHistory := d + 1 < p } := by
  have nothing : recent lines 0 = [] := rfl
  have slot := h.slots (p - (d + 2))
  induction d with
  | zero =>
    change handleHistoryDown _ = _
    grind [handleHistoryDown]
  | succ d ih =>
    rw [Function.iterate_succ_apply', ih (h.slots _)]
    grind [handleHistoryDown]

/-- **The arrow keys show the history in order** unless the walk turns round at the oldest command. -/
theorem history_line_iff (positive : 0 < u) (within : u ≤ stored lines) (back : d ≤ u) :
    (handleHistoryDown^[d] (handleHistoryUp^[u] (entered lines))).line = recent lines (u - d) ↔
      u < stored lines ∨ d = 0 ∨ recent lines (u - d) = recent lines (u - d - 1) := by
  have h := recorded_entered lines
  obtain ⟨u, rfl⟩ := Nat.exists_eq_add_one.mpr positive
  rw [handleHistoryUp_iterate h within]
  cases d with
  | zero => simp
  | succ d =>
    rw [handleHistoryDown_iterate h _ (by omega)]
    grind

/-- Two steps up and one down among three commands, a walk that does not reach the oldest. -/
theorem history_line_iff_three :
    (handleHistoryDown^[1] (handleHistoryUp^[2] (entered [[97], [98], [99]]))).line = [99] :=
  (history_line_iff (by decide) (by decide) (by decide)).mpr (Or.inl (by decide))

/-- From the oldest of two commands one step down leads past the newer one. -/
theorem history_skips : (handleHistoryDown^[1] (handleHistoryUp^[2] (entered [[97], [98]]))).line = [] ∧
    recent [[97], [98]] 1 = [98] := by decide

end HavyOs.Shelld
