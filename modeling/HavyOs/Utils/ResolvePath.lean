import HavyOs.Lib.Components
import HavyOs.Fs.Layout

/-!
# The current directory and paths

`CWD_STATE` with `cwd_get` and `cwd_set`, and `resolve_path` of `utils/mod.rs`, which makes a path
absolute and takes its `.` and `..` components out.
-/

namespace HavyOs.Utils

open Lib
open Fs (asBytes fromUtf8)

/-! ## The current directory -/

def cwdMaxLen : Nat := 128

/-- `CwdState`; no assignment makes the length larger than the buffer. -/
structure CwdState where
  path : Vector UInt8 cwdMaxLen
  len : Nat
  fits : len ≤ cwdMaxLen

variable (cwd : CwdState)

def cwdGet : String := (fromUtf8 (cwd.path.toList.take cwd.len)).getD "/"

theorem length_copied (path : Vector UInt8 cwdMaxLen) (bytes : List UInt8) :
    (bytes.take cwdMaxLen ++ path.toList.drop (min bytes.length cwdMaxLen)).length = cwdMaxLen := by
  rw [List.length_append, List.length_take, List.length_drop, Vector.length_toList]
  omega

variable (path : String)

/-- `cwd_set`, which cuts the path to the buffer. -/
def cwdSet : CwdState where
  path := ⟨(asBytes path).take cwdMaxLen ++ cwd.path.toList.drop (min (asBytes path).length cwdMaxLen) |>.toArray,
    length_copied cwd.path (asBytes path)⟩
  len := min (asBytes path).length cwdMaxLen
  fits := Nat.min_le_right _ _

/-! ## `resolve_path` -/

/-- The path from the root that is normalised. -/
def fullPath (cwd path : String) : List Char :=
  let base := if path.toList.head? = some '/' then "/" else cwd
  if path.toList.head? = some '/' then path.toList
  else if base = "/" then '/' :: path.toList
  else base.toList ++ '/' :: path.toList

variable (parts : List (List Char))

/-- One round of the loop over the components. -/
def pushPart (part : List Char) : List (List Char) :=
  if part = [] ∨ part = ['.'] then parts
  else if part = ['.', '.'] then parts.dropLast
  else parts ++ [part]

/-- The path of the components, with a separator in front of all but the first. -/
def rebuild : List Char :=
  parts.zipIdx.foldl (fun result part => (if part.2 > 0 then result ++ ['/'] else result) ++ part.1) ['/']

def resolvePath : String :=
  let parts := ((fullPath (cwdGet cwd) path).splitOn '/').foldl pushPart []
  let result := rebuild parts
  String.ofList (if result.isEmpty then ['/'] else result)

/-! ## Normal paths -/

/-- The stack normalisation of components. -/
def normalized : String := String.ofList (rooted '/' (stackNormal ['.'] ['.', '.'] parts))

/-- An absolute path without empty components, `.` and `..`. -/
def IsNormal : Prop :=
  ∃ parts : List (List Char), (∀ part ∈ parts, part ≠ [] ∧ '/' ∉ part ∧ part ≠ ['.'] ∧ part ≠ ['.', '.']) ∧
    path.toList = rooted '/' parts

variable (parts : List (List Char)) (cwd : CwdState)

theorem foldl_rebuild {k : Nat} (later : 0 < k) (result : List Char) :
    (parts.zipIdx k).foldl (fun result part => (if part.2 > 0 then result ++ ['/'] else result) ++ part.1) result =
      result ++ parts.flatMap ('/' :: ·) := by
  induction parts generalizing k result with
  | nil => exact (List.append_nil result).symm
  | cons part parts ih =>
    rw [List.zipIdx_cons, List.foldl_cons, if_pos later, ih (Nat.succ_pos k)]
    simp

theorem intercalate_eq_flatMap (first : List Char) (rest : List (List Char)) :
    ['/'].intercalate (first :: rest) = first ++ rest.flatMap ('/' :: ·) := by
  induction rest generalizing first with
  | nil => simp
  | cons second rest ih =>
    rw [List.intercalate_cons_cons, ih]
    simp

theorem rebuild_eq : rebuild parts = rooted '/' parts := by
  cases parts with
  | nil => rfl
  | cons first rest =>
    rw [rebuild, List.zipIdx_cons, List.foldl_cons, foldl_rebuild rest (Nat.succ_pos 0), rooted,
      intercalate_eq_flatMap]
    rfl

/-- The loop keeps the top of the stack at the end and skips empty components. -/
theorem foldl_pushPart (stack : List (List Char)) :
    parts.foldl pushPart stack =
    ((parts.filter (· ≠ [])).foldl (stackStep ['.'] ['.', '.']) stack.reverse).reverse := by
  induction parts generalizing stack with
  | nil => exact (List.reverse_reverse stack).symm
  | cons part parts ih =>
    by_cases empty : part = []
    · rw [List.foldl_cons, pushPart, if_pos (Or.inl empty), List.filter_cons_of_neg (by simpa using empty), ih]
    rw [List.filter_cons_of_pos (by simpa using empty), List.foldl_cons, List.foldl_cons, ih]
    have step : (pushPart stack part).reverse = stackStep ['.'] ['.', '.'] stack.reverse part := by
      unfold pushPart stackStep
      by_cases dot : part = ['.']
      · rw [if_pos (Or.inr dot), if_pos dot]
      rw [if_neg (not_or.mpr ⟨empty, dot⟩), if_neg dot]
      by_cases parent : part = ['.', '.']
      · rw [if_pos parent, if_pos parent, List.tail_reverse]
      · rw [if_neg parent, if_neg parent, List.reverse_append]
        rfl
    rw [step]

theorem resolvePath_eq :
    resolvePath cwd path = normalized (components '/' (fullPath (cwdGet cwd) path)) := by
  have nonempty : ∀ parts : List (List Char), (rooted '/' parts).isEmpty = false := fun _ => rfl
  simp only [resolvePath, rebuild_eq, foldl_pushPart]
  rfl

theorem components_fullPath (cwd path : String) :
    components '/' (fullPath cwd path) =
      if path.toList.head? = some '/' then components '/' path.toList
      else components '/' cwd.toList ++ components '/' path.toList := by
  unfold fullPath
  split
  · rfl
  · dsimp only
    split_ifs with root
    · have none : components '/' cwd.toList = [] := by
        rw [root]
        rfl
      rw [components_cons, none, List.nil_append]
    · rw [components_append]

theorem isNormal_normalized {parts : List (List Char)} (plain : ∀ part ∈ parts, part ≠ [] ∧ '/' ∉ part) :
    IsNormal (normalized parts) := by
  refine ⟨stackNormal ['.'] ['.', '.'] parts, ?_, String.toList_ofList⟩
  intro part member
  obtain ⟨inside, notDot, notParent⟩ := (mem_foldl_stackStep (List.mem_reverse.mp member)).resolve_left List.not_mem_nil
  exact ⟨(plain part inside).1, (plain part inside).2, notDot, notParent⟩

theorem resolvePath_of_isNormal {path : String} (normal : IsNormal path) : resolvePath cwd path = path := by
  obtain ⟨parts, proper, text⟩ := normal
  have absolute : path.toList.head? = some '/' := by
    rw [text]
    rfl
  have same : components '/' path.toList = parts := by
    rw [text]
    exact components_rooted fun part member => ⟨(proper part member).1, (proper part member).2.1⟩
  rw [resolvePath_eq, components_fullPath, if_pos absolute, same, normalized,
    stackNormal_eq_self fun part member => (proper part member).2.2, ← text, String.ofList_toList]

/-- `resolve_path` is the stack normalisation of the path, behind the current directory unless the
path starts at the root. The result is normal, and resolving it again changes nothing. -/
theorem resolvePath_normalizes (cwd : CwdState) (path : String) :
    resolvePath cwd path = normalized (if path.toList.head? = some '/' then components '/' path.toList
      else components '/' (cwdGet cwd).toList ++ components '/' path.toList) ∧
    IsNormal (resolvePath cwd path) ∧
    ∀ cwd' : CwdState, resolvePath cwd' (resolvePath cwd path) = resolvePath cwd path := by
  have normal : IsNormal (resolvePath cwd path) := by
    rw [resolvePath_eq]
    apply isNormal_normalized
    exact fun part member => ⟨ne_nil_of_mem_components member, not_mem_of_mem_splitOn (List.mem_filter.mp member).1⟩
  exact ⟨by rw [resolvePath_eq, components_fullPath], normal, fun cwd' => resolvePath_of_isNormal cwd' normal⟩

/-- **`cd` and relative paths.** A directory that fits in the buffer is what `cwd_get` returns, and a relative path
means there what it means behind the name of the directory. -/
theorem cwdSet_then_resolve : (∀ cwd path, (asBytes path).length ≤ cwdMaxLen → cwdGet (cwdSet cwd path) = path) ∧
    ∀ cwd dir path, (asBytes (resolvePath cwd dir)).length ≤ cwdMaxLen → dir ≠ "" → path.toList.head? ≠ some '/' →
      resolvePath (cwdSet cwd (resolvePath cwd dir)) path = resolvePath cwd (dir ++ "/" ++ path) := by
  have stored : ∀ cwd path, (asBytes path).length ≤ cwdMaxLen → cwdGet (cwdSet cwd path) = path := by
    intro cwd path fits
    have front : (cwdSet cwd path).path.toList.take (cwdSet cwd path).len = asBytes path := by
      simp [cwdSet, List.take_of_length_le fits, fits]
    rw [cwdGet, front, Fs.fromUtf8_asBytes]
    rfl
  refine ⟨stored, fun cwd dir path fits named relative => ?_⟩
  have parts : components '/' (resolvePath cwd dir).toList =
      stackNormal ['.'] ['.', '.'] (components '/' (fullPath (cwdGet cwd) dir)) := by
    rw [resolvePath_eq, normalized, String.toList_ofList]
    refine components_rooted fun part member => ?_
    have inside := ((mem_foldl_stackStep (List.mem_reverse.mp member)).resolve_left List.not_mem_nil).1
    exact ⟨ne_nil_of_mem_components inside, not_mem_of_mem_splitOn (List.mem_filter.mp inside).1⟩
  have joined : (dir ++ "/" ++ path).toList = dir.toList ++ '/' :: path.toList := by simp
  have head : (dir.toList ++ '/' :: path.toList).head? = dir.toList.head? := by
    rw [List.head?_append_of_ne_nil]
    simpa using named
  rw [resolvePath_eq (dir ++ "/" ++ path), resolvePath_eq, components_fullPath, if_neg relative, stored _ _ fits, parts,
    normalized, stackNormal_append, components_fullPath, components_fullPath, joined, head, components_append]
  split_ifs
  · rfl
  · rw [List.append_assoc]
    rfl

theorem one_le_cwdMaxLen : 1 ≤ cwdMaxLen := by decide

/-- `CwdState::new`: the root. -/
def CwdState.new : CwdState := ⟨Vector.ofFn fun i => if i.val = 0 then 47 else 0, 1, one_le_cwdMaxLen⟩

theorem cwdSet_then_resolve_tmp :
    cwdGet (cwdSet .new "/home") = "/home" ∧
    resolvePath (cwdSet .new (resolvePath .new "home/../tmp")) "../a" = resolvePath .new "home/../tmp/../a" :=
  ⟨cwdSet_then_resolve.1 _ _ (by decide +kernel),
    cwdSet_then_resolve.2 _ _ _ (by decide +kernel) (by decide) (by decide)⟩

end HavyOs.Utils
