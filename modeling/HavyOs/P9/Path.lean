import HavyOs.Lib.Components
import HavyOs.P9.Message

/-!
# Paths

How `virtio_p9.rs` takes a path apart for `Twalk`, and how `write_file` splits off the last name
to create a file. A path is its UTF-8 bytes; it lies in memory, so it is shorter than that.
-/

namespace HavyOs.P9

open Lib List

/-- `RAM_SIZE` of `allocator.rs`. -/
def ramSize : Nat := 512 * 1024 * 1024

/-- A path lies in memory. -/
structure Path where
  bytes : List UInt8
  fits : bytes.length ≤ ramSize

def slash : UInt8 := 47

variable (path : List UInt8)

/-- The names that `walk` sends. -/
def components : List (List UInt8) :=
  ((path.dropWhile (· = slash)).splitOn slash).filter (· ≠ [])

/-- `rfind('/')`. -/
def rfindSlash : List UInt8 → Option Nat
  | [] => none
  | b :: path =>
    match rfindSlash path with
    | some i => some (i + 1)
    | none => if b = slash then some 0 else none

/-- The parent and the name of the file that `write_file` creates. -/
def splitParent : List UInt8 × List UInt8 :=
  match rfindSlash path with
  | some i => if i = 0 then ([slash], path.drop 1) else (path.take i, path.drop (i + 1))
  | none => ([slash], path)

/-! ## Components -/

theorem components_eq : components path = Lib.components slash path := by
  induction path with
  | nil => rfl
  | cons b path ih =>
    by_cases lead : b = slash
    · subst lead
      rw [components_cons, ← ih]
      simp [components]
    · rw [components, dropWhile_cons_of_neg (by simpa using lead)]
      rfl

theorem components_append (parent rest : List UInt8) :
    components (parent ++ slash :: rest) = components parent ++ components rest := by
  simp [components_eq, Lib.components_append]

theorem components_singleton {name : List UInt8} (some : name ≠ []) (plain : slash ∉ name) :
    components name = [name] := by
  rw [components_eq, Lib.components_singleton some plain]

theorem components_slash (rest : List UInt8) : components (slash :: rest) = components rest := by
  rw [components_eq, components_eq, components_cons]

variable {path : List UInt8}

theorem ne_nil_of_mem_components {name : List UInt8} (mem : name ∈ components path) : name ≠ [] :=
  Lib.ne_nil_of_mem_components (components_eq path ▸ mem)

theorem length_flatten_splitOn (path : List UInt8) : (path.splitOn slash).flatten.length ≤ path.length := by
  induction path with
  | nil => simp
  | cons b path ih =>
    rw [splitOn_cons_eq_if_modifyHead]
    split
    · simpa using Nat.le_succ_of_le ih
    · cases parts : path.splitOn slash with
      | nil => simp
      | cons part parts =>
        rw [parts] at ih
        simpa [Nat.add_right_comm] using ih

theorem length_flatten_text {names : List (List UInt8)} (some : ∀ name ∈ names, name ≠ []) :
    (names.map text).flatten.length ≤ 3 * names.flatten.length := by
  induction names with
  | nil => simp
  | cons name names ih =>
    rw [forall_mem_cons] at some
    have first : 0 < name.length := length_pos_iff.mpr some.1
    have rest := ih some.2
    simp only [map_cons, flatten_cons, length_append, text, toLe_length] at ⊢
    omega

/-- A name takes two bytes for its length, and it has at least one of its own. -/
theorem length_walkBody (fid newFid : UInt32) (path : List UInt8) :
    (walkBody fid newFid (components path)).length ≤ 10 + 3 * path.length := by
  have names := length_flatten_text fun name (mem : name ∈ components path) => ne_nil_of_mem_components mem
  have total : (components path).flatten.length ≤ path.length := by
    rw [components_eq, Lib.components, flatten_filter_ne_nil]
    exact length_flatten_splitOn path
  simp only [walkBody, length_append, toLe_length]
  omega

/-! ## The last name -/

theorem rfindSlash_none (found : rfindSlash path = none) : slash ∉ path := by
  induction path with
  | nil => simp
  | cons b path ih =>
    rw [rfindSlash] at found
    split at found
    · cases found
    · rename_i later
      rw [mem_cons, not_or]
      refine ⟨?_, ih later⟩
      intro first
      rw [if_pos first.symm] at found
      cases found

/-- The path is split at its last slash. -/
theorem rfindSlash_some {i : Nat} (found : rfindSlash path = some i) :
    path = path.take i ++ slash :: path.drop (i + 1) ∧ slash ∉ path.drop (i + 1) := by
  induction path generalizing i with
  | nil => cases found
  | cons b path ih =>
    rw [rfindSlash] at found
    split at found
    · rename_i j later
      cases found
      obtain ⟨split, last⟩ := ih later
      exact ⟨by rw [take_succ_cons, cons_append, drop_succ_cons, ← split], last⟩
    · rename_i later
      split_ifs at found with first
      cases found
      exact ⟨by rw [first]; rfl, rfindSlash_none later⟩

/-- **The names of the parent and the last name are the names of the path.** -/
theorem components_splitParent (name : (splitParent path).2 ≠ []) :
    components path = components (splitParent path).1 ++ [(splitParent path).2] := by
  have top : components [slash] = [] := components_slash []
  rw [splitParent] at name ⊢
  split at name
  · rename_i i found
    obtain ⟨split, last⟩ := rfindSlash_some found
    split_ifs at name with first
    · subst first
      rw [take_zero, nil_append] at split
      rw [if_pos rfl, top, nil_append]
      nth_rewrite 1 [split]
      rw [components_slash, components_singleton name last]
    · rw [if_neg first]
      nth_rewrite 1 [split]
      rw [components_append, components_singleton name last]
  · rename_i found
    rw [top, nil_append, components_singleton name (rfindSlash_none found)]

/-- The parent is longer than the path only where it is the root. -/
theorem length_splitParent (path : List UInt8) :
    (splitParent path).1.length ≤ path.length + 1 ∧ (splitParent path).2.length ≤ path.length := by
  rw [splitParent]
  split
  · split
    · simp
    · simp only [length_take, length_drop]
      omega
  · simp

end HavyOs.P9
