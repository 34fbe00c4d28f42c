import Mathlib.Data.List.Basic

/-!
# Components of a path

A path is a list of characters of any alphabet, cut at a separator into components, which are not
empty. A rooted path is written as its components with a separator in front of each. The stack
normalisation of a list of components drops the component that stands for the directory itself and
lets the one that stands for the parent take the component before it away, if there is one.
-/

namespace HavyOs.Lib

open List

section Components

variable {α : Type} [DecidableEq α]

/-- The parts between the separators that are not empty. -/
def components (sep : α) (path : List α) : List (List α) := (path.splitOn sep).filter (· ≠ [])

theorem components_append (sep : α) (left right : List α) :
    components sep (left ++ sep :: right) = components sep left ++ components sep right := by
  rw [components, splitOn_append_cons_self, filter_append]
  rfl

theorem components_cons (sep : α) (path : List α) : components sep (sep :: path) = components sep path :=
  components_append sep [] path

variable {sep : α} {name path : List α} {parts : List (List α)}

theorem components_singleton (some : name ≠ []) (plain : sep ∉ name) : components sep name = [name] := by
  rw [components, splitOn_eq_singleton plain, filter_cons_of_pos (by simpa using some), filter_nil]

theorem ne_nil_of_mem_components (member : name ∈ components sep path) : name ≠ [] := by
  simpa using (mem_filter.mp member).2

theorem not_mem_of_mem_splitOn (member : name ∈ path.splitOn sep) : sep ∉ name := by
  induction path generalizing name with
  | nil =>
    rw [splitOn_nil, mem_singleton] at member
    rw [member]
    exact not_mem_nil
  | cons c path ih =>
    rw [splitOn_cons_eq_if_modifyHead] at member
    split_ifs at member with other
    · rcases mem_cons.mp member with rfl | later
      · exact not_mem_nil
      · exact ih later
    · cases parts : path.splitOn sep with
      | nil => simp [parts] at member
      | cons first rest =>
        rw [parts] at member
        rw [parts] at ih
        rcases mem_cons.mp member with rfl | later
        · rw [mem_cons, not_or]
          exact ⟨fun same => other (beq_iff_eq.mpr same.symm), ih mem_cons_self⟩
        · exact ih (mem_cons_of_mem first later)

/-- The path from the root with the given components. -/
def rooted (sep : α) (parts : List (List α)) : List α := sep :: [sep].intercalate parts

theorem components_rooted (plain : ∀ part ∈ parts, part ≠ [] ∧ sep ∉ part) :
    components sep (rooted sep parts) = parts := by
  rw [rooted, components_cons]
  cases parts with
  | nil => rfl
  | cons first rest =>
    rw [components, splitOn_intercalate sep (fun part member => (plain part member).2) (cons_ne_nil _ _),
      filter_eq_self]
    exact fun part member => decide_eq_true (plain part member).1

/-! ## Stack normalisation -/

variable (here up : List α)

/-- One component on a stack with its top in front. -/
def stackStep (stack : List (List α)) (part : List α) : List (List α) :=
  if part = here then stack else if part = up then stack.tail else part :: stack

/-- The components that are left. -/
def stackNormal (parts : List (List α)) : List (List α) := (parts.foldl (stackStep here up) []).reverse

variable {here up}

theorem mem_foldl_stackStep {stack : List (List α)} {part : List α}
    (member : part ∈ parts.foldl (stackStep here up) stack) :
    part ∈ stack ∨ part ∈ parts ∧ part ≠ here ∧ part ≠ up := by
  induction parts generalizing stack with
  | nil => exact Or.inl member
  | cons first parts ih =>
    rcases ih member with onStack | ⟨later, proper⟩
    · unfold stackStep at onStack
      split at onStack
      · exact Or.inl onStack
      · rename_i notHere
        split_ifs at onStack with notUp
        · exact Or.inl (mem_of_mem_tail onStack)
        · rcases mem_cons.mp onStack with rfl | below
          · exact Or.inr ⟨mem_cons_self, notHere, notUp⟩
          · exact Or.inl below
    · exact Or.inr ⟨mem_cons_of_mem first later, proper⟩

theorem stackNormal_eq_self (proper : ∀ part ∈ parts, part ≠ here ∧ part ≠ up) : stackNormal here up parts = parts := by
  have pushed : ∀ stack, parts.foldl (stackStep here up) stack = parts.reverse ++ stack := by
    induction parts with
    | nil => exact fun stack => rfl
    | cons first parts ih =>
      intro stack
      obtain ⟨notHere, notUp⟩ := proper first mem_cons_self
      rw [foldl_cons, stackStep, if_neg notHere, if_neg notUp,
        ih fun part member => proper part (mem_cons_of_mem first member), reverse_cons, append_assoc]
      rfl
  rw [stackNormal, pushed, append_nil, reverse_reverse]

/-- What comes first may be normalised before. -/
theorem stackNormal_append (more : List (List α)) :
    stackNormal here up (stackNormal here up parts ++ more) = stackNormal here up (parts ++ more) := by
  have proper : ∀ part ∈ stackNormal here up parts, part ≠ here ∧ part ≠ up := fun part member =>
    ((mem_foldl_stackStep (mem_reverse.mp member)).resolve_left not_mem_nil).2
  have same := congrArg reverse (stackNormal_eq_self proper)
  rw [stackNormal, stackNormal, reverse_reverse, reverse_reverse] at same
  rw [stackNormal, stackNormal, foldl_append, stackNormal, same, ← foldl_append]

end Components

end HavyOs.Lib
