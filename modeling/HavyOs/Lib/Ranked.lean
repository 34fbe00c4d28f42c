import Mathlib.Data.List.InsertIdx
import Mathlib.Data.List.TakeWhile

/-!
# Queues by rank

A queue in which higher ranks stand first, and the order of arrival decides among equal ranks. An
arrival is inserted before the first entry of lower rank; whatever leaves, the rest stays in order,
and the first entry that passes a test comes before all others that pass it.
-/

namespace HavyOs.Lib

open List

variable {α : Type} {rank ticket : α → Nat} {l : List α} {x : α}

/-- `a` is of higher rank than `b`, or of the same rank and arrived first. -/
def Ranked (rank ticket : α → Nat) (a b : α) : Prop := rank b < rank a ∨ rank b = rank a ∧ ticket a < ticket b

theorem insertIdx_findIdx (test : α → Bool) (l : List α) (x : α) :
    l.insertIdx (l.findIdx test) x = l.takeWhile (fun a => !test a) ++ x :: l.dropWhile (fun a => !test a) := by
  induction l with
  | nil => rfl
  | cons a l ih =>
    by_cases stop : test a = true
    · simp [findIdx_cons, stop]
    · simp [findIdx_cons, stop, ih]

section

variable (sorted : l.Pairwise (Ranked rank ticket))
include sorted

/-- In a queue by rank all entries behind one of lower rank are of lower rank. -/
theorem rank_lt_of_mem_dropWhile {b : α}
    (member : b ∈ l.dropWhile fun a => !decide (rank a < rank x)) : rank b < rank x := by
  induction l with
  | nil => cases member
  | cons a l ih =>
    obtain ⟨first, sorted⟩ := pairwise_cons.mp sorted
    by_cases lower : rank a < rank x
    · rw [dropWhile_cons_of_neg (by simpa using lower)] at member
      obtain rfl | later := mem_cons.mp member
      · exact lower
      · obtain _ | ⟨_, -⟩ := first b later <;> omega
    · rw [dropWhile_cons_of_pos (by simpa using lower)] at member
      exact ih sorted member

/-- The latest arrival goes before the first entry of lower rank. -/
theorem ranked_insert (latest : ∀ a ∈ l, ticket a < ticket x) :
    (l.insertIdx (l.findIdx fun a => rank a < rank x) x).Pairwise (Ranked rank ticket) := by
  rw [insertIdx_findIdx, pairwise_append, pairwise_cons]
  have higher {a : α} (member : a ∈ l.takeWhile fun a => !decide (rank a < rank x)) : Ranked rank ticket a x := by
    have le : rank x ≤ rank a := by simpa using mem_takeWhile_imp member
    obtain less | same := Nat.lt_or_eq_of_le le
    · exact .inl less
    · exact .inr ⟨same, latest a ((List.takeWhile_prefix _).subset member)⟩
  have lower {b : α} (member : b ∈ l.dropWhile fun a => !decide (rank a < rank x)) : rank b < rank x :=
    rank_lt_of_mem_dropWhile sorted member
  refine ⟨sorted.sublist (List.takeWhile_prefix _).sublist, ⟨fun b member => .inl (lower member), ?_⟩, ?_⟩
  · exact sorted.sublist (dropWhile_suffix _).sublist
  · intro a before b member
    obtain rfl | after := mem_cons.mp member
    · exact higher before
    · have above := higher before
      have below := lower after
      obtain less | ⟨same, -⟩ := above <;> exact .inl (by omega)

/-- The first entry that passes a test comes before every other that does. -/
theorem ranked_first {test : α → Bool} {a b : α} (found : l.find? test = some a) (other : b ∈ l.eraseP test)
    (passes : test b = true) : Ranked rank ticket a b := by
  obtain ⟨first, before, after, rfl, fail⟩ := find?_eq_some_iff_append.mp found
  have fail : ∀ x ∈ before, ¬test x = true := by simpa using fail
  rw [eraseP_append_right _ fail, eraseP_cons_of_pos first] at other
  obtain earlier | later := mem_append.mp other
  · exact absurd passes (fail b earlier)
  · exact rel_of_pairwise_cons (pairwise_append.mp sorted).2.1 later

end

end HavyOs.Lib
