import Mathlib.Data.Fintype.EquivFin

/-!
# Who holds what

Places that each hold at most one item. Items are held exclusively if no two places hold the same
one; a place may take an item that is not held, drop the one it holds, or hand it to another.
-/

namespace HavyOs.Lib

open Function

variable {κ ι : Type} [DecidableEq κ] {holds : κ → Option ι} {k k' : κ} {i j : ι}

/-- Some place holds `i`. -/
def Held (holds : κ → Option ι) (i : ι) : Prop := ∃ k, holds k = some i

/-- No two places hold the same. -/
structure Exclusive (holds : κ → Option ι) : Prop where
  unique : ∀ {k k' i}, holds k = some i → holds k' = some i → k = k'

theorem held_take (empty : holds k = none) : Held (update holds k (some i)) j ↔ j = i ∨ Held holds j := by
  constructor
  · rintro ⟨k', has⟩
    by_cases same : k' = k
    · rw [same, update_self] at has
      exact .inl (Option.some.inj has).symm
    · rw [update_of_ne same] at has
      exact .inr ⟨k', has⟩
  · rintro (rfl | ⟨k', has⟩)
    · exact ⟨k, update_self ..⟩
    · have other : k' ≠ k := by
        rintro rfl
        cases empty.symm.trans has
      exact ⟨k', by rw [update_of_ne other, has]⟩

variable (exclusive : Exclusive holds)

include exclusive

theorem Exclusive.take (free : ¬Held holds i) : Exclusive (update holds k (some i)) := by
  constructor
  intro a b j hasA hasB
  by_cases isA : a = k <;> by_cases isB : b = k
  · rw [isA, isB]
  · subst isA
    rw [update_self] at hasA
    rw [update_of_ne isB, ← hasA] at hasB
    exact absurd ⟨b, hasB⟩ free
  · subst isB
    rw [update_self] at hasB
    rw [update_of_ne isA, ← hasB] at hasA
    exact absurd ⟨a, hasA⟩ free
  · rw [update_of_ne isA] at hasA
    rw [update_of_ne isB] at hasB
    exact exclusive.unique hasA hasB

omit exclusive in
theorem of_drop {l : κ} (has : update holds k none l = some i) : l ≠ k ∧ holds l = some i := by
  by_cases same : l = k
  · rw [same, update_self] at has
    cases has
  · rw [update_of_ne same] at has
    exact ⟨same, has⟩

theorem Exclusive.drop : Exclusive (update holds k none) :=
  ⟨fun hasA hasB => exclusive.unique (of_drop hasA).2 (of_drop hasB).2⟩

/-- Once the place that holds it drops it nobody holds it, and nothing else changes. -/
theorem Exclusive.held_drop (has : holds k = some i) : Held (update holds k none) j ↔ j ≠ i ∧ Held holds j := by
  constructor
  · rintro ⟨l, still⟩
    obtain ⟨other, still⟩ := of_drop still
    refine ⟨?_, l, still⟩
    rintro rfl
    exact other (exclusive.unique still has)
  · rintro ⟨other, l, still⟩
    have elsewhere : l ≠ k := by
      rintro rfl
      exact other (Option.some.inj (still.symm.trans has))
    exact ⟨l, by rw [update_of_ne elsewhere, still]⟩

/-- What is handed over is held as before. -/
theorem Exclusive.held_move (has : holds k = some i) (empty : holds k' = none) :
    Held (update (update holds k none) k' (some i)) j ↔ Held holds j := by
  have still : update holds k none k' = none := by
    by_cases same : k' = k
    · rw [same, update_self]
    · rw [update_of_ne same, empty]
  rw [held_take still, exclusive.held_drop has]
  constructor
  · rintro (rfl | ⟨-, held⟩)
    · exact ⟨k, has⟩
    · exact held
  · intro held
    by_cases same : j = i
    · exact .inl same
    · exact .inr ⟨same, held⟩

theorem Exclusive.move (has : holds k = some i) : Exclusive (update (update holds k none) k' (some i)) :=
  exclusive.drop.take fun held => ((exclusive.held_drop has).mp held).1 rfl

omit [DecidableEq κ] in
/-- If there are as many places as items and each holds one, every item is held by one of them. -/
theorem Exclusive.held_of_full {α : Type} [Fintype α] [Fintype ι] {places : α → κ}
    (distinct : Function.Injective places) (enough : Fintype.card ι ≤ Fintype.card α)
    (full : ∀ a, holds (places a) ≠ none)
    (i : ι) : ∃ a, holds (places a) = some i := by
  choose item has using fun a => Option.ne_none_iff_exists'.mp (full a)
  have injective : Function.Injective item := by
    intro a b same
    have hasA := has a
    rw [same] at hasA
    exact distinct (exclusive.unique hasA (has b))
  have card : Fintype.card α = Fintype.card ι := le_antisymm (Fintype.card_le_of_injective item injective) enough
  obtain ⟨a, is⟩ := ((Fintype.bijective_iff_injective_and_card item).mpr ⟨injective, card⟩).2 i
  exact ⟨a, is ▸ has a⟩

end HavyOs.Lib
