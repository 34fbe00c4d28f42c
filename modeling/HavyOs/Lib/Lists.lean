import Mathlib.Data.List.InsertIdx
import Mathlib.Data.List.Nodup
import Mathlib.Data.List.TakeWhile
import Mathlib.Order.MinMax
import Mathlib.Tactic.Common

/-!
# Lists

Facts about lists that several modules use: counts under a change at one member, initial
segments of a range, lists side by side, folds that may fail, a stable sort, and the chunks up to
a gap.
-/

namespace HavyOs.Lib

open List

variable {α β : Type}

/-- Two predicates that differ at one member of a list count alike up to that member. -/
theorem countP_change {l : List α} (nodup : l.Nodup) {x : α} (member : x ∈ l) {p q : α → Bool}
    (agree : ∀ y, y ≠ x → p y = q y) : l.countP p + (q x).toNat = l.countP q + (p x).toNat := by
  obtain ⟨before, after, split⟩ := append_of_mem member
  subst split
  have fresh : x ∉ before ∧ x ∉ after := by
    rw [nodup_append] at nodup
    exact ⟨fun h => nodup.2.2 x h x (by simp) rfl, (nodup_cons.mp nodup.2.1).1⟩
  have same : ∀ part : List α, x ∉ part → part.countP p = part.countP q := by
    intro part notIn
    apply countP_congr
    intro y hy
    rw [agree y fun h => notIn (h ▸ hy)]
  simp only [countP_append, countP_cons, same before fresh.1, same after fresh.2]
  cases p x <;> cases q x <;> simp <;> omega

theorem countP_range_not_lt (m n : Nat) : (range n).countP (fun k => !decide (k < m)) = n - m := by
  induction n with
  | zero => simp
  | succ n ih =>
    rw [range_succ, countP_append, ih, countP_singleton]
    grind

/-- The numbers in front of the first one that fails `p`. -/
theorem mem_takeWhile_range {p : Nat → Bool} {n i : Nat} :
    i ∈ (range n).takeWhile p ↔ i < n ∧ ∀ j, j ≤ i → p j = true := by
  constructor
  · intro member
    have initial := prefix_iff_eq_take.mp (List.takeWhile_prefix p (l := range n))
    rw [take_range] at initial
    have bound : i < min ((range n).takeWhile p).length n := by
      rw [initial] at member
      exact mem_range.mp member
    refine ⟨by omega, fun j le => ?_⟩
    have earlier : j ∈ (range n).takeWhile p := by
      rw [initial]
      exact mem_range.mpr (by omega)
    exact mem_takeWhile_imp earlier
  · rintro ⟨bound, all⟩
    have split : range n = range (i + 1) ++ (range (n - (i + 1))).map (i + 1 + ·) := by
      rw [← range_add]
      congr 1
      omega
    rw [split, takeWhile_append_of_pos fun j member => all j (by have := mem_range.mp member; omega)]
    exact mem_append_left _ (mem_range.mpr (by omega))

variable (l : List α)

/-- What every step of a party makes smaller, and no step of another makes larger, comes down to zero when the party
takes enough steps. -/
theorem exists_take_foldl_eq_zero {step : β → α → β} {μ : β → Nat} {own : α → Bool}
    (down : ∀ s a, μ s ≠ 0 → μ (step s a) + (if own a then 1 else 0) ≤ μ s) {s : β} (enough : μ s ≤ l.countP own) :
    ∃ n, μ ((l.take n).foldl step s) = 0 := by
  induction l generalizing s with
  | nil => exact ⟨0, Nat.le_zero.mp enough⟩
  | cons a l ih =>
    by_cases done : μ s = 0
    · exact ⟨0, done⟩
    · have less := down s a done
      rw [countP_cons] at enough
      obtain ⟨n, zero⟩ := ih (s := step s a) (by omega)
      exact ⟨n + 1, zero⟩

/-- A fold whose steps return independently of the state returns when every step does. -/
theorem foldlM_returns_iff {σ ε : Type} {f : σ → α → Except ε σ} {P : α → Prop}
    (step : ∀ x ∈ l, ∀ s, (∃ s', f s x = .ok s') ↔ P x) (s : σ) : (∃ s', l.foldlM f s = .ok s') ↔ ∀ x ∈ l, P x := by
  induction l generalizing s with
  | nil => exact ⟨fun _ => by simp, fun _ => ⟨s, rfl⟩⟩
  | cons x rest ih =>
    have later := ih fun y member => step y (mem_cons_of_mem _ member)
    have first := step x mem_cons_self s
    rw [foldlM_cons, forall_mem_cons, ← first]
    cases here : f s x with
    | error e =>
      constructor
      · exact fun ⟨s', returned⟩ => nomatch returned
      · exact fun ⟨⟨s', returned⟩, _⟩ => nomatch returned
    | ok s₁ => exact ⟨fun returned => ⟨⟨s₁, rfl⟩, (later s₁).mp returned⟩, fun all => (later s₁).mpr all.2⟩

/-- A fold that keeps the least value so far ends with the least of all. -/
theorem foldl_least {σ β : Type} [LinearOrder β] {step : σ → α → σ} (low : σ → β) (value : α → β)
    (lowers : ∀ s a, low (step s a) = min (low s) (value a)) (l : List α) (s : σ) :
    low (l.foldl step s) ≤ low s ∧ (∀ a ∈ l, low (l.foldl step s) ≤ value a) ∧
      (low (l.foldl step s) = low s ∨ ∃ a ∈ l, value a = low (l.foldl step s)) := by
  induction l generalizing s with
  | nil => exact ⟨le_rfl, by simp, .inl rfl⟩
  | cons a l ih =>
    obtain ⟨lower, below, attained⟩ := ih (step s a)
    rw [lowers] at lower attained
    rw [foldl_cons]
    refine ⟨lower.trans (min_le_left _ _), forall_mem_cons.mpr ⟨lower.trans (min_le_right _ _), below⟩, ?_⟩
    rcases attained with same | ⟨other, member, same⟩
    · rcases min_choice (low s) (value a) with first | new
      · exact .inl (same.trans first)
      · exact .inr ⟨a, mem_cons_self, (same.trans new).symm⟩
    · exact .inr ⟨other, mem_cons_of_mem _ member, same⟩

/-- A fold whose steps set one value or change nothing ends with this value, when some step sets it. -/
theorem foldl_sets {step : β → α → β} {value : β} {items : List α}
    (each : ∀ a ∈ items, (∀ b, step b a = b) ∨ ∀ b, step b a = value) (sets : ∃ a ∈ items, ∀ b, step b a = value)
    (start : β) :
    items.foldl step start = value := by
  have stays : ∀ {items : List α}, (∀ a ∈ items, (∀ b, step b a = b) ∨ ∀ b, step b a = value) →
      items.foldl step value = value := by
    intro items each
    induction items with
    | nil => rfl
    | cons a items ih =>
      have here : step value a = value := (each a mem_cons_self).elim (fun same => same value) fun set => set value
      rw [foldl_cons, here]
      exact ih fun other member => each other (mem_cons_of_mem a member)
  induction items generalizing start with
  | nil =>
    obtain ⟨a, member, _⟩ := sets
    cases member
  | cons a items ih =>
    have later : ∀ other ∈ items, (∀ b, step b other = b) ∨ ∀ b, step b other = value := fun other member =>
      each other (mem_cons_of_mem a member)
    rw [foldl_cons]
    obtain ⟨setter, member, set⟩ := sets
    rcases mem_cons.mp member with rfl | inside
    · rw [set]
      exact stays later
    · exact ih later ⟨setter, inside, set⟩ _

/-- A stable sort leaves the order among members that may stand in either order. -/
theorem filter_mergeSort {le : α → α → Bool} (trans : ∀ a b c, le a b = true → le b c = true → le a c = true)
    (total : ∀ a b, (le a b || le b a) = true) {p : α → Bool} (tied : ∀ a b, p a = true → p b = true → le a b = true)
    (l : List α) : (l.mergeSort le).filter p = l.filter p := by
  have inOrder : (l.filter p).Pairwise fun a b => le a b = true := by
    apply List.Pairwise.imp_of_mem
    · intro a b left right _
      exact tied a b (mem_filter.mp left).2 (mem_filter.mp right).2
    · exact pairwise_of_forall fun _ _ => trivial
  have inside := (sublist_mergeSort trans total inOrder filter_sublist).filter p
  simp only [filter_filter, Bool.and_self] at inside
  exact (inside.eq_of_length ((mergeSort_perm l le).filter p).length_eq.symm).symm

/-! ## Chunks up to a gap -/

section Gap

variable {α : Type}

/-- The chunks one after the other, up to the second of two empty ones in a row; `empty` is the
number of empty ones just passed. -/
def untilGap (empty : Nat) : List (List α) → List α
  | [] => []
  | chunk :: rest =>
    if chunk.isEmpty then if 2 ≤ empty + 1 then [] else untilGap (empty + 1) rest
    else chunk ++ untilGap 0 rest

/-- Nothing follows two empty chunks in a row. -/
def Gapless (chunks : List (List α)) : Prop := ∀ before after, chunks = before ++ [] :: [] :: after → after.flatten = []

theorem untilGap_starts (empty : Nat) (chunks : List (List α)) : untilGap empty chunks <+: chunks.flatten := by
  fun_induction untilGap empty chunks with
  | case1 => exact prefix_rfl
  | case2 => exact nil_prefix
  | case3 empty chunk rest isEmpty _ ih =>
    rw [isEmpty_iff.mp isEmpty]
    exact ih
  | case4 empty chunk rest _ ih =>
    exact (prefix_append_right_inj chunk).mpr ih

variable {chunks : List (List α)}

theorem Gapless.cons_iff {chunk : List α} (some : chunk ≠ []) : Gapless (chunk :: chunks) ↔ Gapless chunks := by
  constructor
  · intro gapless before after split
    exact gapless (chunk :: before) after (by rw [split, cons_append])
  · intro gapless before after split
    cases before with
    | nil => exact absurd (cons.inj split).1 some
    | cons first before => exact gapless before after (cons.inj split).2

/-- Everything is taken when nothing follows a gap. -/
theorem untilGap_eq_flatten : untilGap 0 chunks = chunks.flatten ↔ Gapless chunks := by
  induction h : chunks.length using Nat.strong_induction_on generalizing chunks with
  | _ n ih =>
    subst h
    cases chunks with
    | nil =>
      refine ⟨fun _ before after split => ?_, fun _ => rfl⟩
      simp at split
    | cons chunk rest =>
      cases chunk with
      | cons a chunk =>
        rw [untilGap, if_neg (by simp), flatten_cons, append_cancel_left_eq, Gapless.cons_iff (cons_ne_nil a chunk)]
        exact ih rest.length (Nat.lt_succ_self _) rfl
      | nil =>
        -- an empty chunk: the next one decides
        rw [untilGap, if_pos isEmpty_nil, if_neg (by decide), flatten_cons, nil_append]
        cases rest with
        | nil =>
          refine ⟨fun _ before after split => ?_, fun _ => rfl⟩
          have := congrArg length split
          simp only [length_append, length_cons, length_nil] at this
          omega
        | cons second rest =>
          rw [untilGap]
          cases second with
          | nil =>
            constructor
            · intro nothing before after split
              have whole := congrArg flatten split
              simp only [flatten_cons, flatten_append, ← nothing] at whole
              exact (append_eq_nil_iff.mp whole.symm).2
            · exact fun gapless => (gapless [] rest rfl).symm
          | cons a second =>
            rw [if_neg (by simp), flatten_cons, append_cancel_left_eq,
              ih rest.length (by simp only [length_cons]; omega) rfl,
              ← Gapless.cons_iff (cons_ne_nil a second)]
            constructor
            · intro gapless before after split
              cases before with
              | nil => simp at split
              | cons first before => exact gapless before after (cons.inj split).2
            · intro gapless before after split
              exact gapless ([] :: before) after (by rw [split, cons_append])

/-- The same by positions. -/
theorem gapless_iff_getElem? :
    Gapless chunks ↔ ∀ (i j : Nat) (chunk : List α), i + 1 < j → chunks[i]? = some [] → chunks[i + 1]? = some [] →
      chunks[j]? = some chunk → chunk = [] := by
  constructor
  · intro gapless i j chunk later first second last
    have cut : chunks = chunks.take i ++ [] :: [] :: chunks.drop (i + 2) := by
      obtain ⟨bound, here⟩ := List.getElem?_eq_some_iff.mp first
      obtain ⟨bound', here'⟩ := List.getElem?_eq_some_iff.mp second
      have whole := take_append_drop i chunks
      rw [drop_eq_getElem_cons bound, here, drop_eq_getElem_cons bound', here'] at whole
      exact whole.symm
    have none := flatten_eq_nil_iff.mp (gapless _ _ cut)
    apply none chunk
    rw [mem_iff_getElem?]
    exact ⟨j - (i + 2), by rw [getElem?_drop, Nat.add_sub_cancel' (by omega)]; exact last⟩
  · intro all before after split
    rw [flatten_eq_nil_iff]
    intro chunk member
    obtain ⟨k, at'⟩ := mem_iff_getElem?.mp member
    subst split
    apply all before.length (before.length + 2 + k) chunk (by omega)
    · simp
    · simp
    · rw [Nat.add_assoc, getElem?_append_right (Nat.le_add_right _ _), Nat.add_sub_cancel_left, Nat.add_comm 2 k]
      exact at'

end Gap

/-- Two partial functions have the same values on a list, with their number, if they have where they
differ. -/
theorem filterMap_perm_iff [DecidableEq β] (f g : α → Option β) (l : List α) :
    (l.filterMap f).Perm (l.filterMap g) ↔
      ((l.filter fun a => ¬ f a = g a).filterMap f).Perm ((l.filter fun a => ¬ f a = g a).filterMap g) := by
  have split : ∀ h : α → Option β, (l.filterMap h).Perm
      ((l.filter fun a => f a = g a).filterMap h ++ (l.filter fun a => ¬ f a = g a).filterMap h) := by
    intro h
    rw [← filterMap_append]
    apply List.Perm.filterMap
    simpa using (filter_append_perm (fun a => decide (f a = g a)) l).symm
  have common : (l.filter fun a => f a = g a).filterMap f = (l.filter fun a => f a = g a).filterMap g := by
    apply filterMap_congr
    intro a member
    simpa using (mem_filter.mp member).2
  rw [(split f).congr_left, (split g).congr_right, common, perm_append_left_iff]

end HavyOs.Lib
