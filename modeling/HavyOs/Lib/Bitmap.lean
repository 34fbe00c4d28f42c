import HavyOs.Lib.Lists
import HavyOs.Lib.Slice
import Mathlib.Data.Nat.Bitwise

/-!
# Allocation bitmaps

A bitmap keeps one bit for each unit, eight to the byte and the low bit first.
`firstFree` scans it byte by byte, passing over full bytes, and returns the
lowest clear bit; `mark` sets a bit. The specification is in terms of the set
`marked` and the number of clear bits `freeCount`.
-/

namespace HavyOs.Lib

open Option
open Vector (getElem?_eq_getElem replicate)

variable {n : Nat} (bm : Vector UInt8 n)

/-- The byte at `i`, zero outside the bitmap. -/
def byteAt (i : Nat) : UInt8 := (bm[i]?).getD 0

def marked (k : Nat) : Bool := (byteAt bm (k / 8)).toNat.testBit (k % 8)

/-- `bm[k / 8] |= 1 << (k % 8)`. -/
@[irreducible] def mark (k : Nat) : Vector UInt8 n :=
  patch bm (k / 8) [byteAt bm (k / 8) ||| 1 <<< UInt8.ofNat (k % 8)]

variable (byte : UInt8)

/-- The inner loop: the lowest clear bit of a byte that is not full. -/
def freeBit : Option Nat :=
  if byte != 0xFF then (List.range 8).find? fun bit => byte &&& (1 <<< UInt8.ofNat bit) == 0 else none

/-- The scan: the lowest clear bit of the bitmap. -/
@[irreducible] def firstFree : Option Nat :=
  (List.range n).findSome? fun i => (freeBit (byteAt bm i)).map (i * 8 + ·)

@[irreducible] def freeCount : Nat := (List.range (n * 8)).countP fun k => !marked bm k

/-! ## Bits of one byte -/

theorem one_shift (bit : Fin 8) : ((1 : UInt8) <<< UInt8.ofNat bit.val).toNat = 2 ^ bit.val := by
  revert bit
  decide

variable {bit k : Nat} {bm : Vector UInt8 n}

theorem bit_clear_iff (hb : bit < 8) :
    (byte &&& (1 <<< UInt8.ofNat bit) == 0) = !byte.toNat.testBit bit := by
  have shifted := one_shift ⟨bit, hb⟩
  rw [Bool.eq_iff_iff, beq_iff_eq, ← UInt8.toNat_inj, UInt8.toNat_and, shifted, Nat.and_two_pow]
  cases h : byte.toNat.testBit bit <;> simp

theorem testBit_set (hb : bit < 8) (k : Nat) :
    (byte ||| 1 <<< UInt8.ofNat bit).toNat.testBit k = (byte.toNat.testBit k || decide (bit = k)) := by
  have shifted := one_shift ⟨bit, hb⟩
  rw [UInt8.toNat_or, shifted, Nat.testBit_or, Nat.testBit_two_pow]

theorem freeBit_some {byte : UInt8} (h : freeBit byte = some bit) :
    bit < 8 ∧ byte.toNat.testBit bit = false ∧ ∀ k, k < bit → byte.toNat.testBit k = true := by
  unfold freeBit at h
  split_ifs at h
  obtain ⟨clear, i, hi, rfl, before⟩ := List.find?_eq_some_iff_getElem.mp h
  simp only [List.length_range] at hi
  simp only [List.getElem_range] at clear before ⊢
  rw [bit_clear_iff byte hi] at clear
  refine ⟨hi, by simpa using clear, fun k hk => ?_⟩
  have set := before k hk
  rw [bit_clear_iff byte (by omega)] at set
  simpa using set

theorem freeBit_none {byte : UInt8} (h : freeBit byte = none) : ∀ bit, bit < 8 → byte.toNat.testBit bit = true := by
  intro bit hb
  unfold freeBit at h
  split at h
  · have set := List.find?_eq_none.mp h bit (List.mem_range.mpr hb)
    rw [bit_clear_iff byte hb] at set
    simpa using set
  · rename_i full
    have full : byte = 0xFF := by simpa using full
    subst full
    have : ∀ b : Fin 8, (0xFF : UInt8).toNat.testBit b.val = true := by decide
    exact this ⟨bit, hb⟩

/-! ## The whole bitmap -/

theorem byteAt_mark (bm : Vector UInt8 n) (hk : k < n * 8) (i : Nat) :
    byteAt (mark bm k) i = if i = k / 8 then byteAt bm i ||| 1 <<< UInt8.ofNat (k % 8) else byteAt bm i := by
  unfold byteAt mark
  by_cases hi : i < n
  · rw [getElem?_eq_getElem hi, getElem_patch, getElem?_eq_getElem hi]
    by_cases same : i = k / 8
    · subst same
      simp [byteAt, getElem?_eq_getElem hi]
    · split
      · rw [List.getElem?_eq_none (by simp; omega), getD_none, getD_some]
      · rfl
  · have other : i ≠ k / 8 := by omega
    rw [if_neg other, Vector.getElem?_eq_none (by omega), Vector.getElem?_eq_none (by omega)]

theorem marked_mark (bm : Vector UInt8 n) (hk : k < n * 8) (j : Nat) :
    marked (mark bm k) j = (marked bm j || decide (j = k)) := by
  unfold marked
  rw [byteAt_mark bm hk]
  split_ifs with same
  · rw [testBit_set _ (by omega)]
    congr 1
    exact decide_eq_decide.mpr (by omega)
  · have : j ≠ k := fun h => same (by rw [h])
    simp [this]

theorem firstFree_some (h : firstFree bm = some k) :
    k < n * 8 ∧ marked bm k = false ∧ ∀ j, j < k → marked bm j = true := by
  unfold firstFree at h
  obtain ⟨before, i, after, split, found, passed⟩ := List.findSome?_eq_some_iff.mp h
  obtain ⟨bit, free, rfl⟩ := map_eq_some_iff.mp found
  obtain ⟨_, clear, lower⟩ := freeBit_some free
  -- the bytes passed over are those before `i`
  have index : ∀ x, x < i → x ∈ before := by
    intro x hx
    have member : i ∈ List.range n := by rw [split]; simp
    have : x ∈ List.range n := List.mem_range.mpr (by have := List.mem_range.mp member; omega)
    rw [split] at this
    rcases List.mem_append.mp this with early | late
    · exact early
    · have sorted : (before ++ i :: after).Pairwise (· < ·) := split ▸ List.pairwise_lt_range
      have tail := (List.pairwise_append.mp sorted).2.1
      rcases List.mem_cons.mp late with same | later
      · omega
      · have := (List.pairwise_cons.mp tail).1 x later
        omega
  have bound : i < n := List.mem_range.mp (by rw [split]; simp)
  have at_bit : (i * 8 + bit) / 8 = i ∧ (i * 8 + bit) % 8 = bit := by omega
  refine ⟨by omega, ?_, fun j hj => ?_⟩
  · rw [marked, at_bit.1, at_bit.2]
    exact clear
  · rw [marked]
    by_cases same : j / 8 = i
    · rw [same]
      exact lower _ (by omega)
    · have none := passed (j / 8) (index _ (by omega))
      exact freeBit_none (map_eq_none_iff.mp none) _ (by omega)

theorem firstFree_none (h : firstFree bm = none) : ∀ k, k < n * 8 → marked bm k = true := by
  intro k hk
  unfold firstFree at h
  have none := List.findSome?_eq_none_iff.mp h (k / 8) (List.mem_range.mpr (by omega))
  exact freeBit_none (map_eq_none_iff.mp none) _ (by omega)

/-- The scan fails exactly when no bit is clear. -/
theorem firstFree_eq_none_iff : firstFree bm = none ↔ freeCount bm = 0 := by
  rw [freeCount, List.countP_eq_zero]
  constructor
  · intro h k hk
    simp [firstFree_none h k (List.mem_range.mp hk)]
  · intro h
    cases found : firstFree bm with
    | none => rfl
    | some k =>
      obtain ⟨bound, clear, -⟩ := firstFree_some found
      exact absurd (by simp [clear]) (h k (List.mem_range.mpr bound))

theorem freeCount_le (bm : Vector UInt8 n) : freeCount bm ≤ n * 8 := by
  unfold freeCount
  exact List.countP_le_length.trans (by rw [List.length_range])

theorem freeCount_mark (hk : k < n * 8) (clear : marked bm k = false) : freeCount (mark bm k) + 1 = freeCount bm := by
  unfold freeCount
  have others : ∀ j, j ≠ k → (!marked (mark bm k) j) = !marked bm j := by
    intro j other
    simp [marked_mark bm hk, other]
  have change := countP_change List.nodup_range (List.mem_range.mpr hk) others
  simpa [marked_mark bm hk, clear] using change

/-- The clear bits in ascending order. -/
def freeList (bm : Vector UInt8 n) : List Nat := (List.range (n * 8)).filter fun k => !marked bm k

theorem freeList_of_full (full : firstFree bm = none) : freeList bm = [] := by
  rw [← List.length_eq_zero_iff, freeList, ← List.countP_eq_length_filter, ← freeCount]
  exact firstFree_eq_none_iff.mp full

/-- The first clear bit comes first, and the others stay when it is set. -/
theorem freeList_of_firstFree (first : firstFree bm = some k) : freeList bm = k :: freeList (mark bm k) := by
  obtain ⟨bound, clear, below⟩ := firstFree_some first
  have split : List.range (n * 8) = List.range k ++ k :: List.range' (k + 1) (n * 8 - (k + 1)) := by
    have joined := @List.range'_append_1 0 k (n * 8 - (k + 1) + 1)
    rw [Nat.zero_add] at joined
    rw [← List.range'_succ, List.range_eq_range', List.range_eq_range', joined]
    congr 1
    omega
  have early : ∀ bm' : Vector UInt8 n, (∀ j, j < k → marked bm' j = true) →
      (List.range k).filter (fun j => !marked bm' j) = [] := by
    intro bm' set
    rw [List.filter_eq_nil_iff]
    intro j member
    simp [set j (List.mem_range.mp member)]
  have set : ∀ j, j < k → marked (mark bm k) j = true := by
    intro j lower
    rw [marked_mark bm bound, below j lower, Bool.true_or]
  have late : ∀ j ∈ List.range' (k + 1) (n * 8 - (k + 1)), (!marked bm j) = !marked (mark bm k) j := by
    intro j member
    have higher := (List.mem_range'_1.mp member).1
    have other : j ≠ k := by omega
    simp [marked_mark bm bound, other]
  rw [freeList, freeList, split, List.filter_append, List.filter_append, early bm below, early _ set, List.nil_append,
    List.nil_append, List.filter_cons_of_pos (by simp [clear]),
    List.filter_cons_of_neg (by simp [marked_mark bm bound]),
    List.filter_congr late]
/-! ## Marking a range -/

/-- Bits `0` to `count - 1` set, one after the other. -/
@[irreducible] def markBelow (bm : Vector UInt8 n) (count : Nat) : Vector UInt8 n := (List.range count).foldl mark bm

theorem markBelow_zero (bm : Vector UInt8 n) : markBelow bm 0 = bm := by
  rw [markBelow, List.range_zero, List.foldl_nil]

theorem markBelow_succ (bm : Vector UInt8 n) (count : Nat) :
    markBelow bm (count + 1) = mark (markBelow bm count) count := by
  rw [markBelow, markBelow, List.range_succ, List.foldl_append, List.foldl_cons, List.foldl_nil]

theorem marked_markBelow (bm : Vector UInt8 n) (k : Nat) : ∀ {count : Nat}, count ≤ n * 8 →
    marked (markBelow bm count) k = (marked bm k || decide (k < count)) := by
  intro count
  induction count with
  | zero => simp [markBelow_zero]
  | succ count ih =>
    intro fits
    rw [markBelow_succ, marked_mark _ (by omega), ih (by omega), Bool.or_assoc, ← Bool.decide_or]
    congr 1
    exact decide_eq_decide.mpr (by omega)

theorem marked_zero (k : Nat) : marked (replicate n (0 : UInt8)) k = false := by
  have zero : byteAt (replicate n (0 : UInt8)) (k / 8) = 0 := by
    rw [byteAt, Vector.getElem?_replicate]
    split <;> rfl
  rw [marked, zero]
  exact Nat.zero_testBit _

/-- With the bits below `count` set and the others clear, the scan finds `count`. -/
theorem firstFree_markBelow {count : Nat} (fits : count < n * 8) :
    firstFree (markBelow (replicate n (0 : UInt8)) count) = some count := by
  have bits : ∀ k, marked (markBelow (replicate n (0 : UInt8)) count) k = decide (k < count) := fun k => by
    rw [marked_markBelow _ _ (by omega), marked_zero, Bool.false_or]
  cases found : firstFree (markBelow (replicate n (0 : UInt8)) count) with
  | none =>
    have full := firstFree_none found count fits
    simp [bits] at full
  | some k =>
    obtain ⟨-, clear, lower⟩ := firstFree_some found
    simp only [bits, decide_eq_false_iff_not, decide_eq_true_eq] at clear lower
    by_cases above : count < k
    · exact absurd (lower count above) (Nat.lt_irrefl _)
    · rw [show k = count by omega]

theorem firstFree_markBelow_full : firstFree (markBelow (replicate n (0 : UInt8)) (n * 8)) = none := by
  cases found : firstFree (markBelow (replicate n (0 : UInt8)) (n * 8)) with
  | none => rfl
  | some k =>
    obtain ⟨small, clear, -⟩ := firstFree_some found
    simp [marked_markBelow, small] at clear

theorem freeCount_markBelow_zero : ∀ {count : Nat}, count ≤ n * 8 →
    freeCount (markBelow (replicate n (0 : UInt8)) count) + count = n * 8 := by
  intro count
  induction count with
  | zero =>
    intro _
    unfold freeCount
    rw [markBelow_zero, List.countP_eq_length.mpr (by simp [marked_zero]), List.length_range]
    rfl
  | succ count ih =>
    intro fits
    have clear : marked (markBelow (replicate n (0 : UInt8)) count) count = false := by
      rw [marked_markBelow _ _ (by omega), marked_zero]
      simp
    have one := freeCount_mark (by omega) clear
    rw [markBelow_succ]
    omega

end HavyOs.Lib
