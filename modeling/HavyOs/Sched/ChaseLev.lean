import Mathlib.Data.Nat.Bitwise
import Mathlib.Data.Nat.ModEq
import Mathlib.Logic.Function.Basic

/-!
# The work-stealing deque

`cpu/chase_lev.rs`: a circular buffer between two indices that only grow, except that the
owner's `pop` takes the bottom one back. Each call is one step here, so the compare and
swap of `steal` and of the last `pop` succeeds. The buffer is allocated by the first `push`
and doubled when it is almost full. `Holds` relates a deque to the list of its elements
from top to bottom: `push` adds at the end, `pop` takes from the end, `steal` from the front.
-/

namespace HavyOs.Sched

open List

def initialCapacity : Nat := 32

/-- `Buffer<T>`; a cell that was not written holds `none`. -/
structure Buffer (α : Type) where
  capacity : Nat
  data : Nat → Option α

inductive StealResult (α : Type) where
  | success (value : α)
  | empty
  | retry

/-- `WorkStealingDeque<T>` when one hart uses it. The indices are of type `isize`; `Reached.bounds` says how far they
get. -/
structure WorkStealingDeque (α : Type) where
  bottom : Int
  top : Int
  buffer : Option (Buffer α)

variable {α : Type}

namespace Buffer

def new (capacity : Nat) : Buffer α := ⟨capacity, fun _ => none⟩

/-- `(index as usize) & (self.capacity - 1)`. -/
def cell (b : Buffer α) (index : Int) : Nat := index.toNat &&& (b.capacity - 1)

def get (b : Buffer α) (index : Int) : Option α := b.data (b.cell index)

def put (b : Buffer α) (index : Int) (value : α) : Buffer α :=
  { b with data := Function.update b.data (b.cell index) (some value) }

/-- The loop of `grow`: `count` elements from `top` on are copied to `target`. -/
def copyTo (b target : Buffer α) (top : Int) : Nat → Buffer α
  | 0 => target
  | count + 1 =>
    let target := b.copyTo target top count
    match b.get (top + count) with
    | some value => target.put (top + count) value
    | none => target

def grow (b : Buffer α) (bottom top : Int) : Buffer α := b.copyTo (new (b.capacity * 2)) top (bottom - top).toNat

end Buffer

namespace WorkStealingDeque

def new : WorkStealingDeque α := ⟨0, 0, none⟩

variable (d : WorkStealingDeque α)

def ensureBuffer : Buffer α := d.buffer.getD (Buffer.new initialCapacity)

/-- The buffer `push` writes to. -/
def roomyBuffer : Buffer α :=
  if d.bottom - d.top ≥ (d.ensureBuffer.capacity : Int) - 1 then d.ensureBuffer.grow d.bottom d.top else d.ensureBuffer

def push (value : α) : WorkStealingDeque α :=
  { d with buffer := some (d.roomyBuffer.put d.bottom value), bottom := d.bottom + 1 }

def pop : Option α × WorkStealingDeque α :=
  let bottom := d.bottom - 1
  if d.top ≤ bottom then
    match d.buffer with
    | none => (none, { d with bottom := d.top })
    | some buffer =>
      if d.top = bottom then (buffer.get bottom, { d with top := d.top + 1, bottom := d.top + 1 })
      else (buffer.get bottom, { d with bottom := bottom })
  else (none, { d with bottom := d.top })

def steal : StealResult α × WorkStealingDeque α :=
  if d.top ≥ d.bottom then (.empty, d)
  else
    match d.buffer with
    | none => (.empty, d)
    | some buffer =>
      match buffer.get d.top with
      | some value => (.success value, { d with top := d.top + 1 })
      | none => (.empty, d)

/-- The elements from top to bottom. -/
def items : List α :=
  (range (d.bottom - d.top).toNat).filterMap fun i : Nat => d.buffer.bind fun b => b.get (d.top + i)

/-- The capacity is a power of two, and the indices `top..top + count` have cells of their own. -/
structure Roomy (b : Buffer α) (count : Nat) : Prop where
  power : ∃ k, b.capacity = 2 ^ k
  room : count ≤ b.capacity

/-- `d` holds the elements `l`, from top to bottom. -/
structure Holds (d : WorkStealingDeque α) (l : List α) : Prop where
  nonneg : 0 ≤ d.top
  bottom : d.bottom = d.top + l.length
  empty : d.buffer = none → l = []
  roomy : ∀ b, d.buffer = some b → Roomy b (l.length + 1)
  cells : ∀ b, d.buffer = some b → ∀ i, i < l.length → b.get (d.top + i) = l[i]?

/-! ## Cells -/

variable {b : Buffer α} {count : Nat} {top : Int} {value : α} {d : WorkStealingDeque α} {l : List α}

theorem Roomy.cell_eq (h : Roomy b count) (index : Int) : b.cell index = index.toNat % b.capacity := by
  obtain ⟨k, power⟩ := h.power
  rw [Buffer.cell, power, Nat.and_two_pow_sub_one_eq_mod]

theorem Roomy.cell_ne (h : Roomy b count) (nonneg : 0 ≤ top) {i j : Nat}
    (hi : i < count) (hj : j < count) (different : i ≠ j) : b.cell (top + i) ≠ b.cell (top + j) := by
  have room := h.room
  rw [h.cell_eq, h.cell_eq]
  intro same
  have sum : ∀ k : Nat, (top + k).toNat = top.toNat + k := by omega
  rw [sum, sum] at same
  apply different
  have congruent : Nat.ModEq b.capacity i j := Nat.ModEq.add_left_cancel' top.toNat same
  exact congruent.eq_of_lt_of_lt (by omega) (by omega)

theorem get_put_self (b : Buffer α) (index : Int) (value : α) : (b.put index value).get index = some value := by
  simp [Buffer.get, Buffer.put, Buffer.cell]

theorem get_put_other (b : Buffer α) {index other : Int} (value : α) (different : b.cell other ≠ b.cell index) :
    (b.put index value).get other = b.get other := by
  exact Function.update_of_ne different _ _

theorem Roomy.put (h : Roomy b count) (index : Int) (value : α) : Roomy (b.put index value) count :=
  ⟨h.power, h.room⟩

theorem copyTo_capacity (b target : Buffer α) (top : Int) (count : Nat) :
    (b.copyTo target top count).capacity = target.capacity := by
  induction count with
  | zero => rfl
  | succ count ih =>
    rw [Buffer.copyTo]
    split
    · exact ih
    · exact ih

theorem Roomy.copyTo {target : Buffer α} {size : Nat} (roomy : Roomy target size) (b : Buffer α) (top : Int)
    (count : Nat) :
    Roomy (b.copyTo target top count) size := by
  constructor
  · rw [copyTo_capacity]
    exact roomy.power
  · rw [copyTo_capacity]
    exact roomy.room

theorem copyTo_get {target : Buffer α} (nonneg : 0 ≤ top) {size : Nat} (roomy : Roomy target size)
    {i : Nat} (found : b.get (top + i) = some value) :
    ∀ count, count ≤ size → i < count → (b.copyTo target top count).get (top + i) = some value := by
  intro count
  induction count with
  | zero => exact fun _ small => absurd small (Nat.not_lt_zero i)
  | succ count ih =>
    intro fits passed
    rw [Buffer.copyTo]
    by_cases last : i = count
    · rw [← last, found]
      exact get_put_self _ _ _
    · have before := ih (by omega) (by omega)
      split
      · rw [get_put_other _ _ ((roomy.copyTo b top count).cell_ne nonneg (by omega) (by omega) last)]
        exact before
      · exact before

theorem Roomy.doubled (roomy : Roomy b count) : Roomy (Buffer.new (b.capacity * 2) : Buffer α) (count * 2) := by
  obtain ⟨k, power⟩ := roomy.power
  refine ⟨⟨k + 1, ?_⟩, Nat.mul_le_mul_right 2 roomy.room⟩
  rw [Buffer.new, power, Nat.pow_succ]

/-- The grown buffer has the elements between the indices, and room for twice as many. -/
theorem grow_get {bottom : Int} (nonneg : 0 ≤ top) (roomy : Roomy b count)
    (fits : bottom - top ≤ count * 2) {index : Int} (above : top ≤ index) (below : index < bottom)
    (found : b.get index = some value) : (b.grow bottom top).get index = some value := by
  have split : index = top + (index - top).toNat := by omega
  rw [split] at found ⊢
  exact copyTo_get nonneg roomy.doubled found _ (by omega) (by omega)

theorem Roomy.grow (roomy : Roomy b count) (bottom top : Int) :
    Roomy (b.grow bottom top) (count * 2) := roomy.doubled.copyTo b top _

/-- The buffer `push` writes to holds what the deque holds, with room for one more and a spare cell. -/
theorem Holds.roomyBuffer (h : Holds d l) :
    Roomy d.roomyBuffer (l.length + 2) ∧ ∀ i, i < l.length → d.roomyBuffer.get (d.top + i) = l[i]? := by
  have size : d.bottom - d.top = l.length := by rw [h.bottom]; omega
  obtain ⟨roomy, cells⟩ : Roomy d.ensureBuffer (l.length + 1) ∧
      ∀ i, i < l.length → d.ensureBuffer.get (d.top + i) = l[i]? := by
    unfold ensureBuffer
    cases buffer : d.buffer with
    | none =>
      rw [h.empty buffer]
      exact ⟨⟨⟨5, rfl⟩, (by decide : 1 ≤ initialCapacity)⟩, fun i small => absurd small (Nat.not_lt_zero i)⟩
    | some b => exact ⟨h.roomy _ buffer, h.cells _ buffer⟩
  unfold WorkStealingDeque.roomyBuffer
  split
  · have grown := roomy.grow d.bottom d.top
    refine ⟨⟨grown.power, by have := grown.room; omega⟩, fun i inside => ?_⟩
    have found := cells i inside
    rw [getElem?_eq_getElem inside] at found ⊢
    exact grow_get h.nonneg roomy (by omega) (by omega) (by omega) found
  · exact ⟨⟨roomy.power, by omega⟩, cells⟩

/-! ## The operations on the list of elements -/

theorem new_holds : Holds (new : WorkStealingDeque α) [] :=
  ⟨Int.le_refl 0, rfl, fun _ => rfl, nofun, nofun⟩

theorem items_eq (h : Holds d l) : d.items = l := by
  have size : (d.bottom - d.top).toNat = l.length := by rw [h.bottom]; omega
  rw [items, size]
  cases buffer : d.buffer with
  | none =>
    rw [h.empty buffer]
    rfl
  | some b =>
    have cells : ∀ count, count ≤ l.length →
        (range count).filterMap (fun i : Nat => b.get (d.top + i)) = l.take count := by
      intro count
      induction count with
      | zero => exact fun _ => (take_zero).symm
      | succ count ih =>
        intro fits
        rw [range_succ, filterMap_append, ih (by omega), take_add_one, filterMap_cons,
          h.cells _ buffer count (by omega)]
        rfl
    simp only [Option.bind_some]
    rw [cells l.length (Nat.le_refl _), take_length]

theorem push_holds (h : Holds d l) (value : α) : Holds (d.push value) (l ++ [value]) := by
  obtain ⟨roomy, cells⟩ := h.roomyBuffer
  refine ⟨h.nonneg, ?_, nofun, fun b found => ?_, fun b found i small => ?_⟩
  · change d.bottom + 1 = d.top + (l ++ [value]).length
    rw [h.bottom, length_append, length_singleton]
    omega
  · cases found
    rw [length_append]
    exact roomy.put _ _
  · cases found
    rw [length_append, length_singleton] at small
    simp only [push, h.bottom]
    by_cases last : i = l.length
    · rw [last, get_put_self, getElem?_append_right (Nat.le_refl _), Nat.sub_self]
      rfl
    · rw [get_put_other _ _ (roomy.cell_ne h.nonneg (by omega) (by omega) last), cells i (by omega),
        getElem?_append_left (by omega)]

theorem pop_holds (h : Holds d l) : d.pop.1 = l.getLast? ∧ Holds d.pop.2 l.dropLast := by
  have bottom := h.bottom
  by_cases empty : l = []
  · subst empty
    rw [length_nil] at bottom
    have none : d.pop = (none, { d with bottom := d.top }) := by
      rw [pop, if_neg (by omega)]
    rw [none]
    exact ⟨rfl, h.nonneg, (Int.add_zero _).symm, fun _ => rfl, h.roomy, h.cells⟩
  · have positive := length_pos_iff.mpr empty
    have length : l.dropLast.length = l.length - 1 := length_dropLast
    obtain ⟨b, buffer⟩ : ∃ b, d.buffer = some b := by
      cases buffer : d.buffer with
      | none => exact absurd (h.empty buffer) empty
      | some b => exact ⟨b, rfl⟩
    have roomy := h.roomy _ buffer
    have last : b.get (d.bottom - 1) = l.getLast? := by
      rw [getLast?_eq_getElem?, ← h.cells _ buffer (l.length - 1) (by omega)]
      congr 1
      omega
    have older : ∀ b', d.buffer = some b' → Roomy b' (l.dropLast.length + 1) := by
      intro b' found
      cases found.symm.trans buffer
      exact ⟨roomy.power, by have := roomy.room; omega⟩
    by_cases one : d.top = d.bottom - 1
    · have ran : d.pop = (b.get (d.bottom - 1), { d with top := d.top + 1, bottom := d.top + 1 }) := by
        simp only [pop, buffer]
        rw [if_pos (by omega), if_pos one]
      have single : l.dropLast = [] := length_eq_zero_iff.mp (by omega)
      rw [ran, single]
      rw [single] at older
      exact ⟨last, Int.le_trans h.nonneg (Int.le_add_one (Int.le_refl _)), (Int.add_zero _).symm, fun _ => rfl, older,
        fun _ _ i small => absurd small (Nat.not_lt_zero i)⟩
    · have ran : d.pop = (b.get (d.bottom - 1), { d with bottom := d.bottom - 1 }) := by
        simp only [pop, buffer]
        rw [if_pos (by omega), if_neg one]
      rw [ran]
      refine ⟨last, h.nonneg, ?_, fun none => (nomatch buffer.symm.trans none), older, fun _ found i small => ?_⟩
      · change d.bottom - 1 = d.top + l.dropLast.length
        omega
      · rw [h.cells _ found i (by omega), getElem?_dropLast, if_pos (by omega)]

theorem steal_holds {rest : List α} (h : Holds d (value :: rest)) :
    ∃ d', d.steal = (.success value, d') ∧ Holds d' rest := by
  have bottom := h.bottom
  rw [length_cons] at bottom
  obtain ⟨b, buffer⟩ : ∃ b, d.buffer = some b := by
    cases buffer : d.buffer with
    | none => exact absurd (h.empty buffer) (by simp)
    | some b => exact ⟨b, rfl⟩
  have first : b.get d.top = some value := by
    have cell := h.cells _ buffer 0 (by simp)
    rwa [Int.natCast_zero, Int.add_zero] at cell
  refine ⟨{ d with top := d.top + 1 }, ?_, ?_⟩
  · rw [steal, if_neg (by omega), buffer]
    simp [first]
  · refine ⟨Int.le_trans h.nonneg (Int.le_add_one (Int.le_refl _)), ?_, fun none => (nomatch buffer.symm.trans none),
      fun _ found => ?_,
      fun _ found i small => ?_⟩
    · change d.bottom = d.top + 1 + rest.length
      omega
    · have roomy := h.roomy _ found
      exact ⟨roomy.power, by have := roomy.room; simp only [length_cons] at this; omega⟩
    · have cell := h.cells _ found (i + 1) (by simp; omega)
      rw [getElem?_cons_succ] at cell
      rw [← cell]
      congr 1
      push_cast
      omega

theorem steal_empty (h : Holds d []) : d.steal = (.empty, d) := by
  have bottom := h.bottom
  rw [length_nil] at bottom
  rw [steal, if_pos (by omega)]

/-- What calls on a new deque lead to, with the number of elements they push. -/
inductive Reached : Nat → WorkStealingDeque α → Prop where
  | new : Reached 0 new
  | push {n : Nat} {d : WorkStealingDeque α} (before : Reached n d) (value : α) : Reached (n + 1) (d.push value)
  | pop {n : Nat} {d : WorkStealingDeque α} (before : Reached n d) : Reached n d.pop.2
  | steal {n : Nat} {d : WorkStealingDeque α} (before : Reached n d) : Reached n d.steal.2

/-- The indices do not leave the range of `isize` before `2 ^ 63` elements were pushed. -/
theorem Reached.bounds {n : Nat} (reached : Reached n d) : 0 ≤ d.top ∧ d.top ≤ d.bottom ∧ d.bottom ≤ n := by
  induction reached with
  | new => exact ⟨Int.le_refl 0, Int.le_refl 0, Int.le_refl 0⟩
  | push before value ih =>
    simp only [WorkStealingDeque.push]
    omega
  | pop before ih =>
    rw [WorkStealingDeque.pop]
    grind
  | steal before ih =>
    rw [WorkStealingDeque.steal]
    grind

end WorkStealingDeque

end HavyOs.Sched
