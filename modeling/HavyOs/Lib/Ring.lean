import Mathlib.Data.ZMod.Defs

/-!
# Ring buffers

The elements of a queue in an array, from a read position on and round its end, with the write
position and their number kept beside it.
-/

namespace HavyOs.Lib

open Function List Fin.CommRing

structure Ring (α : Type) (n : Nat) where
  data : Fin n → α
  readPos : Fin n
  writePos : Fin n
  count : Nat

namespace Ring

variable {α : Type} {n : Nat} [NeZero n] (r : Ring α n) {q : List α}

def push (a : α) : Ring α n := ⟨update r.data r.writePos a, r.readPos, r.writePos + 1, r.count + 1⟩

/-- `pop` so many times, with what comes out. -/
def popMany : Nat → Ring α n → List α × Ring α n
  | 0, r => ([], r)
  | k + 1, r =>
    let rest := popMany k ⟨r.data, r.readPos + 1, r.writePos, r.count - 1⟩
    (r.data r.readPos :: rest.1, rest.2)

/-- The ring stands for the queue `q`. -/
structure Holds (q : List α) : Prop where
  fits : q.length ≤ n
  count : r.count = q.length
  writePos : r.writePos = r.readPos + q.length
  cells : ∀ i, (small : i < q.length) → r.data (r.readPos + i) = q[i]

namespace Holds

variable {r}

theorem push (h : r.Holds q) (room : q.length < n) (a : α) : (r.push a).Holds (q ++ [a]) where
  fits := by simp; omega
  count := by simp [Ring.push, h.count]
  writePos := by simp [Ring.push, h.writePos, add_assoc]
  cells i small := by
    have writePos := h.writePos
    by_cases last : i = q.length
    · subst last
      simp [Ring.push, ← writePos]
    · rw [length_append, length_singleton] at small
      -- the cell behind the queue is none of its cells
      have apart : r.readPos + i ≠ r.writePos := by
        rw [writePos, ne_eq, add_right_inj, Fin.ext_iff, Fin.val_natCast, Fin.val_natCast, Nat.mod_eq_of_lt room,
          Nat.mod_eq_of_lt (by omega)]
        exact last
      rw [getElem_append_left (by omega), ← h.cells i (by omega)]
      exact update_of_ne apart ..

theorem pushAll (h : r.Holds q) (as : List α) (room : q.length + as.length ≤ n) :
    (as.foldl Ring.push r).Holds (q ++ as) := by
  induction as generalizing r q with
  | nil => rwa [append_nil]
  | cons a as ih =>
    rw [length_cons] at room
    have all := ih (h.push (by omega) a) (by simp; omega)
    rwa [append_assoc] at all

theorem popMany {k : Nat} (h : r.Holds q) (enough : k ≤ q.length) :
    (Ring.popMany k r).1 = q.take k ∧ (Ring.popMany k r).2.Holds (q.drop k) := by
  induction k generalizing r q with
  | zero => exact ⟨rfl, h⟩
  | succ k ih =>
    cases q with
    | nil => cases enough
    | cons a q =>
      have fits := h.fits
      have rest : Holds ⟨r.data, r.readPos + 1, r.writePos, r.count - 1⟩ q := by
        refine ⟨by simp at fits; omega, by simp [h.count], ?_, fun i small => ?_⟩
        · simp [h.writePos, add_left_comm, add_comm]
        · rw [← getElem_cons_succ a q i (by simpa using small), ← h.cells (i + 1)]
          simp [add_left_comm, add_comm]
      obtain ⟨same, held⟩ := ih rest (by simpa using enough)
      have first := h.cells 0 (by simp)
      simp at first
      exact ⟨by rw [Ring.popMany, same, first]; rfl, held⟩

end Holds

end Ring

end HavyOs.Lib
