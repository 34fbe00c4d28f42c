import Mathlib.Data.List.Perm.Subperm

/-!
# The books of a double-ended queue

What a queue is for that one party fills and empties at its back and others empty at its front:
every element that was pushed is either still in the queue or was taken exactly once, and those
taken at the front left in the order in which they came. A `Ledger` carries the two facts, so
that only balanced books can be written; each operation is the change it makes to them.
-/

namespace HavyOs.Lib

open List

universe u

theorem head?_append_tail {α : Type u} (queue : List α) : queue.head?.toList ++ queue.tail = queue := by
  cases queue with
  | nil => rfl
  | cons x rest => rfl

theorem dropLast_append_last {α : Type u} (queue : List α) : queue.dropLast ++ queue.getLast?.toList = queue := by
  cases last : queue.getLast? with
  | none =>
    rw [getLast?_eq_none_iff.mp last]
    rfl
  | some x => exact dropLast_append_getLast? x last

/-- The queue, and what was pushed, popped at the back and stolen at the front so far. -/
structure Ledger (α : Type u) where
  pushed : List α
  popped : List α
  stolen : List α
  queue : List α
  order : stolen ++ queue <+ pushed
  balance : stolen ++ queue ++ popped ~ pushed

namespace Ledger

variable {α : Type u} (l : Ledger α)

def new : Ledger α := ⟨[], [], [], [], .slnil, .nil⟩

/-- An element comes at the back. -/
def push (x : α) : Ledger α where
  pushed := l.pushed ++ [x]
  popped := l.popped
  stolen := l.stolen
  queue := l.queue ++ [x]
  order := by
    rw [← append_assoc]
    exact l.order.append (.refl _)
  balance := by
    calc l.stolen ++ (l.queue ++ [x]) ++ l.popped
      _ = l.stolen ++ l.queue ++ ([x] ++ l.popped) := by simp
      _ ~ l.stolen ++ l.queue ++ (l.popped ++ [x]) := perm_append_comm.append_left _
      _ = l.stolen ++ l.queue ++ l.popped ++ [x] := by simp
      _ ~ l.pushed ++ [x] := l.balance.append_right _

/-- The element at the back goes, if there is one. -/
def pop : Ledger α where
  pushed := l.pushed
  popped := l.popped ++ l.queue.getLast?.toList
  stolen := l.stolen
  queue := l.queue.dropLast
  order := ((dropLast_sublist l.queue).append_left l.stolen).trans l.order
  balance := by
    calc l.stolen ++ l.queue.dropLast ++ (l.popped ++ l.queue.getLast?.toList)
      _ ~ l.stolen ++ l.queue.dropLast ++ (l.queue.getLast?.toList ++ l.popped) := perm_append_comm.append_left _
      _ = l.stolen ++ (l.queue.dropLast ++ l.queue.getLast?.toList) ++ l.popped := by simp
      _ = l.stolen ++ l.queue ++ l.popped := by rw [dropLast_append_last]
      _ ~ l.pushed := l.balance

/-- The element at the front goes, if there is one. -/
def steal : Ledger α where
  pushed := l.pushed
  popped := l.popped
  stolen := l.stolen ++ l.queue.head?.toList
  queue := l.queue.tail
  order := by
    rw [append_assoc, head?_append_tail]
    exact l.order
  balance := by
    rw [append_assoc l.stolen, head?_append_tail]
    exact l.balance

/-- Every element was taken at most once, and nothing else. -/
theorem taken : l.popped ++ l.stolen <+~ l.pushed := by
  have all : l.popped ++ l.stolen <+~ l.stolen ++ l.queue ++ l.popped :=
    perm_append_comm.subperm.trans ((sublist_append_left l.stolen l.queue).append_right l.popped).subperm
  exact all.trans l.balance.subperm

/-- What was taken and what is left is what was pushed. -/
theorem rest : l.popped ++ l.stolen ++ l.queue ~ l.pushed := by
  rw [append_assoc]
  exact perm_append_comm.trans l.balance

end Ledger

end HavyOs.Lib
