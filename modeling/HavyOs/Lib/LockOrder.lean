import Mathlib.Data.List.Basic
import Mathlib.Logic.Relation

/-!
# Locks taken in an order

What a thread does to locks is a tree: it acquires a lock, in some way, and goes on in one of
two branches, or it gives a lock back. A tree is ordered when every acquisition that may wait
is of a lock above all that are held. Threads with ordered trees do not wait in a cycle,
because the lock that is waited for rises along the chain of those who wait for one another.
-/

namespace HavyOs.Lib

/-- The locks a thread acquires, in which way, and gives back. -/
inductive LockProgram (L A : Type) where
  | done
  | acquire (how : A) (lock : L) (taken refused : LockProgram L A)
  | release (lock : L) (rest : LockProgram L A)

section Order

variable {L A : Type} [DecidableEq L]

/-- With the locks in `held`, only locks above all held ones are waited for. -/
def LockProgram.Ordered (rank : L → Nat) (waits : A → Prop) : List L → LockProgram L A → Prop
  | _, .done => True
  | held, .acquire how lock taken refused =>
    (waits how → ∀ other ∈ held, rank other < rank lock) ∧ taken.Ordered rank waits (lock :: held) ∧
      refused.Ordered rank waits held
  | held, .release lock rest => rest.Ordered rank waits (held.erase lock)

end Order

/-- A relation whose chains rise has no cycle. -/
theorem acyclic_of_rank {α : Type} {r : α → α → Prop} (rank : α → Nat)
    (rises : ∀ a b c, r a b → r b c → rank a < rank b)
    (a : α) : ¬ Relation.TransGen r a a := by
  have above : ∀ b, Relation.TransGen r a b → ∀ c, r b c → rank a < rank b := by
    intro b chain
    induction chain with
    | single first => exact fun c next => rises _ _ c first next
    | tail _ last ih => exact fun c next => Nat.lt_trans (ih _ last) (rises _ _ c last next)
  intro cycle
  obtain ⟨c, first, -⟩ := Relation.TransGen.head'_iff.mp cycle
  exact Nat.lt_irrefl _ (above a cycle c first)

end HavyOs.Lib
