import HavyOs.Lib.Ranked
import HavyOs.Sched.Process

/-!
# The discipline of the run queue

Any sequence of calls to a `RunQueue`, while the states of the processes change. An entry carries a
ticket, the number of the call that enqueued it, and the functions of the queue move it about with
its ticket, which they do not read. A process may be queued several times.
-/

namespace HavyOs.Sched

open Lib RunQueue List

/-- The calls to a `RunQueue`. -/
inductive QueueOp (ρ : Type) where
  | enqueue (process : ρ)
  | dequeue
  | remove (pid : Pid)
  | steal
deriving DecidableEq, Repr

variable {ρ σ : Type}

def QueueOp.map (f : ρ → σ) : QueueOp ρ → QueueOp σ
  | .enqueue r => .enqueue (f r)
  | .dequeue => .dequeue
  | .remove pid => .remove pid
  | .steal => .steal

/-- What a call returns, and the queue after it. -/
def RunQueue.call (proc : ρ → Process) (q : RunQueue ρ) : QueueOp ρ → Option ρ × RunQueue ρ
  | .enqueue r => (none, q.enqueue proc r)
  | .dequeue => q.dequeue proc
  | .remove pid => q.remove proc pid
  | .steal => q.steal

/-- The processes in the states that they have at the time of a call; pid and priority do not change. -/
def atStates (proc : Ref → Process) (states : Ref → ProcessState) (r : Ref) : Process :=
  { proc r with state := states r }

/-- The queue after the calls, each with the states at its time. -/
def RunQueue.run (proc : Ref → Process) (calls : List (QueueOp Ref × (Ref → ProcessState))) : RunQueue :=
  calls.foldl (fun q call => (q.call (atStates proc call.2) call.1).2) []

/-- A run queue whose entries carry tickets, and the number of calls so far. -/
structure Ticketed where
  queue : RunQueue (Ref × Nat)
  calls : Nat

variable (proc : Ref → Process)

/-- The process of an entry with a ticket. -/
def ofEntry (entry : Ref × Nat) : Process := proc entry.1

namespace Ticketed

variable (t : Ticketed)

/-- A call, which puts its number on the entry that it enqueues. -/
def call (op : QueueOp Ref) : Option (Ref × Nat) × RunQueue (Ref × Nat) :=
  t.queue.call (ofEntry proc) (op.map fun r => (r, t.calls))

def exec (op : QueueOp Ref) : Ticketed := ⟨(t.call proc op).2, t.calls + 1⟩

def run (calls : List (QueueOp Ref × (Ref → ProcessState))) : Ticketed :=
  calls.foldl (fun t call => t.exec (atStates proc call.2) call.1) ⟨[], 0⟩

/-- One entry is of higher priority than another, or as high and enqueued first. -/
def Before (entry other : Ref × Nat) : Prop :=
  Ranked (fun entry => (ofEntry proc entry).priority.rank) Prod.snd entry other

/-- Higher priorities first, and the order of the tickets among equal ones. -/
def Ordered : Prop := t.queue.Pairwise (Before proc)

/-- What each call returns and leaves, with the processes as they are at its time. -/
structure Obeys : Prop where
  /-- The code's queue has no tickets; its calls do the same on the references alone. -/
  untold : ∀ op, ((t.call proc op).1.map Prod.fst, (t.call proc op).2.map Prod.fst) =
    RunQueue.call proc (t.queue.map Prod.fst) op
  enqueue : ∀ r, (t.call proc (.enqueue r)).2.Perm ((r, t.calls) :: t.queue)
  dequeue : ∀ entry rest, t.call proc .dequeue = (some entry, rest) →
    t.queue.Perm (entry :: rest) ∧ (ofEntry proc entry).state.isRunnable = true ∧
      ∀ other ∈ rest, (ofEntry proc other).state.isRunnable = true → Before proc entry other
  dequeueNone : (t.call proc .dequeue).1 = none ↔ ∀ entry ∈ t.queue, (ofEntry proc entry).state.isRunnable = false
  remove : ∀ pid entry rest, t.call proc (.remove pid) = (some entry, rest) →
    (ofEntry proc entry).pid = pid ∧ t.queue.Perm (entry :: rest)
  steal : ∀ entry rest, t.call proc .steal = (some entry, rest) → 1 < t.queue.length ∧ t.queue = rest ++ [entry]
  /-- A call that returns nothing and enqueues nothing changes nothing. -/
  keeps : ∀ op, (∀ r, op ≠ .enqueue r) → (t.call proc op).1 = none → (t.call proc op).2 = t.queue

end Ticketed

/-! ## Calls and tickets -/

section Calls

variable {f : ρ → σ} {p : ρ → Process} {g : σ → Process} {q : RunQueue ρ}

theorem takeFirst_map {test : ρ → Bool} {other : σ → Bool} (same : ∀ r, other (f r) = test r) :
    takeFirst (q.map f) other = Prod.map (Option.map f) (List.map f) (q.takeFirst test) := by
  rw [takeFirst_eq, takeFirst_eq, find?_map, eraseP_map, show other ∘ f = test from funext same]
  rfl

/-- The calls read the processes of the entries only. -/
theorem call_map (same : ∀ r, g (f r) = p r) (op : QueueOp ρ) :
    RunQueue.call g (q.map f) (op.map f) = Prod.map (Option.map f) (List.map f) (RunQueue.call p q op) := by
  cases op with
  | enqueue r =>
    have position : (fun other => decide ((g other).priority.rank < (g (f r)).priority.rank)) ∘ f =
        fun other => decide ((p other).priority.rank < (p r).priority.rank) :=
      funext fun other => by rw [Function.comp_apply, same, same]
    simp only [QueueOp.map, call, enqueue, findIdx_map, position, Prod.map, map_insertIdx]
    rfl
  | dequeue => exact takeFirst_map fun r => by rw [same]
  | remove pid => exact takeFirst_map fun r => by rw [same]
  | steal =>
    simp only [QueueOp.map, call, steal, length_map]
    split_ifs with several
    · simp [Prod.map, map_dropLast]
    · rfl

theorem takeFirst_keeps {test : ρ → Bool} (none : (q.takeFirst test).1 = none) : (q.takeFirst test).2 = q := by
  rw [takeFirst_eq] at none ⊢
  exact eraseP_of_forall_not (find?_eq_none.mp none)

end Calls

/-! ## One call -/

section Call

variable {proc : Ref → Process} {t : Ticketed}

/-- The entries are in order, and have the numbers of earlier calls. -/
structure Ticketed.Valid (proc : Ref → Process) (t : Ticketed) : Prop where
  sorted : t.Ordered proc
  issued : ∀ entry ∈ t.queue, entry.2 < t.calls

/-- Entries may leave. -/
theorem Ticketed.Valid.thin (valid : t.Valid proc) {rest : RunQueue (Ref × Nat)} (part : rest.Sublist t.queue) :
    Ticketed.Valid proc ⟨rest, t.calls + 1⟩ where
  sorted := valid.sorted.sublist part
  issued entry member := (valid.issued entry (part.subset member)).trans (Nat.lt_succ_self _)

theorem takeFirst_sublist (q : RunQueue ρ) (test : ρ → Bool) : (q.takeFirst test).2.Sublist q := by
  rw [takeFirst_eq]
  exact eraseP_sublist

theorem Ticketed.Valid.exec (valid : t.Valid proc) (op : QueueOp Ref) : Ticketed.Valid proc (t.exec proc op) := by
  cases op with
  | enqueue r =>
    refine ⟨?_, ?_⟩
    · exact ranked_insert valid.sorted (x := (r, t.calls)) valid.issued
    · intro entry member
      obtain rfl | old := mem_cons.mp ((enqueue_perm _ _ _).mem_iff.mp member)
      · exact Nat.lt_succ_self _
      · exact (valid.issued entry old).trans (Nat.lt_succ_self _)
  | dequeue => exact valid.thin (takeFirst_sublist ..)
  | remove pid => exact valid.thin (takeFirst_sublist ..)
  | steal =>
    refine valid.thin ?_
    change t.queue.steal.2.Sublist t.queue
    rw [steal]
    split_ifs
    · exact dropLast_sublist _
    · exact .refl _

theorem Ticketed.valid_run (proc : Ref → Process) (calls : List (QueueOp Ref × (Ref → ProcessState))) :
    (Ticketed.run proc calls).Valid proc := by
  have start : Ticketed.Valid proc ⟨[], 0⟩ := ⟨.nil, nofun⟩
  rw [run]
  generalize (⟨[], 0⟩ : Ticketed) = t at start
  induction calls generalizing t with
  | nil => exact start
  | cons call calls ih =>
    -- the order and the tickets do not depend on the states
    have now : Ticketed.Valid (atStates proc call.2) t := ⟨start.sorted, start.issued⟩
    have valid := now.exec call.1
    exact ih _ ⟨valid.sorted, valid.issued⟩

theorem Ticketed.untold (proc : Ref → Process) (t : Ticketed) (op : QueueOp Ref) :
    ((t.call proc op).1.map Prod.fst, (t.call proc op).2.map Prod.fst) =
      RunQueue.call proc (t.queue.map Prod.fst) op := by
  have plain : (op.map fun r => (r, t.calls)).map Prod.fst = op := by cases op <;> rfl
  have same := call_map (g := proc) (p := ofEntry proc) (f := Prod.fst) (q := t.queue) (fun _ => rfl)
    (op.map fun r => (r, t.calls))
  rw [plain] at same
  exact same.symm

theorem Ticketed.run_untold (calls : List (QueueOp Ref × (Ref → ProcessState))) :
    (Ticketed.run proc calls).queue.map Prod.fst = RunQueue.run proc calls := by
  rw [run, RunQueue.run, show ([] : RunQueue) = (⟨[], 0⟩ : Ticketed).queue.map Prod.fst from rfl]
  generalize (⟨[], 0⟩ : Ticketed) = t
  induction calls generalizing t with
  | nil => rfl
  | cons call calls ih =>
    have step := congrArg Prod.snd (t.untold (atStates proc call.2) call.1)
    rw [foldl_cons, foldl_cons, ih, ← step]
    rfl

theorem Ticketed.Valid.obeys (valid : t.Valid proc) : t.Obeys proc where
  untold := t.untold proc
  enqueue r := enqueue_perm ..
  dequeue entry rest taken := by
    obtain ⟨found, rfl⟩ := Prod.mk.inj ((takeFirst_eq ..).symm.trans taken)
    have runnable := find?_some found
    exact ⟨perm_of_find? found, runnable, fun _ other ready => ranked_first valid.sorted found other ready⟩
  dequeueNone := by
    have first := congrArg Prod.fst (takeFirst_eq t.queue fun entry => (ofEntry proc entry).state.isRunnable)
    rw [show (t.call proc .dequeue).1 = _ from first, find?_eq_none]
    simp
  remove pid entry rest taken := by
    obtain ⟨found, rfl⟩ := Prod.mk.inj ((takeFirst_eq ..).symm.trans taken)
    exact ⟨by simpa using find?_some found, perm_of_find? found⟩
  steal entry rest taken := by
    change t.queue.steal = _ at taken
    rw [steal] at taken
    split_ifs at taken with several
    · obtain ⟨last, rfl⟩ := Prod.mk.inj taken
      exact ⟨several, (dropLast_append_getLast? entry last).symm⟩
    · cases (Prod.mk.inj taken).1
  keeps op other none := by
    cases op with
    | enqueue r => exact absurd rfl (other r)
    | dequeue => exact takeFirst_keeps none
    | remove pid => exact takeFirst_keeps none
    | steal =>
      change t.queue.steal.1 = _ at none
      change t.queue.steal.2 = _
      rw [steal] at none ⊢
      split_ifs at none with several
      · rw [getLast?_eq_none_iff.mp none] at several
        cases several
      · rw [if_neg several]

end Call

/-- After any calls the queue is in order, and the next call, whatever states the processes are in by then, obeys the
discipline. -/
theorem run_queue_discipline (proc : Ref → Process) (calls : List (QueueOp Ref × (Ref → ProcessState))) :
    (Ticketed.run proc calls).queue.map Prod.fst = RunQueue.run proc calls ∧ (Ticketed.run proc calls).Ordered proc ∧
      ∀ states, (Ticketed.run proc calls).Obeys (atStates proc states) := by
  have valid := Ticketed.valid_run proc calls
  refine ⟨Ticketed.run_untold calls, valid.sorted, fun states => ?_⟩
  have now : Ticketed.Valid (atStates proc states) (Ticketed.run proc calls) := ⟨valid.sorted, valid.issued⟩
  exact now.obeys

end HavyOs.Sched
