import Mathlib.Algebra.Group.Nat.Defs
import Mathlib.Data.List.Perm.Basic
import Mathlib.Logic.Function.Basic

/-!
# Processes and run queues

`cpu/process.rs` and the `RunQueue` of `cpu/sched.rs`. An `Arc<Process>` is shared by the
process table, a run queue, a steal deque and the hart that runs the process, and part of a
process changes behind it. A reference is therefore the number of the process in order of
creation, and the record is kept in one place. Contexts, kernel stacks and statistics, which
no scheduling decision reads, are left out.
-/

namespace HavyOs.Sched

open List

abbrev Pid := UInt32

/-- An `Arc<Process>`: the number of the process in order of creation. -/
abbrev Ref := Nat

/-- `usize::MAX`, the CPU affinity of a process that can run on any CPU. -/
def usizeMax : Nat := 2 ^ 64 - 1

inductive ProcessState where
  | created
  | ready
  | running
  | blocked
  | stopped
  | zombie
deriving DecidableEq, Repr

def ProcessState.isRunnable : ProcessState → Bool
  | .ready => true
  | _ => false

inductive Priority where
  | idle
  | low
  | normal
  | high
  | realtime
deriving DecidableEq, Repr

/-- The discriminant, by which the derived order compares. -/
def Priority.rank : Priority → Nat
  | .idle => 0
  | .low => 1
  | .normal => 2
  | .high => 3
  | .realtime => 4

/-- The flags of `ProcessFlags` that the scheduler reads. -/
structure ProcessFlags where
  daemon : Bool
  restartOnExit : Bool
deriving DecidableEq, Repr

/-- `Process`; `entry` is the address of the entry point. -/
structure Process where
  pid : Pid
  name : String
  state : ProcessState
  priority : Priority
  cpuAffinity : Nat
  currentCpu : Nat
  entry : Nat
  flags : ProcessFlags
  exitCode : Nat
deriving DecidableEq, Repr

variable (p : Process)

namespace Process

def new (pid : Pid) (name : String) (entry : Nat) : Process where
  pid := pid
  name := name
  state := .created
  priority := .normal
  cpuAffinity := usizeMax
  currentCpu := usizeMax
  entry := entry
  flags := ⟨false, false⟩
  exitCode := 0

def newDaemon (pid : Pid) (name : String) (entry : Nat) : Process :=
  { new pid name entry with flags := ⟨true, true⟩, priority := .normal }

def markReady : Process := { p with state := .ready }

variable (cpu : Nat)

def markRunning (p : Process) : Process := { p with currentCpu := cpu, state := .running }

def markExited (exitCode : Nat) (p : Process) : Process :=
  { p with exitCode := exitCode, currentCpu := usizeMax, state := .zombie }

def setCpuAffinity (p : Process) : Process := { p with cpuAffinity := cpu }

def getCpuAffinity : Option Nat := if p.cpuAffinity = usizeMax then none else some p.cpuAffinity

def canRunOnCpu : Bool := p.cpuAffinity == usizeMax || p.cpuAffinity == cpu

def isDaemon : Bool := p.flags.daemon

def shouldRestart : Bool := p.flags.restartOnExit

end Process

/-- The processes created so far, `NEXT_PID` and `PROCESS_TABLE`. -/
structure Processes where
  count : Nat
  proc : Ref → Process
  nextPid : Pid
  table : Pid → Option Ref

namespace Processes

/-- Before the first process; `NEXT_PID` starts at 1. -/
def new : Processes := ⟨0, fun _ => Process.new 0 "" 0, 1, fun _ => none⟩

variable (t : Processes)

/-- `allocate_pid`: the counter wraps. -/
def allocatePid : Pid × Processes := (t.nextPid, { t with nextPid := t.nextPid + 1 })

/-- `Arc::new(process)`. -/
def create (p : Process) : Ref × Processes :=
  (t.count, { t with count := t.count + 1, proc := Function.update t.proc t.count p })

def register (r : Ref) : Processes :=
  { t with table := Function.update t.table (t.proc r).pid (some r) }

def unregister (pid : Pid) : Processes := { t with table := Function.update t.table pid none }

def modify (r : Ref) (change : Process → Process) : Processes :=
  { t with proc := Function.update t.proc r (change (t.proc r)) }

end Processes

/-- `RunQueue`: references, those of higher priority first. Of an entry it reads the process that it leads to only. -/
abbrev RunQueue (ρ : Type := Ref) := List ρ

namespace RunQueue

variable {ρ : Type} (proc : ρ → Process) (q : RunQueue ρ)

/-- `RunQueue::enqueue`: before the first process of lower priority. -/
def enqueue (r : ρ) : RunQueue ρ :=
  q.insertIdx (q.findIdx fun other => (proc other).priority.rank < (proc r).priority.rank) r

/-- The first entry that passes, if there is one, and the queue without it. -/
def takeFirst (test : ρ → Bool) : Option ρ × RunQueue ρ :=
  match q.findIdx? test with
  | some i => (q[i]?, q.eraseIdx i)
  | none => (none, q)

/-- `RunQueue::dequeue`: the first process that is ready. -/
def dequeue : Option ρ × RunQueue ρ := q.takeFirst fun r => (proc r).state.isRunnable

def remove (pid : Pid) : Option ρ × RunQueue ρ := q.takeFirst fun r => (proc r).pid == pid

/-- `RunQueue::steal`: the last process, if there are several. -/
def steal : Option ρ × RunQueue ρ := if 1 < q.length then (q.getLast?, q.dropLast) else (none, q)

theorem enqueue_perm (r : ρ) : (enqueue proc q r).Perm (r :: q) :=
  perm_insertIdx r q findIdx_le_length

theorem takeFirst_eq (test : ρ → Bool) : q.takeFirst test = (q.find? test, q.eraseP test) := by
  rw [takeFirst, find?_eq_bind_findIdx?_getElem?, eraseP_eq_eraseIdx]
  cases q.findIdx? test <;> rfl

variable {q : RunQueue ρ}

theorem perm_of_find? {test : ρ → Bool} {r : ρ} (found : q.find? test = some r) : q.Perm (r :: q.eraseP test) := by
  obtain ⟨passes, before, after, rfl, fail⟩ := find?_eq_some_iff_append.mp found
  rw [eraseP_append_right _ (by simpa using fail), eraseP_cons_of_pos passes]
  exact perm_middle

theorem dequeue_some {r : ρ} (found : q.find? (fun r => (proc r).state.isRunnable) = some r) :
    ∃ rest, dequeue proc q = (some r, rest) ∧ q.Perm (r :: rest) :=
  ⟨_, by rw [dequeue, takeFirst_eq, found], perm_of_find? found⟩

theorem dequeue_none (absent : q.find? (fun r => (proc r).state.isRunnable) = none) : dequeue proc q = (none, q) := by
  rw [dequeue, takeFirst_eq, absent, eraseP_of_forall_not (find?_eq_none.mp absent)]

/-- Removing by pid takes out the process itself where no other process of the queue has its pid. -/
theorem remove_spec {r : ρ} (member : r ∈ q)
    (own : ∀ other ∈ q, (proc other).pid = (proc r).pid → other = r) :
    ∃ rest, remove proc q (proc r).pid = (some r, rest) ∧ q.Perm (r :: rest) := by
  have found : q.find? (fun other => (proc other).pid == (proc r).pid) = some r := by
    cases first : q.find? fun other => (proc other).pid == (proc r).pid with
    | none => simpa using find?_eq_none.mp first r member
    | some r' => rw [own r' (mem_of_find?_eq_some first) (by simpa using find?_some first)]
  exact ⟨_, by rw [remove, takeFirst_eq, found], perm_of_find? found⟩

end RunQueue

end HavyOs.Sched
