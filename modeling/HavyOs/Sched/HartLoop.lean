import HavyOs.Sched.Scheduler

/-!
# The hart loops and the wait queues

`hart_loop` of `cpu/mod.rs` and `WaitQueueState` of `lock/state/waitq.rs`, around the
scheduler. A hart picks a process, marks it running, runs its entry, and gives a daemon back
or exits any other process; between these steps everything else may happen. A wait queue
holds pids, and waking a waiter marks the process that is registered under its pid as ready.
-/

namespace HavyOs.Sched

inductive HartPhase where
  | idle
  | picked (process : Ref)
  /-- The process is marked running and its entry runs. -/
  | running (process : Ref)
deriving DecidableEq, Repr

inductive WaitEvent where
  | timer
  | ioReady
  | ipcMessage
  | childExit
  | signal
deriving DecidableEq, Repr

structure Waiter where
  pid : Pid
  event : WaitEvent
  timeout : Option Nat
  data : Nat
deriving DecidableEq, Repr

/-- The scheduler, the loop of every hart, and the wait queues. -/
structure Kernel where
  sched : Scheduler
  harts : Nat → HartPhase
  waitQueues : Nat → List Waiter

variable (k : Kernel)

/-- The process exists and is no zombie. -/
def Live (r : Ref) : Prop := r < k.sched.processes.count ∧ (k.sched.proc r).state ≠ .zombie

namespace Kernel

/-- Every hart is at the start of its loop, and nobody waits. -/
def init (numCpus : CpuCount) : Kernel := ⟨Scheduler.init numCpus, fun _ => .idle, fun _ => []⟩

def setHart (hart : Nat) (phase : HartPhase) : Kernel :=
  { k with harts := Function.update k.harts hart phase }

theorem harts_setHart (hart : Nat) (phase : HartPhase) (other : Nat) :
    (k.setHart hart phase).harts other = phase ∨ (k.setHart hart phase).harts other = k.harts other := by
  simp only [setHart, Function.update_apply]
  split
  · exact .inl rfl
  · exact .inr rfl

/-- The next step of `hart_loop`, with the process that `pick_next` returned in it. -/
def hartStep (harts : Harts) (hart : Nat) : Option Ref × Kernel :=
  match k.harts hart with
  | .idle =>
    match k.sched.pickNext hart with
    | (some process, sched) => (some process, { k with sched := sched }.setHart hart (.picked process))
    | (none, sched) => (none, { k with sched := sched })
  | .picked process =>
    (none, { k with sched := k.sched.modify process (Process.markRunning hart) }.setHart hart (.running process))
  | .running process =>
    if (k.sched.proc process).isDaemon then
      (none, { k with sched := k.sched.requeue harts process }.setHart hart .idle)
    else (none, { k with sched := k.sched.exit harts (k.sched.proc process).pid 0 }.setHart hart .idle)

end Kernel

/-! ## Wait queues -/

/-- `PROCESS_TABLE.get(pid)` and `mark_ready`. -/
def Scheduler.markReadyPid (s : Scheduler) (pid : Pid) : Scheduler :=
  match s.processes.table pid with
  | some r => s.modify r Process.markReady
  | none => s

namespace Kernel

variable (queue : Nat)

def wait (waiter : Waiter) : Kernel :=
  { k with waitQueues := Function.update k.waitQueues queue (k.waitQueues queue ++ [waiter]) }

def wakeOne : Kernel :=
  match k.waitQueues queue with
  | [] => k
  | waiter :: rest =>
    { k with
      sched := k.sched.markReadyPid waiter.pid
      waitQueues := Function.update k.waitQueues queue rest }

/-- The common loop of the other wake operations: the waiters that pass the test are woken in order, the rest
stays. -/
def wakeWhere (test : Waiter → Bool) : Kernel :=
  { k with
    sched := ((k.waitQueues queue).filter test).foldl (fun s waiter => s.markReadyPid waiter.pid) k.sched
    waitQueues := Function.update k.waitQueues queue ((k.waitQueues queue).filter fun waiter => !test waiter) }

def wakeAll : Kernel := k.wakeWhere queue fun _ => true

def wakeEvent (event : WaitEvent) : Kernel :=
  k.wakeWhere queue fun waiter => waiter.event == event

def wakeByData (data : Nat) : Kernel := k.wakeWhere queue fun waiter => waiter.data == data

def checkTimeouts (currentTime : Nat) : Kernel :=
  k.wakeWhere queue fun waiter => waiter.timeout.any fun timeout => decide (currentTime ≥ timeout)

end Kernel

/-! ## Runs -/

/-- A call to the scheduler or to a wait queue, or a step of a hart loop. -/
inductive KernelOp where
  | call (op : SchedOp)
  | kill (pid : Pid)
  | hartStep (harts : Harts) (hart : Fin maxHarts)
  | wait (queue : Nat) (waiter : Waiter)
  | wakeOne (queue : Nat)
  | wakeAll (queue : Nat)
  | wakeEvent (queue : Nat) (event : WaitEvent)
  | wakeByData (queue : Nat) (data : Nat)
  | checkTimeouts (queue : Nat) (currentTime : Nat)

/-- What an operation hands out, and the state it leaves. -/
def KernelOp.exec : KernelOp → Option Ref × Kernel
  | .call op => ((Sched.exec k.sched op).1, { k with sched := (Sched.exec k.sched op).2 })
  | .kill pid => (none, { k with sched := (k.sched.kill pid).2 })
  | .hartStep harts hart => k.hartStep harts hart
  | .wait queue waiter => (none, k.wait queue waiter)
  | .wakeOne queue => (none, k.wakeOne queue)
  | .wakeAll queue => (none, k.wakeAll queue)
  | .wakeEvent queue event => (none, k.wakeEvent queue event)
  | .wakeByData queue data => (none, k.wakeByData queue data)
  | .checkTimeouts queue currentTime => (none, k.checkTimeouts queue currentTime)

/-- The references an operation is given are to processes that exist. -/
def KernelOp.Refers : KernelOp → Prop
  | .call op => op.Refers k.sched
  | _ => True

/-- One operation, labelled with the process it hands out. -/
def kernelStep (label : KernelOp × Option Ref) (k' : Kernel) : Prop :=
  label.1.Refers k ∧ label.1.exec k = (label.2, k')

/-! ## The smallest machine -/

def oneCpu : CpuCount := ⟨1, by decide⟩

def oneReady : Harts := ⟨fun _ => true, fun _ => true⟩

end HavyOs.Sched
