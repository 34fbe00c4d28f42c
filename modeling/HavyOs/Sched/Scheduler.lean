import HavyOs.Sched.ChaseLev
import HavyOs.Sched.Process

/-!
# The scheduler

`Scheduler` of `cpu/sched.rs`. Every queued process is in two structures of its CPU: the run
queue, kept in the order of priority, and the steal deque, kept in the order of arrival.
`pickNext` takes the first ready process of the CPU's own run queue and pops its deque, or
else steals from the top of another CPU's deque and removes what it stole from that CPU's run
queue. Each call is one step. Which harts are ready and which CPUs are online is read from
other modules' tables and given to the calls that read it.
-/

namespace HavyOs.Sched

open Function (update)

/-- `MAX_HARTS`, the length of the arrays of queues. -/
abbrev maxHarts : Nat := 128

instance : NeZero maxHarts := ⟨by decide⟩

/-- A number of CPUs: `get_expected_harts` clamps to this range. -/
abbrev CpuCount := { n : Nat // 0 < n ∧ n ≤ maxHarts }

theorem two_le_maxHarts : 0 < 2 ∧ 2 ≤ maxHarts := by decide

/-- `is_hart_ready` and `is_online` at the time of a call. -/
structure Harts where
  ready : Nat → Bool
  online : Nat → Bool

/-- `Scheduler`, with the statics it works on: `RNG_STATE` and the process table. -/
structure Scheduler where
  queues : Nat → RunQueue
  stealQueues : Nat → WorkStealingDeque Ref
  numCpus : CpuCount
  processes : Processes
  rngState : UInt64

namespace Scheduler

/-- The state that `Scheduler::init` leaves. -/
def init (numCpus : CpuCount) : Scheduler :=
  ⟨fun _ => [], fun _ => .new, numCpus, .new, 0xDEADBEEFCAFEBABE⟩

def proc (s : Scheduler) (r : Ref) : Process := s.processes.proc r

def modify (s : Scheduler) (r : Ref) (change : Process → Process) : Scheduler :=
  { s with processes := s.processes.modify r change }

/-- The new `RNG_STATE` of `next_random`; both operations wrap. -/
def nextRngState (old : UInt64) : UInt64 := old * 6364136223846793005 + 1442695040888963407

/-- Both pushes: `process` enters the deque and the run queue of `cpu`. -/
def pushBoth (s : Scheduler) (cpu : Nat) (process : Ref) : Scheduler :=
  { s with
    stealQueues := update s.stealQueues cpu ((s.stealQueues cpu).push process)
    queues := update s.queues cpu ((s.queues cpu).enqueue s.proc process) }

def enqueue (s : Scheduler) (cpuId : Nat) (process : Ref) : Scheduler :=
  s.pushBoth (min cpuId (s.numCpus - 1)) process

def queueLength (s : Scheduler) (cpu : Nat) : Nat := (s.queues cpu).length

/-- The loop of `find_least_loaded_cpu` over the shortest queue so far, its CPU first. -/
def shortestQueue (s : Scheduler) (harts : Harts) : List Nat → Nat × Nat → Nat × Nat
  | [], best => best
  | cpu :: cpus, (bestCpu, minLoad) =>
    if !harts.ready cpu && !harts.online cpu then s.shortestQueue harts cpus (bestCpu, minLoad)
    else
      let load := s.queueLength cpu
      if load < minLoad ∨ (load = minLoad ∧ cpu ≠ 0) then s.shortestQueue harts cpus (cpu, load)
      else s.shortestQueue harts cpus (bestCpu, minLoad)

def findLeastLoadedCpu (s : Scheduler) (harts : Harts) : Nat :=
  if s.numCpus.val = 1 then 0
  else
    let secondary := List.range' 1 (s.numCpus - 1)
    match secondary.find? fun cpu => harts.ready cpu && s.queueLength cpu == 0 with
    | some cpu => cpu
    | none => (s.shortestQueue harts secondary (0, s.queueLength 0)).1

/-- The spawn functions, until the process is registered. -/
def create (new : Pid → String → Nat → Process) (s : Scheduler) (name : String) (entry : Nat) (priority : Priority)
    (cpuAffinity : Option Nat) : Pid × Ref × Scheduler :=
  let (pid, processes) := s.processes.allocatePid
  let process := { new pid name entry with priority := priority }
  let process := match cpuAffinity with
    | some cpu => process.setCpuAffinity cpu
    | none => process
  let (r, processes) := processes.create process
  (pid, r, { s with processes := processes.register r })

/-- The common body of `spawn_on_cpu` and `spawn_daemon_on_cpu`, which differ in the constructor. -/
def spawnProcess (new : Pid → String → Nat → Process) (s : Scheduler) (harts : Harts) (name : String) (entry : Nat)
    (priority : Priority) (cpuAffinity : Option Nat) : Pid × Scheduler :=
  let (pid, r, s) := s.create new name entry priority cpuAffinity
  let targetCpu := cpuAffinity.getD (s.findLeastLoadedCpu harts)
  (pid, (s.modify r Process.markReady).enqueue targetCpu r)

/-- `spawn_on_cpu`; `spawn` gives no affinity. -/
def spawnOnCpu : Scheduler → Harts → String → Nat → Priority → Option Nat → Pid × Scheduler := spawnProcess Process.new

/-- `spawn_daemon_on_cpu`; `spawn_daemon` gives no affinity. -/
def spawnDaemonOnCpu : Scheduler → Harts → String → Nat → Priority → Option Nat → Pid × Scheduler :=
  spawnProcess Process.newDaemon

/-- The loop of `pick_next` over the victims. -/
def stealLoop (cpuId : Nat) : List Nat → Scheduler → Option Ref × Scheduler
  | [], s => (none, s)
  | victim :: victims, s =>
    -- hart 0 runs critical services and is not stolen from
    if victim = cpuId ∨ victim = 0 then stealLoop cpuId victims s
    else
      match (s.stealQueues victim).steal with
      | (.success process, deque) =>
        let s := { s with stealQueues := update s.stealQueues victim deque }
        if (s.proc process).canRunOnCpu cpuId then
          let queue := ((s.queues victim).remove s.proc (s.proc process).pid).2
          (some process, { s with queues := update s.queues victim queue })
        else
          -- wrong affinity: put back into the deque, and into the run queue it was not taken from
          stealLoop cpuId victims (s.pushBoth victim process)
      | (.retry, _) => stealLoop cpuId victims s
      | (.empty, _) => stealLoop cpuId victims s

/-- `pick_next`, where `next_random` would move `RNG_STATE` to `new` and return `new >> 33`. -/
def pickNextWith (new : UInt64) (s : Scheduler) (cpuId : Nat) : Option Ref × Scheduler :=
  match (s.queues cpuId).dequeue s.proc with
  | (some process, queue) =>
    (some process, { s with
      queues := update s.queues cpuId queue
      stealQueues := update s.stealQueues cpuId (s.stealQueues cpuId).pop.2 })
  | (none, _) =>
    if s.numCpus.val ≤ 1 then (none, s)
    else
      let start := (new >>> 33).toNat % s.numCpus
      stealLoop cpuId ((List.range s.numCpus).map fun i => (start + i) % s.numCpus) { s with rngState := new }

def pickNext (s : Scheduler) (cpuId : Nat) : Option Ref × Scheduler := pickNextWith (nextRngState s.rngState) s cpuId

def requeue (s : Scheduler) (harts : Harts) (process : Ref) : Scheduler :=
  let s := s.modify process Process.markReady
  let targetCpu := match (s.proc process).getCpuAffinity with
    | some pinnedCpu => pinnedCpu
    | none => s.findLeastLoadedCpu harts
  s.enqueue targetCpu process

/-- `exit`; a daemon that restarts is spawned anew, without its affinity. -/
def exit (s : Scheduler) (harts : Harts) (pid : Pid) (exitCode : Nat) : Scheduler :=
  match s.processes.table pid with
  | none => s
  | some r =>
    let s := s.modify r (Process.markExited exitCode)
    let process := s.proc r
    if process.shouldRestart then (s.spawnDaemonOnCpu harts process.name process.entry process.priority none).2
    else s

/-- The loop of `kill`: the first entry with the pid leaves the run queue of every CPU. -/
def removeFromQueues (s : Scheduler) (pid : Pid) : Scheduler :=
  { s with queues := fun cpu => if cpu < s.numCpus then ((s.queues cpu).remove s.proc pid).2 else s.queues cpu }

/-- `kill`; the entries in the steal deques stay. -/
def kill (s : Scheduler) (pid : Pid) : Bool × Scheduler :=
  match s.processes.table pid with
  | none => (false, s)
  | some r =>
    let s := (s.modify r (Process.markExited 137)).removeFromQueues pid
    if (s.proc r).shouldRestart then (true, s)
    else (true, { s with processes := s.processes.unregister pid })

end Scheduler

/-! ## Runs -/

/-- The calls, with `hart_loop` marking the process it picked. -/
inductive SchedOp where
  | spawn (harts : Harts) (name : String) (entry : Nat) (priority : Priority) (cpuAffinity : Option Nat)
  | spawnDaemon (harts : Harts) (name : String) (entry : Nat) (priority : Priority) (cpuAffinity : Option Nat)
  | requeue (harts : Harts) (process : Ref)
  | pickNext (cpuId : Fin maxHarts)
  | exit (harts : Harts) (pid : Pid) (exitCode : Nat)
  | markRunning (process : Ref) (cpuId : Nat)

/-- What an operation hands out, and the state it leaves. -/
def exec (s : Scheduler) : SchedOp → Option Ref × Scheduler
  | .spawn harts name entry priority cpuAffinity => (none, (s.spawnOnCpu harts name entry priority cpuAffinity).2)
  | .spawnDaemon harts name entry priority cpuAffinity =>
    (none, (s.spawnDaemonOnCpu harts name entry priority cpuAffinity).2)
  | .requeue harts process => (none, s.requeue harts process)
  | .pickNext cpuId => s.pickNext cpuId
  | .exit harts pid exitCode => (none, s.exit harts pid exitCode)
  | .markRunning process cpuId => (none, s.modify process (Process.markRunning cpuId))

/-- The references an operation is given are to processes that exist. -/
def SchedOp.Refers (s : Scheduler) : SchedOp → Prop
  | .requeue _ process => process < s.processes.count
  | .markRunning process _ => process < s.processes.count
  | _ => True

/-- One call, labelled with the operation and the process it hands out. -/
def step (s : Scheduler) (call : SchedOp × Option Ref) (s' : Scheduler) : Prop :=
  call.1.Refers s ∧ exec s call.1 = (call.2, s')

end HavyOs.Sched
