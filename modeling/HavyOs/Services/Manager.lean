import HavyOs.Sched.HartLoop

/-!
# The service manager

`init.rs` over the scheduler and the hart loops. A call of the manager looks at the service
table, spawns or kills the service's process, and updates the table; the lock of the table is
dropped in between, so these are separate steps. `schedule_service` of `boot/services.rs`
starts a service at boot. Descriptions and start times, which no function here reads, are
left out, and so is the display that stopping `gpuid` clears.
-/

namespace HavyOs.Services

open Sched

inductive ServiceStatus where
  | stopped
  | running
  | failed
deriving DecidableEq, Repr

structure ServiceDef where
  name : String
  entry : Nat
  priority : Priority
  preferredHart : Option Nat
deriving DecidableEq, Repr

structure ServiceInfo where
  name : String
  pid : Pid
  status : ServiceStatus
  hart : Option Nat
deriving DecidableEq, Repr

inductive CallPhase where
  | idle
  /-- `restart_service`, before it calls `start_service`. -/
  | starting (name : String)
  /-- The service is defined and not running; its process is not spawned yet. -/
  | spawning (daemon : Bool) (definition : ServiceDef)
  | registering (name : String) (pid : Pid) (hart : Nat)
  /-- `stop_service`, before the kill; `restart` if `restart_service` called it. -/
  | killing (name : String) (pid : Pid) (restart : Bool)
  | marking (name : String) (restart : Bool)
deriving DecidableEq, Repr

/-- The service a caller is busy with. -/
def CallPhase.service : CallPhase → Option String
  | .idle => none
  | .starting name => some name
  | .spawning _ definition => some definition.name
  | .registering name _ _ => some name
  | .killing name _ _ => some name
  | .marking name _ => some name

/-- The kernel, `InitState`, and the callers of the manager. -/
structure Manager where
  kernel : Kernel
  serviceDefs : List ServiceDef
  services : List ServiceInfo
  callers : Nat → CallPhase

/-- The loop of `get_least_loaded_hart` over the best hart so far and its load. -/
def leastLoadedLoop (s : Scheduler) (harts : Harts) : List Nat → Nat × Nat → Nat
  | [], (bestHart, _) => bestHart
  | hartId :: rest, (bestHart, minLoad) =>
    if harts.online hartId ∧ s.queueLength hartId < minLoad then
      leastLoadedLoop s harts rest (hartId, s.queueLength hartId)
    else leastLoadedLoop s harts rest (bestHart, minLoad)

/-- `get_least_loaded_hart`, with `HARTS_ONLINE`. -/
def getLeastLoadedHart (s : Scheduler) (harts : Harts) (numHarts : Nat) : Nat :=
  if numHarts ≤ 1 then 0 else leastLoadedLoop s harts (List.range' 1 (numHarts - 1)) (1, usizeMax)

variable (m : Manager)

namespace Manager

def init (numCpus : CpuCount) : Manager := ⟨Kernel.init numCpus, [], [], fun _ => .idle⟩

variable (caller : Nat)

def setCaller (phase : CallPhase) : Manager :=
  { m with callers := Function.update m.callers caller phase }

def setSched (sched : Scheduler) : Manager := { m with kernel := { m.kernel with sched := sched } }

variable (name : String)

def service : Option ServiceInfo := m.services.find? fun info => info.name == name

/-- A change to the first entry that passes a test. -/
def updateFirst (test : ServiceInfo → Bool) (change : ServiceInfo → ServiceInfo) : List ServiceInfo → List ServiceInfo
  | [] => []
  | info :: rest => if test info then change info :: rest else info :: updateFirst test change rest

def registerServiceDef (definition : ServiceDef) : Manager :=
  { m with serviceDefs := m.serviceDefs ++ [definition] }

def runInfo (pid : Pid) (hart : Option Nat) (info : ServiceInfo) : ServiceInfo :=
  { info with pid := pid, status := .running, hart := hart }

def registerService (pid : Pid) (hart : Option Nat) : Manager :=
  if m.services.any fun info => info.name == name then
    { m with services := updateFirst (fun info => info.name == name) (runInfo pid hart) m.services }
  else { m with services := m.services ++ [⟨name, pid, .running, hart⟩] }

def stopInfo (info : ServiceInfo) : ServiceInfo := { info with status := .stopped, pid := 0, hart := none }

def markServiceStopped : Manager :=
  { m with services := updateFirst (fun info => info.name == name) stopInfo m.services }

def stopServiceByPid (pid : Pid) : Manager :=
  { m with services := updateFirst (fun info => info.pid == pid && info.status == .running) stopInfo m.services }

/-- `start_service` up to the spawn. -/
def startService : Manager :=
  if (m.service name).any fun info => info.status == .running then m.setCaller caller .idle
  else
    match m.serviceDefs.find? fun definition => definition.name == name with
    | none => m.setCaller caller .idle
    | some definition => m.setCaller caller (.spawning false definition)

/-- `stop_service` up to the kill; where it fails, `restart_service` goes on. -/
def stopService (restart : Bool) : Manager :=
  match m.service name with
  | some info =>
    if info.status = .running then m.setCaller caller (.killing name info.pid restart)
    else m.setCaller caller (if restart then .starting name else .idle)
  | none => m.setCaller caller (if restart then .starting name else .idle)

variable (harts : Harts)

/-- `schedule_service` up to the spawn. -/
def scheduleService (definition : ServiceDef) : Manager :=
  let hart := definition.preferredHart.getD (m.kernel.sched.findLeastLoadedCpu harts)
  let definition := { definition with preferredHart := some hart }
  (m.registerServiceDef definition).setCaller caller (.spawning true definition)

variable (numHarts : Nat)

/-- The CPU that the process of a service is spawned on. -/
def targetCpu (definition : ServiceDef) : Nat :=
  definition.preferredHart.getD (getLeastLoadedHart m.kernel.sched harts numHarts)

/-- The spawn of a service: `start_service` uses `spawn_on_cpu`, and `schedule_service` `spawn_daemon_on_cpu`. -/
def spawnService (daemon : Bool) (definition : ServiceDef) :
    Pid × Scheduler :=
  m.kernel.sched.spawnProcess (if daemon then Process.newDaemon else Process.new) harts definition.name definition.entry
    definition.priority (some (m.targetCpu harts numHarts definition))

def next : Manager :=
  match m.callers caller with
  | .idle => m
  | .starting name => m.startService caller name
  | .spawning daemon definition =>
    let (pid, sched) := m.spawnService harts numHarts daemon definition
    (m.setSched sched).setCaller caller (.registering definition.name pid (m.targetCpu harts numHarts definition))
  | .registering name pid hart => (m.registerService name pid (some hart)).setCaller caller .idle
  | .killing name pid restart =>
    let killed := if pid > 0 then m.setSched (m.kernel.sched.kill pid).2 else m
    killed.setCaller caller (.marking name restart)
  | .marking name restart => (m.markServiceStopped name).setCaller caller (if restart then .starting name else .idle)

def sysKill (pid : Pid) : Manager :=
  if pid = 0 then m else m.setSched (m.kernel.sched.exit harts pid 9)

end Manager

/-- A call of the manager starts or goes on, a process is killed, or a hart makes a step of its loop. -/
inductive ServiceOp where
  | registerServiceDef (definition : ServiceDef)
  | schedule (caller : Nat) (harts : Harts) (definition : ServiceDef)
  | start (caller : Nat) (name : String)
  | stop (caller : Nat) (name : String)
  | restart (caller : Nat) (name : String)
  | next (caller : Nat) (harts : Harts) (numHarts : Nat)
  | sysKill (harts : Harts) (pid : Pid)
  | kill (pid : Pid)
  | stopServiceByPid (pid : Pid)
  | hartStep (harts : Harts) (hart : Fin maxHarts)

def ServiceOp.exec : ServiceOp → Manager
  | .registerServiceDef definition => m.registerServiceDef definition
  | .schedule caller harts definition => m.scheduleService caller harts definition
  | .start caller name => m.startService caller name
  | .stop caller name => m.stopService caller name false
  | .restart caller name => m.stopService caller name true
  | .next caller harts numHarts => m.next caller harts numHarts
  | .sysKill harts pid => m.sysKill harts pid
  | .kill pid => m.setSched (m.kernel.sched.kill pid).2
  | .stopServiceByPid pid => m.stopServiceByPid pid
  | .hartStep harts hart => { m with kernel := (m.kernel.hartStep harts hart).2 }

/-- The caller that starts a call, if the step is the start of one. -/
def ServiceOp.starts : ServiceOp → Option Nat
  | .schedule caller _ _ => some caller
  | .start caller _ => some caller
  | .stop caller _ => some caller
  | .restart caller _ => some caller
  | _ => none

/-- One step; a call starts when its caller is in none. -/
def serviceStep (op : ServiceOp) (m' : Manager) : Prop :=
  (∀ caller, op.starts = some caller → m.callers caller = .idle) ∧ op.exec m = m'

end HavyOs.Services
