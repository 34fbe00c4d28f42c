import Mathlib.Data.List.Nodup
import HavyOs.Services.Manager
import HavyOs.Services.Live

/-!
# Consistency of the service table

A service that is recorded as running has one live process, the recorded one, and a stopped service
has none. `start_service` breaks this by itself: it spawns a process that is not a daemon, which the
hart loop ends after one tick, and nothing tells the table. Kills by pid do not tell the table
either, and calls for the same service get in each other's way, since the lock is dropped between
the look at the table and its update.
-/

namespace HavyOs.Services

open Lib Sched Function List
open Manager (init registerService stopInfo)
open CallPhase (service)

variable (k : Kernel) (entry : Nat)

/-- One process with the entry is alive, and it has the pid. -/
def OneAlive (pid : Pid) : Prop :=
  ∃ r, Live k r ∧ (k.sched.proc r).entry = entry ∧ (k.sched.proc r).pid = pid ∧
    ∀ r', Live k r' → (k.sched.proc r').entry = entry → r' = r

def NoneAlive : Prop := ∀ r, Live k r → (k.sched.proc r).entry ≠ entry

variable (m : Manager)

/-- The table agrees with the processes: a running service has one live process, the recorded one, in a run queue or
with a hart, and a stopped service has none. -/
def Consistent : Prop :=
  ∀ info ∈ m.services, ∀ definition ∈ m.serviceDefs, definition.name = info.name →
    (info.status = .running → ∃ r, Live m.kernel r ∧ (m.kernel.sched.proc r).entry = definition.entry ∧
      (m.kernel.sched.proc r).pid = info.pid ∧
      (∀ r', Live m.kernel r' → (m.kernel.sched.proc r').entry = definition.entry → r' = r) ∧
      ((∃ cpu, r ∈ m.kernel.sched.queues cpu) ∨ ∃ hart, Has m.kernel hart r)) ∧
    (info.status = .stopped → NoneAlive m.kernel definition.entry)

/-! ## The condition -/

/-- Nobody is in a call for the service. -/
def Free (name : String) : Prop := ∀ caller, (m.callers caller).service ≠ some name

/-- Neither the name nor the entry is in use, and the hart is one of those there are. -/
structure Fresh (m : Manager) (definition : ServiceDef) : Prop where
  name : ∀ other ∈ m.serviceDefs, other.name ≠ definition.name
  entry : ∀ other ∈ m.serviceDefs, other.entry ≠ definition.entry
  hart : ∀ hart, definition.preferredHart = some hart → hart < m.kernel.sched.numCpus.val

/-- The condition on the next step of a caller: a pid that is spawned is new, and a process that is killed is with no
hart. -/
def ProperNext (numHarts : Nat) : CallPhase → Prop
  | .spawning _ _ => numHarts ≤ m.kernel.sched.numCpus.val ∧ m.kernel.sched.processes.nextPid ≠ 0 ∧
    ∀ r, r < m.kernel.sched.processes.count → (m.kernel.sched.proc r).pid ≠ m.kernel.sched.processes.nextPid
  | .killing _ pid _ => ∀ r, m.kernel.sched.processes.table pid = some r → ∀ hart, ¬ Has m.kernel hart r
  | _ => True

def Proper : ServiceOp → Prop
  | .registerServiceDef definition => Fresh m definition
  | .schedule _ _ definition => Fresh m definition ∧ Free m definition.name
  | .start _ name => Free m name
  | .stop _ name => Free m name
  | .restart _ name => Free m name
  | .next caller _ numHarts => ProperNext m numHarts (m.callers caller)
  | .sysKill _ pid => ∀ r, m.kernel.sched.processes.table pid = some r →
    ¬ Live m.kernel r ∧ (m.kernel.sched.proc r).shouldRestart = false
  | .kill pid => ∀ r, m.kernel.sched.processes.table pid = some r → ¬ Live m.kernel r
  | .stopServiceByPid pid => ∀ info ∈ m.services, ¬ (info.pid = pid ∧ info.status = .running)
  | .hartStep _ hart => ∀ r, m.kernel.harts hart = .running r → (m.kernel.sched.proc r).isDaemon

/-! ## The invariant -/

variable (services : List ServiceInfo)

/-- The table has the service as running, under the pid. -/
def Running (name : String) (pid : Pid) : Prop :=
  ∃ info, services.find? (fun info => info.name == name) = some info ∧ info.status = .running ∧ info.pid = pid

/-- What holds of a service while a caller is in a phase of a call for it; `idle` when nobody is. -/
def Account (definition : ServiceDef) : CallPhase → Prop
  | .idle => (∀ pid, Running services definition.name pid → pid ≠ 0 ∧ OneAlive k definition.entry pid) ∧
    ((∀ pid, ¬ Running services definition.name pid) → NoneAlive k definition.entry)
  | .starting _ => (∀ pid, ¬ Running services definition.name pid) ∧ NoneAlive k definition.entry
  | .spawning _ _ => (∀ pid, ¬ Running services definition.name pid) ∧ NoneAlive k definition.entry
  | .registering _ pid _ => pid ≠ 0 ∧ OneAlive k definition.entry pid
  | .killing _ pid _ => pid ≠ 0 ∧ OneAlive k definition.entry pid
  | .marking _ _ => NoneAlive k definition.entry

/-- The books of the manager are in order. -/
structure Books (m : Manager) : Prop where
  staffed : Staffed m.kernel
  names : ∀ d ∈ m.serviceDefs, ∀ d' ∈ m.serviceDefs, d.name = d'.name → d = d'
  entries : ∀ d ∈ m.serviceDefs, ∀ d' ∈ m.serviceDefs, d.entry = d'.entry → d = d'
  harts : ∀ d ∈ m.serviceDefs, ∀ hart, d.preferredHart = some hart → hart < m.kernel.sched.numCpus.val
  once : (m.services.map ServiceInfo.name).Nodup
  defined : ∀ info ∈ m.services, ∃ d ∈ m.serviceDefs, d.name = info.name
  employed : ∀ r, Live m.kernel r → ∃ d ∈ m.serviceDefs, (m.kernel.sched.proc r).entry = d.entry
  apart : ∀ c c' name, (m.callers c).service = some name → (m.callers c').service = some name → c = c'
  known : ∀ c name, (m.callers c).service = some name →
    m.callers c = .starting name ∨ ∃ d ∈ m.serviceDefs, d.name = name
  spawning : ∀ c daemon d, m.callers c = .spawning daemon d → d ∈ m.serviceDefs
  settled : ∀ d ∈ m.serviceDefs, Free m d.name → Account m.kernel m.services d .idle
  busy : ∀ d ∈ m.serviceDefs, ∀ c, (m.callers c).service = some d.name → Account m.kernel m.services d (m.callers c)

theorem books_init (numCpus : CpuCount) : Books (.init numCpus) where
  staffed := staffed_init numCpus
  names d member := absurd member not_mem_nil
  entries d member := absurd member not_mem_nil
  harts d member := absurd member not_mem_nil
  once := nodup_nil
  defined info member := absurd member not_mem_nil
  employed r live := absurd live.1 (Nat.not_lt_zero r)
  apart c c' name busy := absurd busy (by simp [init, service])
  known c name busy := absurd busy (by simp [init, service])
  spawning c daemon d busy := absurd busy (by simp [init])
  settled d member := absurd member not_mem_nil
  busy d member := absurd member not_mem_nil

/-! ## The processes of one service -/

/-- The service is staffed after a step as it was before it. -/
def SameStaff (k' : Kernel) (entry : Nat) : Prop :=
  (∀ pid, OneAlive k entry pid → OneAlive k' entry pid) ∧ (NoneAlive k entry → NoneAlive k' entry)

theorem sameStaff_refl : SameStaff k k entry := ⟨fun _ => id, id⟩

variable {k k' : Kernel} {entry : Nat} {pid : Pid}

theorem sameStaff_of_live
    (live : ∀ r, Live k' r ∧ (k'.sched.proc r).entry = entry ↔ Live k r ∧ (k.sched.proc r).entry = entry)
    (pid : ∀ r, Live k r → (k'.sched.proc r).pid = (k.sched.proc r).pid) : SameStaff k k' entry := by
  constructor
  · rintro _ ⟨r, alive, named, numbered, only⟩
    obtain ⟨alive', named'⟩ := (live r).mpr ⟨alive, named⟩
    refine ⟨r, alive', named', (pid r alive).trans numbered, fun r' other same => ?_⟩
    obtain ⟨before, entry'⟩ := (live r').mp ⟨other, same⟩
    exact only r' before entry'
  · intro none r alive named
    obtain ⟨before, entry'⟩ := (live r).mp ⟨alive, named⟩
    exact none r before entry'

theorem sameStaff_kept (kept : Kept k k') (entry : Nat) : SameStaff k k' entry := by
  refine sameStaff_of_live (fun r => ?_) fun r alive => (kept.same r alive).1
  rw [kept.live]
  exact and_congr_right fun alive => by rw [(kept.same r alive).2]

theorem sameStaff_ended {r : Ref} (ended : Ended k k' r)
    (other : (k.sched.proc r).entry ≠ entry) : SameStaff k k' entry := by
  refine sameStaff_of_live (fun r' => ?_) fun r' _ => (ended.same r').1
  rw [ended.live, (ended.same r').2]
  constructor
  · exact fun ⟨⟨alive, _⟩, named⟩ => ⟨alive, named⟩
  · refine fun ⟨alive, named⟩ => ⟨⟨alive, fun same => ?_⟩, named⟩
    rw [same] at named
    exact other named

theorem sameStaff_hired {started : Nat} (hired : Hired k k' pid started)
    (other : started ≠ entry) : SameStaff k k' entry := by
  refine sameStaff_of_live (fun r => ?_) fun r alive => (hired.same r alive).1
  rw [hired.live]
  constructor
  · rintro ⟨alive | rfl, named⟩
    · rw [(hired.same r alive).2] at named
      exact ⟨alive, named⟩
    · exact absurd (hired.entry.symm.trans named) other
  · refine fun ⟨alive, named⟩ => ⟨.inl alive, ?_⟩
    rw [(hired.same r alive).2]
    exact named

/-! ## The table -/

section Table

open Manager (updateFirst)

variable {services : List ServiceInfo} {change : ServiceInfo → ServiceInfo}

theorem names_updateFirst (test : ServiceInfo → Bool) (change : ServiceInfo → ServiceInfo)
    (kept : ∀ info, (change info).name = info.name) :
    (updateFirst test change services).map ServiceInfo.name = services.map ServiceInfo.name := by
  induction services with
  | nil => rfl
  | cons info rest ih =>
    rw [updateFirst]
    split
    · rw [map_cons, map_cons, kept]
    · rw [map_cons, map_cons, ih]

theorem updateFirst_none {test : ServiceInfo → Bool} (none : ∀ info ∈ services, test info = false) :
    updateFirst test change services = services := by
  induction services with
  | nil => rfl
  | cons info rest ih =>
    rw [updateFirst, if_neg (by rw [none info mem_cons_self]; decide),
      ih fun other member => none other (mem_cons_of_mem _ member)]

theorem find_updateFirst (change : ServiceInfo → ServiceInfo) (kept : ∀ info, (change info).name = info.name)
    (name other : String) :
    (updateFirst (fun info => info.name == name) change services).find? (fun info => info.name == other) =
      if other = name then (services.find? fun info => info.name == name).map change
      else services.find? fun info => info.name == other := by
  induction services with
  | nil => simp [updateFirst]
  | cons info rest ih =>
    rw [updateFirst]
    by_cases here : info.name = name
    · by_cases same : other = name
      · simp [kept, here, same]
      · have apart : (name == other) = false := by simpa using Ne.symm same
        simp [kept, here, same, apart]
    · rw [if_neg (by simpa using here), find?_cons, ih]
      by_cases same : other = name
      · have apart : (info.name == name) = false := by simpa using here
        simp [apart, same]
      · simp [same, find?_cons]

/-- A table with the same names has one entry for each service, and each is defined, as before. -/
theorem names_kept {services' : List ServiceInfo} {defs : List ServiceDef}
    (names : services'.map ServiceInfo.name = services.map ServiceInfo.name)
    (once : (services.map ServiceInfo.name).Nodup)
    (defined : ∀ info ∈ services, ∃ d ∈ defs, d.name = info.name) :
    (services'.map ServiceInfo.name).Nodup ∧ ∀ info ∈ services', ∃ d ∈ defs, d.name = info.name := by
  constructor
  · rw [names]
    exact once
  · intro info member
    have listed : info.name ∈ services.map ServiceInfo.name := by
      rw [← names]
      exact mem_map_of_mem member
    obtain ⟨info', member', equal⟩ := mem_map.mp listed
    obtain ⟨d, present, same⟩ := defined info' member'
    exact ⟨d, present, same.trans equal⟩

end Table

theorem running_stopped (name other : String) (pid : Pid) :
    Running (Manager.updateFirst (fun info => info.name == name) stopInfo services) other pid ↔
      other ≠ name ∧ Running services other pid := by
  unfold Running
  rw [find_updateFirst stopInfo fun _ => rfl]
  by_cases same : other = name
  · rw [if_pos same]
    constructor
    · rintro ⟨info, found, running, -⟩
      obtain ⟨_, -, rfl⟩ := Option.map_eq_some_iff.mp found
      cases running
    · exact fun ⟨apart, _⟩ => absurd same apart
  · rw [if_neg same]
    exact (and_iff_right same).symm

theorem running_registered (name other : String) (pid pid' : Pid) (hart : Option Nat) :
    Running (m.registerService name pid hart).services other pid' ↔
      if other = name then pid' = pid else Running m.services other pid' := by
  unfold Running registerService
  split
  · rename_i present
    rw [find_updateFirst (Manager.runInfo pid hart) fun _ => rfl]
    by_cases same : other = name
    · rw [if_pos same, if_pos same]
      obtain ⟨info, found⟩ : ∃ info, m.services.find? (fun info => info.name == name) = some info := by
        rw [← Option.isSome_iff_exists, find?_isSome]
        exact any_eq_true.mp present
      rw [found]
      constructor
      · rintro ⟨_, same', -, numbered⟩
        cases same'
        exact numbered.symm
      · exact fun numbered => ⟨_, rfl, rfl, numbered.symm⟩
    · rw [if_neg same, if_neg same]
  · rename_i absent
    have missing : m.services.find? (fun info => info.name == name) = none := by
      rw [find?_eq_none]
      intro info member found
      exact absent (any_eq_true.mpr ⟨info, member, found⟩)
    rw [find?_append]
    by_cases same : other = name
    · subst same
      rw [missing]
      simp
      exact eq_comm
    · have apart : (name == other) = false := by simpa using Ne.symm same
      rw [if_neg same]
      simp [apart]

theorem registerService_eq (name : String) (pid : Pid) (hart : Option Nat) :
    m.registerService name pid hart = { m with services := (m.registerService name pid hart).services } := by
  unfold registerService
  split <;> rfl

theorem names_registered {m : Manager} {name : String} (once : (m.services.map ServiceInfo.name).Nodup)
    (defined : ∀ info ∈ m.services, ∃ d ∈ m.serviceDefs, d.name = info.name)
    (known : ∃ d ∈ m.serviceDefs, d.name = name)
    (pid : Pid) (hart : Option Nat) :
    ((m.registerService name pid hart).services.map ServiceInfo.name).Nodup ∧
      ∀ info ∈ (m.registerService name pid hart).services, ∃ d ∈ m.serviceDefs, d.name = info.name := by
  unfold registerService
  split
  · exact names_kept (names_updateFirst _ (Manager.runInfo pid hart) fun _ => rfl) once defined
  · rename_i absent
    have missing : name ∉ m.services.map ServiceInfo.name := by
      intro listed
      obtain ⟨info, member, same⟩ := mem_map.mp listed
      exact absent (any_eq_true.mpr ⟨info, member, by simpa using same⟩)
    constructor
    · rw [map_append, nodup_append]
      refine ⟨once, by simp, fun a listed b new equal => ?_⟩
      rw [map_singleton, mem_singleton] at new
      rw [equal, new] at listed
      exact missing listed
    · intro info member
      rcases mem_append.mp member with old | new
      · exact defined info old
      · rw [mem_singleton.mp new]
        exact known

/-! ## The CPU of a service -/

variable (s : Scheduler) (harts : Harts) (cpus : List Nat) (best : Nat × Nat)

theorem shortestQueue_lt {bound : Nat}
    (below : ∀ cpu ∈ cpus, cpu < bound) (start : best.1 < bound) : (s.shortestQueue harts cpus best).1 < bound := by
  induction cpus generalizing best with
  | nil => exact start
  | cons cpu cpus ih =>
    have rest := fun other member => below other (mem_cons_of_mem _ member)
    rw [Scheduler.shortestQueue]
    split
    · exact ih best rest start
    · dsimp only
      split
      · exact ih _ rest (below cpu mem_cons_self)
      · exact ih best rest start

theorem findLeastLoadedCpu_lt : s.findLeastLoadedCpu harts < s.numCpus.val := by
  have positive := s.numCpus.property.1
  have below : ∀ cpu ∈ range' 1 (s.numCpus - 1), cpu < s.numCpus.val := by
    intro cpu member
    obtain ⟨-, _⟩ := mem_range'_1.mp member
    omega
  unfold Scheduler.findLeastLoadedCpu
  split
  · exact positive
  · dsimp only
    split
    · rename_i cpu found
      exact below cpu (mem_of_find?_eq_some found)
    · exact shortestQueue_lt s harts _ _ below positive

theorem leastLoadedLoop_lt {bound : Nat}
    (below : ∀ cpu ∈ cpus, cpu < bound) (start : best.1 < bound) : leastLoadedLoop s harts cpus best < bound := by
  induction cpus generalizing best with
  | nil => exact start
  | cons cpu cpus ih =>
    have rest := fun other member => below other (mem_cons_of_mem _ member)
    rw [leastLoadedLoop]
    split
    · exact ih _ rest (below cpu mem_cons_self)
    · exact ih best rest start

theorem getLeastLoadedHart_lt {numHarts : Nat} (few : numHarts ≤ s.numCpus.val) :
    getLeastLoadedHart s harts numHarts < s.numCpus.val := by
  have positive := s.numCpus.property.1
  unfold getLeastLoadedHart
  split
  · exact positive
  · refine leastLoadedLoop_lt s harts _ _ (fun cpu member => ?_) (by dsimp only; omega)
    obtain ⟨-, _⟩ := mem_range'_1.mp member
    omega

/-! ## Steps -/

theorem Account.transfer {services services' : List ServiceInfo} {d : ServiceDef} {phase : CallPhase}
    (account : Account k services d phase) (staff : SameStaff k k' d.entry)
    (table : ∀ pid, Running services' d.name pid ↔ Running services d.name pid) : Account k' services' d phase := by
  cases phase with
  | idle =>
    refine ⟨fun pid running => ?_, fun none =>
      staff.2 (account.2 fun pid running => none pid ((table pid).mpr running))⟩
    obtain ⟨positive, one⟩ := account.1 pid ((table pid).mp running)
    exact ⟨positive, staff.1 pid one⟩
  | starting name => exact ⟨fun pid running => account.1 pid ((table pid).mp running), staff.2 account.2⟩
  | spawning daemon definition => exact ⟨fun pid running => account.1 pid ((table pid).mp running), staff.2 account.2⟩
  | registering name pid hart => exact ⟨account.1, staff.1 pid account.2⟩
  | killing name pid restart => exact ⟨account.1, staff.1 pid account.2⟩
  | marking name restart => exact staff.2 account

namespace Books

variable {m : Manager} {c : Nat} {name : String} {d : ServiceDef} {numHarts : Nat}

variable (b : Books m)

include b

section

variable {phase : CallPhase} (before : (m.callers c).service = some name ∨ m.callers c = .idle ∧ Free m name)
    (after : phase = .idle ∨ phase.service = some name ∧ (phase = .starting name ∨ ∃ d ∈ m.serviceDefs, d.name = name))
    (spawning : ∀ daemon d, phase = .spawning daemon d → d ∈ m.serviceDefs)
include before after spawning

/-- A caller moves on in a call for the service `name`, and what it changes is of that service only. -/
theorem advance {kernel : Kernel} {services : List ServiceInfo} (staffed : Staffed kernel)
    (numCpus : kernel.sched.numCpus = m.kernel.sched.numCpus)
    (staff : ∀ d ∈ m.serviceDefs, d.name ≠ name → SameStaff m.kernel kernel d.entry)
    (employed : ∀ r, Live kernel r → ∃ d ∈ m.serviceDefs, (kernel.sched.proc r).entry = d.entry)
    (table : ∀ other, other ≠ name → ∀ pid, Running services other pid ↔ Running m.services other pid)
    (once : (services.map ServiceInfo.name).Nodup)
    (defined : ∀ info ∈ services, ∃ d ∈ m.serviceDefs, d.name = info.name)
    (own : ∀ d ∈ m.serviceDefs, d.name = name → Account kernel services d phase) :
    Books { m with kernel := kernel, services := services, callers := update m.callers c phase } := by
  have others : ∀ c', c' ≠ c → (update m.callers c phase) c' = m.callers c' :=
    fun c' apart => update_of_ne apart ..
  have self : (update m.callers c phase) c = phase := update_self ..
  -- nobody else is busy with the service
  have alone : ∀ c', c' ≠ c → (m.callers c').service ≠ some name := by
    intro c' apart same
    rcases before with mine | ⟨-, free⟩
    · exact apart (b.apart c' c name same mine)
    · exact free c' same
  have mine : ∀ other, phase.service = some other → other = name ∧
      (phase = .starting name ∨ ∃ d ∈ m.serviceDefs, d.name = name) := by
    intro other same
    rcases after with idle | ⟨service, known⟩
    · rw [idle] at same
      cases same
    · exact ⟨Option.some.inj (same.symm.trans service), known⟩
  refine ⟨staffed, b.names, b.entries, ?_, once, defined, employed, fun c₁ c₂ other one two => ?_,
    fun c' other same => ?_,
    fun c' daemon d same => ?_, fun d member free => ?_, fun d member c' same => ?_⟩
  · rw [numCpus]
    exact b.harts
  · dsimp only at one two
    by_cases first : c₁ = c <;> by_cases second : c₂ = c
    · rw [first, second]
    · rw [first, self] at one
      rw [others c₂ second, (mine other one).1] at two
      exact absurd two (alone c₂ second)
    · rw [second, self] at two
      rw [others c₁ first, (mine other two).1] at one
      exact absurd one (alone c₁ first)
    · rw [others c₁ first] at one
      rw [others c₂ second] at two
      exact b.apart c₁ c₂ other one two
  · dsimp only at same ⊢
    by_cases here : c' = c
    · rw [here, self] at same ⊢
      obtain ⟨rfl, known⟩ := mine other same
      exact known
    · rw [others c' here] at same ⊢
      exact b.known c' other same
  · dsimp only at same
    by_cases here : c' = c
    · rw [here, self] at same
      exact spawning daemon d same
    · rw [others c' here] at same
      exact b.spawning c' daemon d same
  · by_cases here : d.name = name
    · have idle : phase = .idle := by
        rcases after with idle | ⟨service, -⟩
        · exact idle
        · have busy := free c
          dsimp only at busy
          rw [self, service, here] at busy
          exact absurd rfl busy
      rw [← idle]
      exact own d member here
    · refine (b.settled d member fun c' same => ?_).transfer (staff d member here) (table d.name here)
      by_cases moved : c' = c
      · rw [moved] at same
        rcases before with busy | ⟨idle, -⟩
        · exact here (Option.some.inj (same.symm.trans busy))
        · rw [idle] at same
          cases same
      · refine free c' ?_
        dsimp only
        rwa [others c' moved]
  · dsimp only at same ⊢
    by_cases here : c' = c
    · rw [here, self] at same ⊢
      exact own d member (mine d.name same).1
    · rw [others c' here] at same ⊢
      have apart : d.name ≠ name := by
        intro equal
        rw [equal] at same
        exact alone c' here same
      exact (b.busy d member c' same).transfer (staff d member apart) (table d.name apart)

theorem moved (own : ∀ d ∈ m.serviceDefs, d.name = name → Account m.kernel m.services d phase) :
    Books (m.setCaller c phase) :=
  b.advance before after spawning b.staffed rfl (fun d _ _ => sameStaff_refl _ d.entry) b.employed
  (fun _ _ _ => Iff.rfl)
    b.once b.defined own

end

omit b in
theorem kept (b : Books m) {kernel : Kernel} (kept : Kept m.kernel kernel) : Books { m with kernel := kernel } := by
  refine ⟨kept.staffed, b.names, b.entries, ?_, b.once, b.defined, fun r alive => ?_, b.apart, b.known, b.spawning,
    fun d member free => ?_, fun d member c same => ?_⟩
  · rw [kept.numCpus]
    exact b.harts
  · have before := (kept.live r).mp alive
    rw [(kept.same r before).2]
    exact b.employed r before
  · exact (b.settled d member free).transfer (sameStaff_kept kept d.entry) fun _ => Iff.rfl
  · exact (b.busy d member c same).transfer (sameStaff_kept kept d.entry) fun _ => Iff.rfl

theorem unused (fresh : Fresh m d) : (∀ pid, ¬ Running m.services d.name pid) ∧ NoneAlive m.kernel d.entry := by
  constructor
  · intro pid ⟨info, found, _⟩
    obtain ⟨d', member, same⟩ := b.defined info (mem_of_find?_eq_some found)
    have named : info.name = d.name := by simpa using find?_some found
    exact fresh.name d' member (same.trans named)
  · intro r alive same
    obtain ⟨d', member, entry⟩ := b.employed r alive
    exact fresh.entry d' member (entry.symm.trans same)

theorem define (fresh : Fresh m d) : Books (m.registerServiceDef d) := by
  have cases : ∀ d' ∈ m.serviceDefs ++ [d], d' ∈ m.serviceDefs ∨ d' = d :=
    fun d' member => (mem_append.mp member).imp_right mem_singleton.mp
  have old : ∀ d' ∈ m.serviceDefs, d' ∈ m.serviceDefs ++ [d] := fun d' => mem_append_left _
  have unused := b.unused fresh
  refine ⟨b.staffed, fun d₁ one d₂ two same => ?_, fun d₁ one d₂ two same => ?_, fun d' member => ?_, b.once,
    fun info member => ?_, fun r alive => ?_, b.apart, fun c name same => ?_,
    fun c daemon d' same => old d' (b.spawning c daemon d' same), fun d' member free => ?_, fun d' member c same => ?_⟩
  · rcases cases d₁ one with first | rfl <;> rcases cases d₂ two with second | rfl
    · exact b.names d₁ first d₂ second same
    · exact absurd same (fresh.name d₁ first)
    · exact absurd same.symm (fresh.name d₂ second)
    · rfl
  · rcases cases d₁ one with first | rfl <;> rcases cases d₂ two with second | rfl
    · exact b.entries d₁ first d₂ second same
    · exact absurd same (fresh.entry d₁ first)
    · exact absurd same.symm (fresh.entry d₂ second)
    · rfl
  · rcases cases d' member with first | rfl
    · exact b.harts d' first
    · exact fresh.hart
  · obtain ⟨d', present, same⟩ := b.defined info member
    exact ⟨d', old d' present, same⟩
  · obtain ⟨d', present, same⟩ := b.employed r alive
    exact ⟨d', old d' present, same⟩
  · refine (b.known c name same).imp_right fun ⟨d', present, named⟩ => ⟨d', old d' present, named⟩
  · rcases cases d' member with first | rfl
    · exact b.settled d' first free
    · exact ⟨fun pid running => absurd running (unused.1 pid), fun _ => unused.2⟩
  · rcases cases d' member with first | rfl
    · exact b.busy d' first c same
    · -- only a restart can be busy with a name that is not defined
      rcases b.known c d'.name same with starting | ⟨d'', present, named⟩
      · change Account m.kernel m.services d' (m.callers c)
        rw [starting]
        exact unused
      · exact absurd named (fresh.name d'' present)

/-- `start_service` up to the spawn, called on its own or by `restart_service`. -/
theorem start (before : m.callers c = .starting name ∨ m.callers c = .idle ∧ Free m name) :
    Books (m.startService c name) := by
  have place := before.imp_left (congrArg service)
  have account : ∀ d ∈ m.serviceDefs, d.name = name → Account m.kernel m.services d .idle := by
    intro d member named
    rcases before with starting | ⟨-, free⟩
    · have now := b.busy d member c (by rw [starting, named]; rfl)
      rw [starting] at now
      exact ⟨fun pid running => absurd running (now.1 pid), fun _ => now.2⟩
    · rw [← named] at free
      exact b.settled d member free
  unfold Manager.startService
  split
  · exact b.moved place (.inl rfl) nofun account
  · rename_i stopped
    have unrecorded : ∀ pid, ¬ Running m.services name pid := by
      rintro pid ⟨_, found, running, -⟩
      apply stopped
      rw [Manager.service, found]
      simp [running]
    split
    · exact b.moved place (.inl rfl) nofun account
    · rename_i d found
      have member := mem_of_find?_eq_some found
      have named : d.name = name := by simpa using find?_some found
      refine b.moved place (.inr ⟨congrArg some named, .inr ⟨d, member, named⟩⟩) (fun daemon d' same => ?_)
        fun d' present same => ?_
      · cases same
        exact member
      · have now := account d' present same
        rw [← same] at unrecorded
        exact ⟨unrecorded, now.2 unrecorded⟩

/-- `stop_service` up to the kill. -/
theorem stop (idle : m.callers c = .idle) (free : Free m name) (restart : Bool) :
    Books (m.stopService c name restart) := by
  have account : ∀ d ∈ m.serviceDefs, d.name = name → Account m.kernel m.services d .idle := by
    intro d member named
    rw [← named] at free
    exact b.settled d member free
  -- where it is not running, a restart goes on with the start
  have failed : (∀ pid, ¬ Running m.services name pid) →
      Books (m.setCaller c (if restart then .starting name else .idle)) := by
    intro unrecorded
    cases restart with
    | false => exact b.moved (.inr ⟨idle, free⟩) (.inl rfl) nofun account
    | true =>
      refine b.moved (.inr ⟨idle, free⟩) (.inr ⟨rfl, .inl rfl⟩) nofun fun d member named => ?_
      have now := account d member named
      rw [← named] at unrecorded
      exact ⟨unrecorded, now.2 unrecorded⟩
  unfold Manager.stopService
  cases found : m.service name with
  | none =>
    refine failed fun pid ⟨info, present, _⟩ => ?_
    cases found.symm.trans present
  | some info =>
    dsimp only
    split
    · rename_i running
      have recorded : Running m.services name info.pid := ⟨info, found, running, rfl⟩
      obtain ⟨d, member, same⟩ := b.defined info (mem_of_find?_eq_some found)
      have named : info.name = name := by simpa using find?_some found
      refine b.moved (.inr ⟨idle, free⟩) (.inr ⟨rfl, .inr ⟨d, member, same.trans named⟩⟩) nofun
        fun d' present called => ?_
      have now := (account d' present called).1 info.pid (by rw [called]; exact recorded)
      exact now
    · rename_i stopped
      refine failed fun pid ⟨info', present, running, _⟩ => ?_
      cases found.symm.trans present
      exact stopped running

theorem schedule (harts : Harts) (idle : m.callers c = .idle) (fresh : Fresh m d)
    (free : Free m d.name) : Books (m.scheduleService c harts d) := by
  set hart := d.preferredHart.getD (m.kernel.sched.findLeastLoadedCpu harts) with chosen
  have below : hart < m.kernel.sched.numCpus.val := by
    cases preferred : d.preferredHart with
    | none =>
      rw [chosen, preferred]
      exact findLeastLoadedCpu_lt m.kernel.sched harts
    | some cpu =>
      rw [chosen, preferred]
      exact fresh.hart cpu preferred
  have fresh' : Fresh m { d with preferredHart := some hart } := by
    refine ⟨fresh.name, fresh.entry, fun cpu same => ?_⟩
    cases same
    exact below
  have defined := b.define fresh'
  have member : { d with preferredHart := some hart } ∈ m.serviceDefs ++ [{ d with preferredHart := some hart }] :=
    mem_append_right _ mem_cons_self
  refine defined.moved (.inr ⟨idle, free⟩) (.inr ⟨rfl, .inr ⟨_, member, rfl⟩⟩) (fun daemon d' same => ?_)
    fun d' present same => ?_
  · cases same
    exact member
  · obtain rfl := defined.names d' present _ member same
    exact b.unused fresh'

theorem spawn {daemon : Bool} (harts : Harts)
    (phase : m.callers c = .spawning daemon d) (proper : ProperNext m numHarts (.spawning daemon d)) :
    Books ((m.setSched (m.spawnService harts numHarts daemon d).2).setCaller c
      (.registering d.name (m.spawnService harts numHarts daemon d).1 (m.targetCpu harts numHarts d))) := by
  obtain ⟨few, positive, new⟩ := proper
  have busy : (m.callers c).service = some d.name := congrArg service phase
  have member := b.spawning c daemon d phase
  have account := b.busy d member c busy
  rw [phase] at account
  have below : m.targetCpu harts numHarts d < m.kernel.sched.numCpus.val := by
    unfold Manager.targetCpu
    cases preferred : d.preferredHart with
    | none => exact getLeastLoadedHart_lt m.kernel.sched harts few
    | some cpu => exact b.harts d member cpu preferred
  have hired := b.staffed.spawn daemon harts d.name d.entry d.priority below new
  refine b.advance (.inl busy) (.inr ⟨rfl, .inr ⟨d, member, rfl⟩⟩) (by nofun) hired.staffed hired.numCpus
    (fun d' present other => ?_) (fun r alive => ?_) (fun _ _ _ => Iff.rfl) b.once b.defined fun d' present same => ?_
  · refine sameStaff_hired hired fun same => other ?_
    rw [b.entries d member d' present same]
  · rcases (hired.live r).mp alive with before | rfl
    · obtain ⟨d', present, same⟩ := b.employed r before
      exact ⟨d', present, (hired.same r before).2.trans same⟩
    · exact ⟨d, member, hired.entry⟩
  · obtain rfl := b.names d' present d member same
    refine ⟨positive, _, (hired.live _).mpr (.inr rfl), hired.entry, hired.pid, fun r alive named => ?_⟩
    rcases (hired.live r).mp alive with before | same
    · exact absurd ((hired.same r before).2.symm.trans named) (account.2 r before)
    · exact same

theorem register {pid : Pid} {hart : Nat}
    (phase : m.callers c = .registering name pid hart) :
    Books ((m.registerService name pid (some hart)).setCaller c .idle) := by
  have busy : (m.callers c).service = some name := congrArg service phase
  obtain ⟨d, member, named⟩ := (b.known c name busy).resolve_left (by simp [phase])
  obtain ⟨once, defined⟩ := names_registered b.once b.defined ⟨d, member, named⟩ pid (some hart)
  rw [registerService_eq]
  refine b.advance (.inl busy) (.inl rfl) nofun b.staffed rfl (fun d' _ _ => sameStaff_refl _ d'.entry) b.employed
    (fun other apart pid' => ?_) once defined fun d' present same => ?_
  · rw [running_registered, if_neg apart]
  · obtain rfl := b.names d' present d member (same.trans named.symm)
    have account := b.busy d' member c (by rw [busy, named])
    rw [phase] at account
    refine ⟨fun pid' running => ?_, fun none => absurd ?_ (none pid)⟩
    · rw [running_registered, if_pos named] at running
      rw [running]
      exact account
    · rw [running_registered, if_pos named]

theorem killed {pid : Pid} {restart : Bool}
    (phase : m.callers c = .killing name pid restart) (proper : ProperNext m numHarts (.killing name pid restart)) :
    Books ((if pid > 0 then m.setSched (m.kernel.sched.kill pid).2 else m).setCaller c (.marking name restart)) := by
  have busy : (m.callers c).service = some name := congrArg service phase
  obtain ⟨d, member, named⟩ := (b.known c name busy).resolve_left (by simp [phase])
  have account := b.busy d member c (by rw [busy, named])
  rw [phase] at account
  obtain ⟨positive, one⟩ := account
  rw [if_pos (UInt32.pos_iff_ne_zero.mpr positive)]
  -- the recorded process is the one that is registered under the pid
  obtain ⟨r, alive, entry, numbered, -⟩ := id one
  have found : m.kernel.sched.processes.table pid = some r := by
    rw [← numbered]
    exact b.staffed.listed r alive
  have ended := b.staffed.kill found (proper r found)
  refine b.advance (.inl busy) (.inr ⟨rfl, .inr ⟨d, member, named⟩⟩) (by nofun) ended.staffed ended.numCpus
    (fun d' present other => ?_) (fun r' alive' => ?_) (fun _ _ _ => Iff.rfl) b.once b.defined fun d' present same => ?_
  · refine sameStaff_ended ended fun same => other ?_
    rw [b.entries d' present d member (same.symm.trans entry), named]
  · obtain ⟨d', present, same⟩ := b.employed r' ((ended.live r').mp alive').1
    exact ⟨d', present, (ended.same r').2.trans same⟩
  · obtain rfl := b.names d' present d member (same.trans named.symm)
    -- the killed process was the only one of its service
    obtain ⟨_, -, -, -, only⟩ := one
    intro r' alive' named'
    obtain ⟨before, apart⟩ := (ended.live r').mp alive'
    exact apart ((only r' before ((ended.same r').2.symm.trans named')).trans (only r alive entry).symm)

theorem marked {restart : Bool} (phase : m.callers c = .marking name restart) :
    Books ((m.markServiceStopped name).setCaller c (if restart then .starting name else .idle)) := by
  have busy : (m.callers c).service = some name := congrArg service phase
  obtain ⟨once, defined⟩ := names_kept
    (names_updateFirst (fun info => info.name == name) stopInfo fun _ => rfl) b.once b.defined
  have stopped : ∀ pid, ¬ Running (m.markServiceStopped name).services name pid :=
    fun pid running => ((running_stopped m.services name name pid).mp running).1 rfl
  refine b.advance (.inl busy) ?_ ?_ b.staffed rfl (fun d' _ _ => sameStaff_refl _ d'.entry) b.employed
    (fun other apart pid => ?_) once defined fun d present same => ?_
  · cases restart with
    | false => exact .inl rfl
    | true => exact .inr ⟨rfl, .inl rfl⟩
  · cases restart <;> nofun
  · exact (running_stopped m.services name other pid).trans (and_iff_right apart)
  · have account := b.busy d present c (by rw [busy, same])
    rw [phase] at account
    rw [← same] at stopped
    rw [← same]
    cases restart with
    | false => exact ⟨fun pid running => absurd running (stopped pid), fun _ => account⟩
    | true => exact ⟨stopped, account⟩

theorem next (c : Nat) (harts : Harts) (proper : ProperNext m numHarts (m.callers c)) :
    Books (m.next c harts numHarts) := by
  unfold Manager.next
  cases phase : m.callers c with
  | idle => exact b
  | starting name => exact b.start (.inl phase)
  | spawning daemon d =>
    rw [phase] at proper
    exact b.spawn harts phase proper
  | registering name pid hart => exact b.register phase
  | killing name pid restart =>
    rw [phase] at proper
    exact b.killed phase proper
  | marking name restart => exact b.marked phase

theorem step {op : ServiceOp} {m' : Manager} (proper : Proper m op) (taken : serviceStep m op m') : Books m' := by
  obtain ⟨idle, ran⟩ := taken
  rw [← ran]
  cases op with
  | registerServiceDef d => exact b.define proper
  | schedule c harts d => exact b.schedule harts (idle c rfl) proper.1 proper.2
  | start c name => exact b.start (.inr ⟨idle c rfl, proper⟩)
  | stop c name => exact b.stop (idle c rfl) proper false
  | restart c name => exact b.stop (idle c rfl) proper true
  | next c harts numHarts => exact b.next c harts proper
  | sysKill harts pid =>
    change Books (m.sysKill harts pid)
    unfold Manager.sysKill
    split
    · exact b
    · exact b.kept (b.staffed.exit_dead harts 9 proper)
  | kill pid => exact b.kept (b.staffed.kill_dead proper)
  | stopServiceByPid pid =>
    have same : m.stopServiceByPid pid = m := by
      unfold Manager.stopServiceByPid
      rw [updateFirst_none]
      intro info member
      simpa using proper info member
    exact (congrArg Books same).mpr b
  | hartStep harts hart => exact b.kept (b.staffed.hartStep harts hart proper)

end Books

/-- **Service consistency.** In every run whose steps meet the condition, whenever nobody is in a call of the manager, a
service that is recorded as running has one live process, the recorded one, and a stopped one has none. -/
theorem service_consistency {numCpus : CpuCount} {ops : List ServiceOp} {m : Manager}
    (run : Run (guarded Proper serviceStep) (.init numCpus) ops m) (idle : ∀ caller, m.callers caller = .idle) :
    Consistent m := by
  have b : Books m := run.invariant (fun _ _ _ b taken => b.step taken.1 taken.2) (books_init numCpus)
  intro info member d present same
  have account := b.settled d present fun caller busy => by simp [idle caller, service] at busy
  have found : m.services.find? (fun info => info.name == d.name) = some info := by
    rw [same]
    cases found : m.services.find? (fun other => other.name == info.name) with
    | none => exact absurd (find?_eq_none.mp found info member) (by simp)
    | some other =>
      have named : other.name = info.name := by simpa using find?_some found
      rw [inj_on_of_nodup_map b.once (mem_of_find?_eq_some found) member named]
  constructor
  · intro running
    obtain ⟨-, r, alive, entry, numbered, only⟩ := account.1 info.pid ⟨info, found, running, rfl⟩
    exact ⟨r, alive, entry, numbered, only, b.staffed.placed r alive⟩
  · refine fun stopped => account.2 fun pid ⟨info', found', running, _⟩ => ?_
    cases found.symm.trans found'
    rw [stopped] at running
    cases running

def someService : ServiceDef := ⟨"s", 7, .normal, none⟩

def execServices (ops : List ServiceOp) : Manager := ops.foldl ServiceOp.exec (.init oneCpu)

/-- The service is scheduled at boot, picked, and marked running. -/
def booted : List ServiceOp :=
  [.schedule 0 oneReady someService, .next 0 oneReady 1, .next 0 oneReady 1, .hartStep oneReady 0, .hartStep oneReady 0]

/-- A service is scheduled at boot and has a tick. -/
theorem service_consistency_boot :
    ∃ m, Run (guarded Proper serviceStep) (.init oneCpu) (booted ++ [.hartStep oneReady 0]) m ∧
    (∀ caller, m.callers caller = .idle) ∧ Consistent m := by
  have picked : (execServices (booted.take 4)).kernel.harts 0 = .picked 0 := by decide +kernel
  have running : (execServices booted).kernel.harts 0 = .running 0 := by decide +kernel
  have daemon : ((execServices booted).kernel.sched.proc 0).isDaemon := by decide +kernel
  have fresh : Fresh (.init oneCpu) someService :=
    ⟨nofun, nofun, nofun⟩
  have free : Free (.init oneCpu) someService.name := fun caller => by simp [init, service]
  have run : Run (guarded Proper serviceStep) (.init oneCpu) (booted ++ [.hartStep oneReady 0])
      (execServices (booted ++ [.hartStep oneReady 0])) := by
    refine .cons
      ⟨⟨fresh, free⟩, fun _ _ => rfl,
      rfl⟩ (.cons ⟨⟨?_, ?_, fun r small => absurd small (Nat.not_lt_zero r)⟩, nofun, rfl⟩
      (.cons ⟨trivial, nofun, rfl⟩ (.cons ⟨nofun, nofun, rfl⟩
      (.cons ⟨fun r held => ?_, nofun, rfl⟩ (.cons ⟨fun r held => ?_, nofun, rfl⟩ (.nil _))))))
    · decide +kernel
    · decide +kernel
    · cases picked.symm.trans held
    · cases running.symm.trans held
      exact daemon
  have idle : ∀ caller, (execServices (booted ++ [.hartStep oneReady 0])).callers caller = .idle := by
    intro caller
    cases caller with
    | zero => decide +kernel
    | succ caller => rfl
  exact ⟨_, run, idle, service_consistency run idle⟩

/-- The service is defined and started, and has a tick. -/
def startedOnce : List ServiceOp :=
  [.registerServiceDef someService, .start 0 "s", .next 0 oneReady 1, .next 0 oneReady 1, .hartStep oneReady 0,
    .hartStep oneReady 0, .hartStep oneReady 0]

/-- A started service has one tick: the hart loop ends its process, and the table still has it as running. -/
theorem started_service_ends : ∃ m, Run serviceStep (.init oneCpu) startedOnce m ∧
    (∀ caller, m.callers caller = .idle) ∧ (∃ info ∈ m.services, info.name = "s" ∧ info.status = .running) ∧
    NoneAlive m.kernel someService.entry ∧ ¬ Consistent m := by
  have run : Run serviceStep (.init oneCpu) startedOnce (execServices startedOnce) :=
    .cons ⟨nofun, rfl⟩ (.cons ⟨fun _ _ => rfl, rfl⟩ (.cons ⟨nofun, rfl⟩ (.cons ⟨nofun, rfl⟩ (.cons ⟨nofun, rfl⟩
      (.cons ⟨nofun, rfl⟩ (.cons ⟨nofun, rfl⟩ (.nil _)))))))
  have recorded : (⟨"s", 1, .running, some 0⟩ : ServiceInfo) ∈ (execServices startedOnce).services := by decide +kernel
  have none : NoneAlive (execServices startedOnce).kernel someService.entry := by
    rintro r ⟨small, alive⟩
    obtain rfl := Nat.lt_one_iff.mp small
    exact absurd (by decide +kernel) alive
  refine ⟨_, run, fun caller => ?_, ⟨_, recorded, rfl, rfl⟩, none, fun consistent => ?_⟩
  · cases caller with
    | zero => decide +kernel
    | succ caller => rfl
  · obtain ⟨r, alive, entry, -⟩ := (consistent _ recorded someService (by decide +kernel) rfl).1 rfl
    exact none r alive entry

end HavyOs.Services
