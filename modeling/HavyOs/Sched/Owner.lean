import HavyOs.Lib.Run
import HavyOs.Sched.Entries

/-!
# The owner of a steal deque

`push` and `pop` of a `WorkStealingDeque` are for its owner only. Here the calls of the scheduler
are cut at these operations: a call that reaches one stays in it until the hart's next step, and the
other harts may do anything in between. A spawn or a requeue pushes onto the deque of whichever CPU
the process goes to, and a thief that may not run what it stole pushes it back onto its victim's
deque.
-/

namespace HavyOs.Sched

open Lib Scheduler Function

/-! ## The calls, cut at the deques -/

/-- The CPU that `enqueue` puts a process with this affinity on. -/
def Scheduler.targetCpu (s : Scheduler) (harts : Harts) (cpuAffinity : Option Nat) : Nat :=
  min (cpuAffinity.getD (s.findLeastLoadedCpu harts)) (s.numCpus - 1)

variable (new : Pid → String → Nat → Process)

inductive DequeOp where
  | none
  /-- `pick_next`, in the `pop` of its own deque. -/
  | popping
  /-- In a `push` onto the deque of `cpu`; the victims are those `pick_next` has still to look at. -/
  | pushing (cpu : Nat) (process : Ref) (victims : List Nat)
  /-- After the `push`, before the process enters the run queue. -/
  | queueing (cpu : Nat) (process : Ref) (victims : List Nat)
  /-- `pick_next`, in its loop over the victims. -/
  | stealing (victims : List Nat)
deriving DecidableEq, Repr

/-- The deque that a `push` or `pop` of the hart is in progress on. -/
def DequeOp.deque (hart : Nat) : DequeOp → Option Nat
  | .popping => some hart
  | .pushing cpu _ _ => some cpu
  | _ => Option.none

/-- A hart: the process it has picked, and what it does to the deques. -/
structure HartTask where
  current : Option Ref
  op : DequeOp
deriving DecidableEq, Repr

structure DequeUsers where
  sched : Scheduler
  harts : Nat → HartTask

variable (s : DequeUsers) (h : Nat) (harts : Harts) (process : Ref)

namespace DequeUsers

def init (numCpus : CpuCount) : DequeUsers := ⟨Scheduler.init numCpus, fun _ => ⟨none, .none⟩⟩

/-- The scheduler changes, and hart `h` is now at `task`. -/
def update (sched : Scheduler) (h : Nat) (task : HartTask) : DequeUsers :=
  ⟨sched, Function.update s.harts h task⟩

/-- `spawn_on_cpu` and `spawn_daemon_on_cpu` on hart `h`, up to the push. -/
def spawn (s : DequeUsers) (h : Nat) (harts : Harts) (name : String) (entry : Nat)
    (priority : Priority) (cpuAffinity : Option Nat) : DequeUsers :=
  let (_, r, sched) := s.sched.create new name entry priority cpuAffinity
  s.update (sched.modify r Process.markReady) h
  ⟨(s.harts h).current, .pushing (s.sched.targetCpu harts cpuAffinity) r []⟩

/-- `pick_next` on hart `h`, up to the pop or the loop over the victims. -/
def pick (new : UInt64) : DequeUsers :=
  match (s.sched.queues h).dequeue s.sched.proc with
  | (some process, queue) =>
    s.update { s.sched with queues := Function.update s.sched.queues h queue } h ⟨some process, .popping⟩
  | (none, _) =>
    if s.sched.numCpus.val ≤ 1 then s
    else
      let start := (new >>> 33).toNat % s.sched.numCpus
      s.update { s.sched with rngState := new } h
        ⟨none, .stealing ((List.range s.sched.numCpus).map fun i => (start + i) % s.sched.numCpus)⟩

/-- `requeue` of the process the hart has run, up to the push. -/
def requeue : DequeUsers :=
  s.update (s.sched.modify process Process.markReady) h
    ⟨none, .pushing (s.sched.targetCpu harts (s.sched.proc process).getCpuAffinity) process []⟩

/-- `exit` of the process the hart has run, up to the push of the one that takes its place. -/
def exit (pid : Pid) : DequeUsers :=
  let gone := s.update s.sched h ⟨none, .none⟩
  match s.sched.processes.table pid with
  | none => gone
  | some r =>
    let marked := s.update (s.sched.modify r (Process.markExited 0)) h ⟨none, .none⟩
    let process := marked.sched.proc r
    if process.shouldRestart then
      marked.spawn Process.newDaemon h harts process.name process.entry process.priority none
    else marked

/-- What `hart_loop` does with the process when its entry has returned. -/
def giveBack : DequeUsers :=
  if (s.sched.proc process).isDaemon then s.requeue h harts process
  else s.exit h harts (s.sched.proc process).pid

/-- The next step of a hart that is in a call. -/
def next : DequeUsers :=
  match (s.harts h).op with
  | .none => s
  | .popping =>
    s.update { s.sched with stealQueues := Function.update s.sched.stealQueues h (s.sched.stealQueues h).pop.2 } h
      ⟨(s.harts h).current, .none⟩
  | .pushing cpu process victims =>
    s.update { s.sched
    with stealQueues := Function.update s.sched.stealQueues cpu ((s.sched.stealQueues cpu).push process) }
      h ⟨(s.harts h).current, .queueing cpu process victims⟩
  | .queueing cpu process victims =>
    s.update { s.sched with
        queues := Function.update s.sched.queues cpu ((s.sched.queues cpu).enqueue s.sched.proc process) }
      h ⟨(s.harts h).current, .stealing victims⟩
  | .stealing [] => s.update s.sched h ⟨(s.harts h).current, .none⟩
  | .stealing (victim :: victims) =>
    if victim = h ∨ victim = 0 then s.update s.sched h ⟨(s.harts h).current, .stealing victims⟩
    else
      match (s.sched.stealQueues victim).steal with
      | (.success process, deque) =>
        let sched := { s.sched with stealQueues := Function.update s.sched.stealQueues victim deque }
        if (sched.proc process).canRunOnCpu h then
          let queue := ((sched.queues victim).remove sched.proc (sched.proc process).pid).2
          s.update { sched with queues := Function.update sched.queues victim queue } h ⟨some process, .none⟩
        else s.update sched h ⟨(s.harts h).current, .pushing victim process victims⟩
      | _ => s.update s.sched h ⟨(s.harts h).current, .stealing victims⟩

end DequeUsers

/-- What a hart does next: a call starts when the hart is in none. -/
inductive DequeAction where
  | spawn (harts : Harts) (name : String) (entry : Nat) (priority : Priority) (cpuAffinity : Option Nat)
  | spawnDaemon (harts : Harts) (name : String) (entry : Nat) (priority : Priority) (cpuAffinity : Option Nat)
  | pick (new : UInt64)
  | giveBack (harts : Harts)
  | next

/-- One step of hart `h`, if it can make it. -/
def DequeUsers.exec : DequeAction → Option DequeUsers
  | .spawn harts name entry priority cpuAffinity =>
    if (s.harts h).op = .none then some (s.spawn Process.new h harts name entry priority cpuAffinity) else none
  | .spawnDaemon harts name entry priority cpuAffinity =>
    if (s.harts h).op = .none then some (s.spawn Process.newDaemon h harts name entry priority cpuAffinity) else none
  | .pick new => if (s.harts h).op = .none ∧ (s.harts h).current = none then some (s.pick h new) else none
  | .giveBack harts =>
    if (s.harts h).op = .none then (s.harts h).current.map (s.giveBack h harts) else none
  | .next => some (s.next h)

def dequeStep (label : Nat × DequeAction) (s' : DequeUsers) : Prop :=
  label.1 < s.sched.numCpus ∧ s.exec label.1 label.2 = some s'

/-! ## The CPU a process goes to -/

theorem shortestQueue_modify (s : Scheduler) (r : Ref) (change : Process → Process) (harts : Harts) (cpus : List Nat)
    (best : Nat × Nat) : (s.modify r change).shortestQueue harts cpus best = s.shortestQueue harts cpus best := by
  induction cpus generalizing best with
  | nil => rfl
  | cons cpu cpus ih =>
    simp only [shortestQueue, ih]
    rfl

theorem targetCpu_modify (s : Scheduler) (r : Ref) (change : Process → Process) (harts : Harts)
    (cpuAffinity : Option Nat) :
    (s.modify r change).targetCpu harts cpuAffinity = s.targetCpu harts cpuAffinity := by
  simp only [targetCpu, findLeastLoadedCpu, shortestQueue_modify]
  rfl

/-! ## One owner -/

/-- Hart `h` does its own work in the step: what it spawns or gives back goes to its own CPU, and what it steals may
run on it. -/
def OwnWork : Nat × DequeAction → Prop
  | (h, .spawn harts _ _ _ cpuAffinity) => s.sched.targetCpu harts cpuAffinity = h
  | (h, .spawnDaemon harts _ _ _ cpuAffinity) => s.sched.targetCpu harts cpuAffinity = h
  | (h, .giveBack harts) => ∀ process, (s.harts h).current = some process →
    if (s.sched.proc process).isDaemon then s.sched.targetCpu harts (s.sched.proc process).getCpuAffinity = h
    else ∀ r, s.sched.processes.table (s.sched.proc process).pid = some r → (s.sched.proc r).shouldRestart →
      s.sched.targetCpu harts none = h
  | (h, .next) => ∀ victim victims, (s.harts h).op = .stealing (victim :: victims) → victim ≠ h → victim ≠ 0 →
    ∀ process deque, (s.sched.stealQueues victim).steal = (.success process, deque) →
      (s.sched.proc process).canRunOnCpu h
  | (_, .pick _) => True

/-- Every `push` and `pop` in progress is on the hart's own deque. -/
def OwnDeques : Prop := ∀ h cpu, (s.harts h).op.deque h = some cpu → cpu = h

/-- No other hart is in a `push` or `pop`. -/
def Alone (h : Nat) : Prop := ∀ other, other ≠ h → (s.harts other).op.deque other = none

/-- The condition on a step: no other hart is in a `push` or `pop`, or each is in one of its own deque and the step is
the hart's own work. -/
def Own (label : Nat × DequeAction) : Prop := Alone s label.1 ∨ OwnDeques s ∧ OwnWork s label

/-- Only hart `h` has moved; where it does its own work, it is in no `push` or `pop` but of its own deque. -/
structure Moves (s s' : DequeUsers) (h : Nat) (ownWork : Prop) : Prop where
  others : ∀ other, other ≠ h → s'.harts other = s.harts other
  own : ownWork → ∀ cpu, (s'.harts h).op.deque h = some cpu → cpu = h

variable {s s' : DequeUsers} {h : Nat}

namespace Moves

variable {ownWork : Prop} {harts : Harts}

theorem idle (none : (s.harts h).op = .none) : Moves s s h ownWork where
  others _ _ := rfl
  own _ cpu busy := by
    rw [none] at busy
    cases busy

theorem update {sched : Scheduler} {task : HartTask} (own : ownWork → ∀ cpu, task.op.deque h = some cpu → cpu = h) :
    Moves s (s.update sched h task) h ownWork where
  others _ apart := by simp only [DequeUsers.update, update_of_ne apart]
  own work cpu busy := by
    simp only [DequeUsers.update, update_self] at busy
    exact own work cpu busy

theorem after {sched : Scheduler} {task : HartTask} (later : Moves (s.update sched h task) s' h ownWork) :
    Moves s s' h ownWork where
  others other apart := by
    rw [later.others other apart]
    simp only [DequeUsers.update, update_of_ne apart]
  own := later.own

theorem spawn {cpuAffinity : Option Nat} (own : ownWork → s.sched.targetCpu harts cpuAffinity = h)
    (new : Pid → String → Nat → Process) (name : String) (entry : Nat) (priority : Priority) :
    Moves s (s.spawn new h harts name entry priority cpuAffinity) h ownWork :=
  update fun work _ busy => (Option.some.inj busy).symm.trans (own work)

theorem pick (none : (s.harts h).op = .none) (new : UInt64) : Moves s (s.pick h new) h ownWork := by
  unfold DequeUsers.pick
  split
  · exact update fun _ _ busy => (Option.some.inj busy).symm
  · split
    · exact idle none
    · exact update fun _ => nofun

theorem giveBack {process : Ref} (current : (s.harts h).current = some process) :
    Moves s (s.giveBack h harts process) h (OwnWork s (h, .giveBack harts)) := by
  unfold DequeUsers.giveBack
  split_ifs with daemon
  · refine update fun work _ busy => (Option.some.inj busy).symm.trans ?_
    have mine := work process current
    rwa [if_pos daemon] at mine
  · unfold DequeUsers.exit
    cases registered : s.sched.processes.table (s.sched.proc process).pid with
    | none => exact update fun _ => nofun
    | some r =>
      dsimp only
      split_ifs with restarts
      · have same :
          ((s.sched.modify r (Process.markExited 0)).proc r).shouldRestart = (s.sched.proc r).shouldRestart := by
          rw [proc_modify, if_pos rfl]
          rfl
        refine (spawn (fun work => ?_) _ _ _ _).after
        have mine := work process current
        rw [if_neg daemon] at mine
        rw [DequeUsers.update, targetCpu_modify]
        exact mine r registered (same.symm.trans restarts)
      · exact update fun _ => nofun

theorem next (s : DequeUsers) (h : Nat) : Moves s (s.next h) h (OwnWork s (h, .next)) := by
  unfold DequeUsers.next
  split
  · rename_i none
    exact idle none
  · exact update fun _ => nofun
  · exact update fun _ => nofun
  · exact update fun _ => nofun
  · exact update fun _ => nofun
  · rename_i victim victims op
    split_ifs with other
    · exact update fun _ => nofun
    · have apart : victim ≠ h ∧ victim ≠ 0 := not_or.mp other
      split
      · rename_i process deque stolen
        dsimp only
        split_ifs with unfit
        · exact update fun _ => nofun
        · exact update fun work => absurd (work victim victims op apart.1 apart.2 process deque stolen) unfit
      · exact update fun _ => nofun

theorem step {action : DequeAction} (taken : dequeStep s (h, action) s') : Moves s s' h (OwnWork s (h, action)) := by
  have ran := taken.2
  cases action with
  | spawn harts name entry priority cpuAffinity =>
    obtain ⟨-, started⟩ := Option.ite_none_right_eq_some.mp ran
    cases started
    exact spawn id _ _ _ _
  | spawnDaemon harts name entry priority cpuAffinity =>
    obtain ⟨-, started⟩ := Option.ite_none_right_eq_some.mp ran
    cases started
    exact spawn id _ _ _ _
  | pick new =>
    obtain ⟨free, started⟩ := Option.ite_none_right_eq_some.mp ran
    cases started
    exact pick free.1 new
  | giveBack harts =>
    obtain ⟨-, given⟩ := Option.ite_none_right_eq_some.mp ran
    obtain ⟨_, current, rfl⟩ := Option.map_eq_some_iff.mp given
    exact giveBack current
  | next =>
    cases ran
    exact next s h

end Moves

theorem Alone.step {label : Nat × DequeAction} (alone : Alone s label.1) (taken : dequeStep s label s') :
    Alone s' label.1 := by
  intro other apart
  rw [(Moves.step taken).others other apart]
  exact alone other apart

/-- After a step each hart keeps to its own deque, or one hart is alone. -/
theorem own_step {label : Nat × DequeAction} (own : Own s label) (taken : dequeStep s label s') :
    OwnDeques s' ∨ ∃ h, Alone s' h := by
  rcases own with alone | ⟨own, work⟩
  · exact .inr ⟨label.1, alone.step taken⟩
  · obtain ⟨h, action⟩ := label
    have moves := Moves.step taken
    refine .inl fun other cpu busy => ?_
    by_cases same : other = h
    · subst same
      exact moves.own work cpu busy
    · rw [moves.others other same] at busy
      exact own other cpu busy

/-- **One owner.** For every number of CPUs: where all that a hart spawns or gives back goes to its own CPU, and
thieves may run what they find, except while no other hart is in a `push` or `pop`, no two harts are in a `push` or
`pop` of the same deque. -/
theorem single_owner {numCpus : CpuCount} {labels : List (Nat × DequeAction)} {s : DequeUsers}
    (run : Run (guarded Own dequeStep) (.init numCpus) labels s) (h h' cpu : Nat)
    (first : (s.harts h).op.deque h = some cpu) (second : (s.harts h').op.deque h' = some cpu) : h = h' := by
  have kept : OwnDeques s ∨ ∃ h, Alone s h :=
    run.invariant (fun _ _ _ _ taken => own_step taken.1 taken.2) (.inl nofun)
  rcases kept with own | ⟨one, alone⟩
  · rw [← own h cpu first, ← own h' cpu second]
  · have only : ∀ other, (s.harts other).op.deque other = some cpu → other = one := by
      intro other busy
      by_contra apart
      cases (alone other apart).symm.trans busy
    rw [only h first, only h' second]

def allReady : Harts := ⟨fun _ => true, fun _ => true⟩

/-- Hart 0 spawns a process for CPU 1, and hart 1 picks it. -/
def workForOther : List (Nat × DequeAction) :=
  [(0, .spawn allReady "a" 0 .normal (some 1)), (0, .next), (0, .next), (0, .next), (1, .pick 0)]

theorem single_owner_work_for_other : ∃ s, Run (guarded Own dequeStep) (.init ⟨2, by decide⟩) workForOther s ∧
    (s.harts 1).op.deque 1 = some 1 ∧ ∀ h, (s.harts h).op.deque h = some 1 → h = 1 := by
  have alone : ∀ {s : DequeUsers} {h : Nat}, (h = 0 ∨ (s.harts 0).op.deque 0 = none) →
      (∀ n, (s.harts (n + 1)).op.deque (n + 1) = none) → Alone s h := by
    intro s h first others other apart
    cases other with
    | zero => exact first.resolve_left apart.symm
    | succ n => exact others n
  have run : Run (guarded Own dequeStep) (.init ⟨2, by decide⟩) workForOther _ :=
    .cons ⟨.inl (alone (.inl rfl) fun _ => rfl), Nat.zero_lt_two, rfl⟩
      (.cons ⟨.inl (alone (.inl rfl) fun _ => rfl), Nat.zero_lt_two, rfl⟩
      (.cons ⟨.inl (alone (.inl rfl) fun _ => rfl), Nat.zero_lt_two, rfl⟩
      (.cons ⟨.inl (alone (.inl rfl) fun _ => rfl), Nat.zero_lt_two, rfl⟩
      (.cons ⟨.inl (alone (.inr rfl) fun _ => rfl), Nat.one_lt_two, rfl⟩ (.nil _)))))
  refine ⟨_, run, ?_, fun h busy => single_owner run h 1 1 busy ?_⟩
  · decide +kernel
  · decide +kernel

/-- Harts 0 and 1 each spawn a process that is pinned to CPU 1. -/
def bothPinned : List (Nat × DequeAction) :=
  [(0, .spawn allReady "a" 0 .normal (some 1)), (1, .spawn allReady "b" 0 .normal (some 1))]

/-- Both harts are in a `push` onto the deque of CPU 1. -/
theorem two_pushes : ∃ s, Run dequeStep (.init ⟨2, by decide⟩) bothPinned s ∧
    (s.harts 0).op.deque 0 = some 1 ∧ (s.harts 1).op.deque 1 = some 1 := by
  refine ⟨_, .cons ⟨Nat.zero_lt_two, rfl⟩ (.cons ⟨Nat.one_lt_two, rfl⟩ (.nil _)), ?_, ?_⟩
  · decide +kernel
  · decide +kernel

end HavyOs.Sched
