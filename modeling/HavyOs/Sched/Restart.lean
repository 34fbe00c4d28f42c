import HavyOs.Sched.Exclusive
import HavyOs.Sched.Sane

/-!
# Daemons that restart

`exit` spawns a restartable daemon anew, without its affinity, and `kill` does not spawn it at all.
The process that was terminated is a zombie, and nothing takes it from the hart that holds it or
from a steal deque; a hart that goes on with it makes it live again.
-/

namespace HavyOs.Sched

open Lib Process Scheduler

/-! ## The daemon and its processes -/

/-- `q` is a process of the daemon that `p` is one of. -/
def OfDaemon (p q : Process) : Prop := q.isDaemon = true ∧ q.name = p.name

/-- `q` has the name, the entry, the priority and the affinity of `p`. -/
structure Like (p q : Process) : Prop where
  daemon : OfDaemon p q
  entry : q.entry = p.entry
  priority : q.priority = p.priority
  affinity : q.getCpuAffinity = p.getCpuAffinity

variable (k : Kernel)

/-- `r` is the one live process of the daemon, and it is like `p`. -/
structure Continues (k : Kernel) (p : Process) (r : Ref) : Prop where
  live : Live k r
  like : Like p (k.sched.proc r)
  only : ∀ r', Live k r' → OfDaemon p (k.sched.proc r') → r' = r

/-- The two ways a process is terminated. -/
inductive Termination where
  | exit (harts : Harts) (exitCode : Nat)
  | kill

def Termination.after (pid : Pid) : Termination → Kernel
  | .exit harts exitCode => { k with sched := k.sched.exit harts pid exitCode }
  | .kill => { k with sched := (k.sched.kill pid).2 }

def hartLoopStep (label : Harts × Fin maxHarts) (k' : Kernel) : Prop := (k.hartStep label.1 label.2).2 = k'

/-- One process is left by the call: `exit` replaces an unpinned process that is the only live one of its daemon, and
`kill` leaves the one other live process, if it is like the one that is killed. -/
def Termination.LeavesOne (r : Ref) : Termination → Prop
  | .exit _ _ => (k.sched.proc r).getCpuAffinity = none ∧ ∀ r', Live k r' →
      OfDaemon (k.sched.proc r) (k.sched.proc r') → r' = r
  | .kill => ∃ other, other ≠ r ∧ Live k other ∧ Like (k.sched.proc r) (k.sched.proc other) ∧
      ∀ r', Live k r' → OfDaemon (k.sched.proc r) (k.sched.proc r') → r' = r ∨ r' = other

/-- `r'` is a process of the daemon that is a zombie when the call returns. -/
structure Gone (k : Kernel) (r r' : Ref) : Prop where
  present : r' < k.sched.processes.count
  daemon : OfDaemon (k.sched.proc r) (k.sched.proc r')
  zombie : r' = r ∨ (k.sched.proc r').state = .zombie

/-- No hart has picked or runs a process of the daemon that is gone. -/
def Unheld (r : Ref) : Prop :=
  ∀ r', Gone k r r' → ∀ hart : Fin maxHarts, k.harts hart ≠ .picked r' ∧ k.harts hart ≠ .running r'

/-- No process of the daemon that is gone can be stolen. -/
def Unstealable (r : Ref) : Prop := ∀ r', Gone k r r' → ∀ cpu, ¬Stealable k.sched cpu r'

/-! ## The loops go on with one process -/

/-- What the hart loops keep: `r` is the one live process of the daemon, and they cannot come by another one. -/
structure Settled (k : Kernel) (p : Process) (r : Ref) : Prop where
  sane : Sane k
  distinct : DistinctPids k.sched
  continues : Continues k p r
  held : ∀ r', r' < k.sched.processes.count → OfDaemon p (k.sched.proc r') → ∀ hart : Fin maxHarts,
    k.harts hart = .picked r' ∨ k.harts hart = .running r' → r' = r
  deques : ∀ r', r' < k.sched.processes.count → OfDaemon p (k.sched.proc r') →
    ∀ cpu, Stealable k.sched cpu r' → r' = r

namespace Marks

variable {change : Process → Process}

theorem proc_kept (m : Marks change) (s : Scheduler) (r r' : Ref) :
    ((s.modify r change).proc r').pid = (s.proc r').pid ∧
    (∀ p, OfDaemon p ((s.modify r change).proc r') ↔ OfDaemon p (s.proc r')) ∧
    ∀ p, Like p ((s.modify r change).proc r') ↔ Like p (s.proc r') := by
  have daemon : ∀ p q, OfDaemon p (change q) ↔ OfDaemon p q := by
    intro p q
    rw [OfDaemon, OfDaemon, isDaemon, isDaemon, m.flags, m.name]
  have like : ∀ p q, Like p (change q) ↔ Like p q := by
    intro p q
    have affinity : (change q).getCpuAffinity = q.getCpuAffinity := by
      rw [getCpuAffinity, getCpuAffinity, m.affinity]
    constructor
    · intro like
      exact ⟨(daemon p q).mp like.daemon, (m.entry q).symm.trans like.entry, (m.priority q).symm.trans like.priority,
        affinity.symm.trans like.affinity⟩
    · intro like
      exact ⟨(daemon p q).mpr like.daemon, (m.entry q).trans like.entry, (m.priority q).trans like.priority,
        affinity.trans like.affinity⟩
  refine ⟨modify_keeps Process.pid change m.pid s r r', fun p => iff_of_eq ?_, fun p => iff_of_eq ?_⟩
  · exact modify_keeps (OfDaemon p) change (fun q => propext (daemon p q)) s r r'
  · exact modify_keeps (Like p) change (fun q => propext (like p q)) s r r'

theorem distinctPids (m : Marks change) (s : Scheduler) (r : Ref) (distinct : DistinctPids s) :
    DistinctPids (s.modify r change) := by
  intro a b presentA presentB same
  rw [(m.proc_kept s r a).1, (m.proc_kept s r b).1] at same
  exact distinct a b presentA presentB same

end Marks

namespace Settled

variable {k : Kernel} {p : Process} {r : Ref}

variable (h : Settled k p r)

include h

/-- A process that is the live one of the daemon, or none of its processes, is marked. -/
theorem modify (q : Ref) {change : Process → Process} (m : Marks change)
    (own : OfDaemon p (k.sched.proc q) → q < k.sched.processes.count → q = r ∧ ∀ p, (change p).state ≠ .zombie) :
    Settled { k with sched := k.sched.modify q change } p r := by
  have kept := m.proc_kept k.sched q
  have state : ∀ r', OfDaemon p (k.sched.proc r') → r' < k.sched.processes.count → r' ≠ r →
      ((k.sched.modify q change).proc r').state = (k.sched.proc r').state := by
    intro r' daemon present other
    rw [proc_modify, if_neg]
    intro same
    rw [same] at daemon present other
    exact other (own daemon present).1
  constructor
  · exact h.sane.modify q m
  · exact m.distinctPids k.sched q h.distinct
  · constructor
    · refine ⟨h.continues.live.1, ?_⟩
      rw [proc_modify]
      split_ifs with same
      · exact (own (same ▸ h.continues.like.daemon) (same ▸ h.continues.live.1)).2 _
      · exact h.continues.live.2
    · exact ((kept r).2.2 p).mpr h.continues.like
    · intro r' live daemon
      by_contra other
      have daemonBefore := ((kept r').2.1 p).mp daemon
      have alive : ((k.sched.modify q change).proc r').state ≠ .zombie := live.2
      rw [state r' daemonBefore live.1 other] at alive
      exact other (h.continues.only r' ⟨live.1, alive⟩ daemonBefore)
  · exact fun r' present daemon => h.held r' present (((kept r').2.1 p).mp daemon)
  · intro r' present daemon cpu member
    refine h.deques r' present (((kept r').2.1 p).mp daemon) cpu (member.before member.inDeque ?_)
    exact modify_keeps cpuAffinity change m.affinity k.sched q r'

theorem pushBoth {q : Ref} (present : q < k.sched.processes.count)
    (own : OfDaemon p (k.sched.proc q) → q = r) (cpu : Nat) :
    Settled { k with sched := k.sched.pushBoth cpu q } p r := by
  refine ⟨h.sane.pushBoth present cpu, h.distinct, ⟨h.continues.live, h.continues.like, h.continues.only⟩, h.held, ?_⟩
  intro r' known daemon other member
  rcases deque_pushBoth h.sane.sound member.inDeque with old | ⟨same, -⟩
  · exact h.deques r' known daemon other (member.before old rfl)
  · rw [same] at daemon ⊢
    exact own daemon

theorem thinned {t : Scheduler} (change : Thinned k.sched t) : Settled { k with sched := t } p r := by
  have sane := h.sane.forget change.forgets
  have deques := change.deques
  obtain ⟨_, _, _, processes, _⟩ := t
  obtain rfl : processes = k.sched.processes := change.processes
  exact ⟨sane, h.distinct, ⟨h.continues.live, h.continues.like, h.continues.only⟩, h.held,
    fun r' present daemon cpu member =>
      h.deques r' present daemon cpu (member.before (deques cpu r' member.inDeque) rfl)⟩

theorem setHart (hart : Nat) {phase : HartPhase}
    (present : ∀ q, phase = .picked q ∨ phase = .running q → q < k.sched.processes.count ∧
    (OfDaemon p (k.sched.proc q) → q = r)) :
    Settled (k.setHart hart phase) p r := by
  refine ⟨h.sane.setHart hart fun q held => (present q held).1, h.distinct,
    ⟨h.continues.live, h.continues.like, h.continues.only⟩, fun r' known daemon other held => ?_, h.deques⟩
  rcases k.harts_setHart hart phase other with new | old
  · exact (present r' (new ▸ held)).2 daemon
  · exact h.held r' known daemon other (old ▸ held)

/-- `pickNext` returns the live process of the daemon, or none of its processes. -/
theorem pickNext (new : UInt64) (cpuId : Nat) :
    ∀ q, (k.sched.pickNextWith new cpuId).1 = some q →
      q < k.sched.processes.count ∧ (OfDaemon p (k.sched.proc q) → q = r) := by
  intro q picked
  obtain ⟨-, returned⟩ := pickNext_entries h.sane.sound new cpuId
  have present := (h.sane.pickNext new cpuId).2 q picked
  refine ⟨present, fun daemon => ?_⟩
  rcases returned q picked with ⟨-, ready⟩ | ⟨victim, ⟨apart, notZero⟩, member, may⟩
  · refine h.continues.only q ⟨present, fun zombie => ?_⟩ daemon
    rw [zombie] at ready
    cases ready
  · exact h.deques q present daemon victim ⟨notZero, member, cpuId, apart.symm, may⟩

theorem hartStep (harts : Harts) (hart : Fin maxHarts) : Settled (k.hartStep harts hart).2 p r := by
  unfold Kernel.hartStep
  cases phase : k.harts hart with
  | idle =>
    have left := h.thinned (pickNext_entries h.sane.sound (nextRngState k.sched.rngState) hart).1
    have same := (pickNext_entries h.sane.sound (nextRngState k.sched.rngState) hart).1.processes
    have own := h.pickNext (nextRngState k.sched.rngState) hart
    rw [Scheduler.pickNext]
    generalize k.sched.pickNextWith (nextRngState k.sched.rngState) hart = result at left same own
    obtain ⟨out, t⟩ := result
    cases out with
    | none => exact left
    | some process =>
      refine left.setHart hart fun q held => ?_
      cases held.resolve_right (by simp)
      change process < t.processes.count ∧ (OfDaemon p (t.processes.proc process) → process = r)
      rw [same]
      exact own process rfl
  | picked process =>
    have present := h.sane.held hart process (.inl phase)
    have own : OfDaemon p (k.sched.proc process) → process = r :=
      fun daemon => h.held process present daemon hart (.inl phase)
    have marked := h.modify process (.running hart) fun daemon _ => ⟨own daemon, by simp [markRunning]⟩
    refine marked.setHart hart fun q held => ?_
    cases held.resolve_left (by simp)
    exact ⟨present, fun daemon => own ((((Marks.running hart).proc_kept k.sched process process).2.1 p).mp daemon)⟩
  | running process =>
    have present := h.sane.held hart process (.inr phase)
    have own : OfDaemon p (k.sched.proc process) → process = r :=
      fun daemon => h.held process present daemon hart (.inr phase)
    dsimp only
    split_ifs with oneShot
    · obtain ⟨cpu, ran, -⟩ := requeue_eq k.sched harts process
      have marked := h.modify process .ready fun daemon _ => ⟨own daemon, by simp [markReady]⟩
      rw [ran]
      refine (marked.pushBoth present (fun daemon => own ?_) cpu).setHart hart (by simp)
      exact ((Marks.ready.proc_kept k.sched process process).2.1 p).mp daemon
    · refine setHart ?_ hart (by simp)
      cases found : k.sched.processes.table (k.sched.proc process).pid with
      | none =>
        have nothing : k.sched.exit harts (k.sched.proc process).pid 0 = k.sched := by rw [exit, found]
        rw [nothing]
        exact h
      | some q =>
        obtain ⟨presentQ, pid⟩ := h.sane.registered _ q found
        obtain rfl := h.distinct q process presentQ present pid
        have ends : (k.sched.proc q).shouldRestart = false := by
          by_contra restarts
          exact oneShot (h.sane.flags q present (by simpa using restarts))
        rw [exit_ends found ends]
        exact h.modify q (.exited 0) fun daemon _ => absurd daemon.1 oneShot

theorem run {steps : List (Harts × Fin maxHarts)} {k' : Kernel} (taken : Run hartLoopStep k steps k') :
    Settled k' p r :=
  taken.invariant (I := fun k => Settled k p r) (fun _ label _ settled step => step ▸ settled.hartStep label.1 label.2)
    h

end Settled

/-! ## The call -/

section Call

variable {k : Kernel} {pid : Pid} {r : Ref}

/-- What the call does to the processes that there were. -/
structure Terminated (k k' : Kernel) (r : Ref) : Prop where
  harts : k'.harts = k.harts
  grows : k.sched.processes.count ≤ k'.sched.processes.count
  other : ∀ r', r' < k.sched.processes.count → r' ≠ r → k'.sched.proc r' = k.sched.proc r'
  zombie : (k'.sched.proc r).state = .zombie
  daemon : ∀ p, OfDaemon p (k'.sched.proc r) ↔ OfDaemon p (k.sched.proc r)
  affinity : (k'.sched.proc r).cpuAffinity = (k.sched.proc r).cpuAffinity

namespace Terminated

variable {k' : Kernel} (h : Terminated k k' r)

include h

theorem live_iff {r' : Ref} (before : r' < k.sched.processes.count) : Live k' r' ↔ r' ≠ r ∧ Live k r' := by
  constructor
  · intro live
    have different : r' ≠ r := fun same => live.2 (same ▸ h.zombie)
    refine ⟨different, before, ?_⟩
    rw [← h.other r' before different]
    exact live.2
  · rintro ⟨different, live⟩
    refine ⟨Nat.lt_of_lt_of_le before h.grows, ?_⟩
    rw [h.other r' before different]
    exact live.2

theorem ofDaemon_iff {r' : Ref} (before : r' < k.sched.processes.count) (p : Process) :
    OfDaemon p (k'.sched.proc r') ↔ OfDaemon p (k.sched.proc r') := by
  by_cases same : r' = r
  · rw [same]
    exact h.daemon p
  · rw [h.other r' before same]

theorem cpuAffinity_eq {r' : Ref} (before : r' < k.sched.processes.count) :
    (k'.sched.proc r').cpuAffinity = (k.sched.proc r').cpuAffinity := by
  by_cases same : r' = r
  · rw [same]
    exact h.affinity
  · rw [h.other r' before same]

theorem zombie_of_gone {z : Ref} (gone : Gone k r z) : (k'.sched.proc z).state = .zombie := by
  by_cases same : z = r
  · rw [same]
    exact h.zombie
  · rw [h.other z gone.present same]
    exact gone.zombie.resolve_left same

end Terminated

variable {p : Process} {u : Ref} {k' : Kernel}

/-- **A hart makes the zombie that it holds live again.** -/
theorem unheld_of_continues {z : Ref} (continues : Continues k p u) (present : z < k.sched.processes.count)
    (zombie : (k.sched.proc z).state = .zombie) (daemon : OfDaemon p (k.sched.proc z))
    (goesOn : ∀ steps k', Run hartLoopStep k steps k' → ∃ r', Continues k' p r') (hart : Fin maxHarts) :
    k.harts hart ≠ .picked z ∧ k.harts hart ≠ .running z := by
  have different : u ≠ z := fun same => continues.live.2 (same ▸ zombie)
  -- after the step both are live
  have both : ∀ {change : Process → Process} {k' : Kernel}, Marks change → (∀ p, (change p).state ≠ .zombie) →
      k'.sched.processes = k.sched.processes.modify z change → ¬∃ r', Continues k' p r' := by
    intro change k' marks alive processes
    have proc : ∀ r', k'.sched.proc r' = (k.sched.modify z change).proc r' := by
      intro r'
      rw [proc, processes]
      rfl
    have count : k'.sched.processes.count = k.sched.processes.count := by
      rw [processes]
      rfl
    rintro ⟨u, one⟩
    refine different ((one.only _ ⟨?_, ?_⟩ ?_).trans (one.only _ ⟨?_, ?_⟩ ?_).symm)
    · rw [count]
      exact continues.live.1
    · rw [proc, proc_modify, if_neg different]
      exact continues.live.2
    · rw [proc, proc_modify, if_neg different]
      exact continues.like.daemon
    · rw [count]
      exact present
    · rw [proc, proc_modify, if_pos rfl]
      exact alive _
    · rw [proc]
      exact ((marks.proc_kept k.sched z z).2.1 p).mpr daemon
  constructor
  · intro held
    have stepped : hartLoopStep k (oneReady, hart)
        ({ k with sched := k.sched.modify z (markRunning hart) }.setHart hart (.running z)) := by
      rw [hartLoopStep, Kernel.hartStep, held]
    exact both (.running hart) (by simp [markRunning]) rfl (goesOn _ _ (.cons stepped (.nil _)))
  · intro held
    have stepped :
        hartLoopStep k (oneReady, hart) ({ k with sched := k.sched.requeue oneReady z }.setHart hart .idle) := by
      rw [hartLoopStep, Kernel.hartStep, held]
      simp [daemon.1]
    exact both .ready (by simp [markReady]) rfl (goesOn _ _ (.cons stepped (.nil _)))

/-- The processes of a state that `exit` leaves. -/
structure Spawned (k k' : Kernel) (r : Ref) : Prop where
  count : k'.sched.processes.count = k.sched.processes.count + 1
  fresh : k'.sched.proc k.sched.processes.count = spawnedProcess Process.newDaemon k.sched.processes.nextPid
    (k.sched.proc r).name (k.sched.proc r).entry (k.sched.proc r).priority none
  distinct : FreshPid k.sched → DistinctPids k.sched → DistinctPids k'.sched
  deques : Sane k → ∀ cpu r', InDeque k'.sched cpu r' → InDeque k.sched cpu r' ∨ r' = k.sched.processes.count

theorem Spawned.live (spawned : Spawned k k' r) : Live k' k.sched.processes.count := by
  constructor
  · rw [spawned.count]
    exact Nat.lt_succ_self _
  · rw [spawned.fresh]
    exact (by decide : ProcessState.ready ≠ .zombie)

theorem Spawned.ofDaemon (spawned : Spawned k k' r) :
    OfDaemon (k.sched.proc r) (k'.sched.proc k.sched.processes.count) := by
  rw [spawned.fresh]
  exact ⟨rfl, rfl⟩

theorem settled_of_gone (ended : Terminated k k' r) (continues : Continues k' (k.sched.proc r) u) (sane : Sane k')
    (distinct : DistinctPids k'.sched)
    (before : ∀ z, z < k'.sched.processes.count → z ≠ u → z < k.sched.processes.count)
    (deques : ∀ cpu z, InDeque k'.sched cpu z → InDeque k.sched cpu z ∨ z = u) (unheld : Unheld k r)
    (unstealable : Unstealable k r) : Settled k' (k.sched.proc r) u := by
  have gone : ∀ z, z < k'.sched.processes.count → OfDaemon (k.sched.proc r) (k'.sched.proc z) → z ≠ u → Gone k r z := by
    intro z present daemon other
    have old := before z present other
    refine ⟨old, (ended.ofDaemon_iff old _).mp daemon, ?_⟩
    by_contra alive
    obtain ⟨different, state⟩ := not_or.mp alive
    exact other (continues.only z ((ended.live_iff old).mpr ⟨different, old, state⟩) daemon)
  refine ⟨sane, distinct, continues, fun z present daemon hart held => ?_, fun z present daemon cpu member => ?_⟩
  · by_contra other
    rw [ended.harts] at held
    have free := unheld z (gone z present daemon other) hart
    exact held.elim free.1 free.2
  · by_contra other
    have was := gone z present daemon other
    have old := (deques cpu z member.inDeque).resolve_right other
    exact unstealable z was cpu (member.before old (ended.cpuAffinity_eq was.present))

/-- The process is marked, and others may have been added. -/
theorem terminated_of_marked {t : Scheduler} (present : r < k.sched.processes.count) (exitCode : Nat)
    (grows : k.sched.processes.count ≤ t.processes.count)
    (old : ∀ r', r' < k.sched.processes.count → t.proc r' = (k.sched.modify r (markExited exitCode)).proc r') :
    Terminated k { k with sched := t } r := by
  refine ⟨rfl, grows, fun r' before different => ?_, ?_, fun p => ?_, ?_⟩
  · rw [old r' before, proc_modify, if_neg different]
  · rw [old r present, proc_modify, if_pos rfl]
    rfl
  · rw [old r present]
    exact ((Marks.exited exitCode).proc_kept k.sched r r).2.1 p
  · rw [old r present, proc_modify, if_pos rfl]
    rfl

variable (found : k.sched.processes.table pid = some r) (restarts : (k.sched.proc r).shouldRestart = true)

include found restarts

theorem exit_spawns
    (harts : Harts) (exitCode : Nat) :
    ∃ t cpu, Created (k.sched.modify r (markExited exitCode)) t
        (spawnedProcess newDaemon k.sched.processes.nextPid (k.sched.proc r).name (k.sched.proc r).entry
          (k.sched.proc r).priority none) ∧
      Termination.after k pid (.exit harts exitCode) = { k with sched := t.pushBoth cpu k.sched.processes.count } := by
  obtain ⟨t, cpu, made, ran, -⟩ := spawnProcess_eq (k.sched.modify r (markExited exitCode)) newDaemon harts
    (k.sched.proc r).name (k.sched.proc r).entry (k.sched.proc r).priority none
  refine ⟨t, cpu, made, ?_⟩
  rw [Termination.after, exit_restarts found restarts, ran]
  rfl

theorem terminated_exit (present : r < k.sched.processes.count) (harts : Harts) (exitCode : Nat) :
    Terminated k (Termination.after k pid (.exit harts exitCode)) r := by
  obtain ⟨t, _, made, ran⟩ := exit_spawns found restarts harts exitCode
  rw [ran]
  refine terminated_of_marked present exitCode ?_ fun r' before => made.old before
  change k.sched.processes.count ≤ t.processes.count
  rw [made.count]
  exact Nat.le_succ _

theorem terminated_kill (present : r < k.sched.processes.count) : Terminated k (Termination.after k pid .kill) r := by
  rw [Termination.after, kill_restarts found restarts]
  exact terminated_of_marked present 137 (Nat.le_refl _) fun _ _ => rfl

theorem terminated (present : r < k.sched.processes.count) (call : Termination) :
    Terminated k (call.after k pid) r := by
  cases call with
  | exit harts exitCode => exact terminated_exit found restarts present harts exitCode
  | kill => exact terminated_kill found restarts present

theorem spawned_exit
    (harts : Harts) (exitCode : Nat) : Spawned k (Termination.after k pid (.exit harts exitCode)) r := by
  obtain ⟨t, _, made, ran⟩ := exit_spawns found restarts harts exitCode
  rw [ran]
  constructor
  · exact made.count
  · exact made.new
  · intro fresh distinct
    have marks := Marks.exited exitCode
    have apart := made.distinctPids (fun a before => ?_) (marks.distinctPids k.sched r distinct)
    · exact apart
    · rw [(marks.proc_kept k.sched r a).1]
      exact fresh a before
  · intro sane other r' member
    rcases deque_pushBoth (made.sound sane.sound) member with old | ⟨same, -⟩
    · exact .inl (made.inDeque old)
    · exact .inr same

/-- After `exit` one process is left exactly when the old one was not pinned and the only one. -/
theorem exit_continues_iff (sane : Sane k) (harts : Harts) (exitCode : Nat) :
    (∃ u, Continues (Termination.after k pid (.exit harts exitCode)) (k.sched.proc r) u) ↔
      Termination.LeavesOne k r (.exit harts exitCode) := by
  have ended := terminated_exit found restarts (sane.registered pid r found).1 harts exitCode
  have spawned := spawned_exit found restarts harts exitCode
  constructor
  · rintro ⟨u, continues⟩
    obtain rfl := continues.only _ spawned.live spawned.ofDaemon
    constructor
    · have affinity := continues.like.affinity
      rw [spawned.fresh] at affinity
      exact affinity.symm
    · intro r' alive ofDaemon
      by_contra different
      have same :=
        continues.only r' ((ended.live_iff alive.1).mpr ⟨different, alive⟩)
        ((ended.ofDaemon_iff alive.1 _).mpr ofDaemon)
      exact absurd alive.1 (by rw [same]; exact Nat.lt_irrefl _)
  · rintro ⟨unpinned, alone⟩
    refine ⟨k.sched.processes.count, spawned.live, ?_, fun r' alive ofDaemon => ?_⟩
    · rw [spawned.fresh]
      exact ⟨⟨rfl, rfl⟩, rfl, rfl, unpinned.symm⟩
    · have present := alive.1
      rw [spawned.count] at present
      rcases Nat.lt_or_eq_of_le (Nat.le_of_lt_succ present) with before | same
      · obtain ⟨different, aliveBefore⟩ := (ended.live_iff before).mp alive
        exact absurd (alone r' aliveBefore ((ended.ofDaemon_iff before _).mp ofDaemon)) different
      · exact same

/-- After `kill` one process is left exactly when there was one other that is like the killed one. -/
theorem kill_continues_iff (present : r < k.sched.processes.count) :
    (∃ u, Continues (Termination.after k pid .kill) (k.sched.proc r) u) ↔ Termination.LeavesOne k r .kill := by
  have ended := terminated_kill found restarts present
  have count : (Termination.after k pid .kill).sched.processes.count = k.sched.processes.count := by
    rw [Termination.after, kill_restarts found restarts]
    rfl
  constructor
  · rintro ⟨u, continues⟩
    have before : u < k.sched.processes.count := count ▸ continues.live.1
    obtain ⟨different, alive⟩ := (ended.live_iff before).mp continues.live
    refine ⟨u, different, alive, ?_, fun r' aliveOther ofDaemon => ?_⟩
    · rw [← ended.other u before different]
      exact continues.like
    · by_cases same : r' = r
      · exact .inl same
      · exact .inr (continues.only r' ((ended.live_iff aliveOther.1).mpr ⟨same, aliveOther⟩)
          ((ended.ofDaemon_iff aliveOther.1 _).mpr ofDaemon))
  · rintro ⟨u, different, alive, like, alone⟩
    refine ⟨u, (ended.live_iff alive.1).mpr ⟨different, alive⟩, ?_, fun r' aliveAfter ofDaemon => ?_⟩
    · rw [ended.other u alive.1 different]
      exact like
    · have before : r' < k.sched.processes.count := count ▸ aliveAfter.1
      obtain ⟨other, aliveBefore⟩ := (ended.live_iff before).mp aliveAfter
      exact (alone r' aliveBefore ((ended.ofDaemon_iff before _).mp ofDaemon)).resolve_left other

theorem continues_iff (sane : Sane k) (call : Termination) :
    (∃ u, Continues (call.after k pid) (k.sched.proc r) u) ↔ call.LeavesOne k r := by
  cases call with
  | exit harts exitCode => exact exit_continues_iff found restarts sane harts exitCode
  | kill => exact kill_continues_iff found restarts (sane.registered pid r found).1

theorem settled_after (sane : Sane k) (distinct : DistinctPids k.sched) (fresh : FreshPid k.sched)
    (unheld : Unheld k r) (unstealable : Unstealable k r) (call : Termination)
    (continues : Continues (call.after k pid) (k.sched.proc r) u) : Settled (call.after k pid) (k.sched.proc r) u := by
  have ended := terminated found restarts (sane.registered pid r found).1 call
  cases call with
  | exit harts exitCode =>
    have saneAfter : Sane (Termination.after k pid (.exit harts exitCode)) := sane.exit harts pid exitCode
    have spawned := spawned_exit found restarts harts exitCode
    -- the spawned process is the one that is left
    obtain rfl := continues.only _ spawned.live spawned.ofDaemon
    refine settled_of_gone ended continues saneAfter (spawned.distinct fresh distinct) (fun z present different => ?_)
      (spawned.deques sane) unheld unstealable
    rw [spawned.count] at present
    omega
  | kill =>
    have saneAfter : Sane (Termination.after k pid .kill) := sane.kill pid
    rw [Termination.after, kill_restarts found restarts] at ended saneAfter continues ⊢
    exact settled_of_gone ended continues saneAfter ((Marks.exited 137).distinctPids k.sched r distinct)
      (fun _ present _ => present) (fun _ _ => .inl) unheld unstealable

end Call

/-- **When a terminated daemon goes on as one process.** In every state that operations lead to, for every process of
a daemon that restarts, none of whose processes that are gone can be stolen: after the call and any
number of steps of the hart loops there is one live process of the daemon, like the terminated one, exactly when the
call leaves one and no hart holds a process that is gone. Pids are not reused. -/
theorem daemon_goes_on_iff {numCpus : CpuCount} {labels : List (KernelOp × Option Ref)} {k : Kernel}
    (reached : Run kernelStep (Kernel.init numCpus) labels k) {pid : Pid} {r : Ref}
    (found : k.sched.processes.table pid = some r)
    (restarts : (k.sched.proc r).shouldRestart = true) (distinct : DistinctPids k.sched) (fresh : FreshPid k.sched)
    (unstealable : Unstealable k r) (call : Termination) :
    (∀ steps k', Run hartLoopStep (call.after k pid) steps k' → ∃ u, Continues k' (k.sched.proc r) u) ↔
      call.LeavesOne k r ∧ Unheld k r := by
  have sane := sane_of_run reached
  have ended := terminated found restarts (sane.registered pid r found).1 call
  constructor
  · intro goesOn
    obtain ⟨u, continues⟩ := goesOn [] _ (.nil _)
    refine ⟨(continues_iff found restarts sane call).mp ⟨u, continues⟩, fun z gone hart => ?_⟩
    have held := unheld_of_continues continues (Nat.lt_of_lt_of_le gone.present ended.grows) (ended.zombie_of_gone gone)
      ((ended.ofDaemon_iff gone.present _).mpr gone.daemon) goesOn hart
    rwa [ended.harts] at held
  · rintro ⟨leaves, unheld⟩ steps k' taken
    obtain ⟨u, continues⟩ := (continues_iff found restarts sane call).mpr leaves
    have settled := settled_after found restarts sane distinct fresh unheld unstealable call continues
    exact ⟨u, (settled.run taken).continues⟩

/-- One hart, and a daemon in its queue. -/
def queuedDaemon : Kernel := (KernelOp.exec (Kernel.init oneCpu) (.call (.spawnDaemon oneReady "d" 0 .normal none))).2

theorem queuedDaemon_reached : Run kernelStep (Kernel.init oneCpu)
    [(.call (.spawnDaemon oneReady "d" 0 .normal none), none)] queuedDaemon :=
  .cons ⟨trivial, rfl⟩ (.nil _)

theorem queuedDaemon_only (present : r < queuedDaemon.sched.processes.count) : r = 0 :=
  Nat.lt_one_iff.mp present

theorem daemon_goes_on_iff_queued : ∃ labels, Run kernelStep (Kernel.init oneCpu) labels queuedDaemon ∧
    queuedDaemon.sched.processes.table 1 = some 0 ∧ (queuedDaemon.sched.proc 0).shouldRestart = true ∧
    DistinctPids queuedDaemon.sched ∧ FreshPid queuedDaemon.sched ∧ Unstealable queuedDaemon 0 ∧
    ((∀ steps k', Run hartLoopStep (Termination.after queuedDaemon 1 (.exit oneReady 0)) steps k' →
        ∃ u, Continues k' (queuedDaemon.sched.proc 0) u) ↔
      Termination.LeavesOne queuedDaemon 0 (.exit oneReady 0) ∧ Unheld queuedDaemon 0) := by
  have found : queuedDaemon.sched.processes.table 1 = some 0 := by decide +kernel
  have restarts : (queuedDaemon.sched.proc 0).shouldRestart = true := by decide +kernel
  have distinct : DistinctPids queuedDaemon.sched := by
    intro a b presentA presentB _
    rw [queuedDaemon_only presentA, queuedDaemon_only presentB]
  have fresh : FreshPid queuedDaemon.sched := by
    intro a present
    rw [queuedDaemon_only present]
    decide +kernel
  have unstealable : Unstealable queuedDaemon 0 := by
    intro z _ cpu stealable
    cases cpu with
    | zero => exact stealable.notZero rfl
    | succ cpu => exact List.not_mem_nil stealable.inDeque
  exact ⟨_, queuedDaemon_reached, found, restarts, distinct, fresh, unstealable,
    daemon_goes_on_iff queuedDaemon_reached found restarts distinct fresh unstealable (.exit oneReady 0)⟩

/-- **A daemon that is killed in its queue does not come back.** -/
theorem killed_daemon_gone : ∃ labels, Run kernelStep (Kernel.init oneCpu) labels queuedDaemon ∧
    queuedDaemon.sched.processes.table 1 = some 0 ∧ (queuedDaemon.sched.proc 0).shouldRestart = true ∧
    (queuedDaemon.sched.proc 0).state = .ready ∧
    ¬∃ u, Continues (Termination.after queuedDaemon 1 .kill) (queuedDaemon.sched.proc 0) u := by
  refine ⟨_, queuedDaemon_reached, by decide +kernel, by decide +kernel, by decide +kernel, ?_⟩
  rintro ⟨u, continues⟩
  have count : (Termination.after queuedDaemon 1 .kill).sched.processes.count = 1 := by decide +kernel
  have only : u = 0 := Nat.lt_one_iff.mp (count ▸ continues.live.1)
  have zombie : ((Termination.after queuedDaemon 1 .kill).sched.proc 0).state = .zombie := by decide +kernel
  exact continues.live.2 (only ▸ zombie)

end HavyOs.Sched
