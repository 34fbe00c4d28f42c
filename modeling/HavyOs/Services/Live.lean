import HavyOs.Sched.HartLoop
import HavyOs.Sched.Pinned

/-!
# The live processes of a kernel whose processes are pinned

Every service is pinned to a CPU. A process that is pinned is picked only from the run queue
of its CPU, where a zombie is passed over, so that the entries a kill leaves in the steal
deques do no harm: a thief puts them back. What can bring a killed process back is the hart
that has it at the time. Here: a hart step leaves the same processes alive, a spawn adds one,
and a kill of a process that no hart has takes one away.
-/

namespace HavyOs.Services

open Sched Function Process Scheduler

def Has (k : Kernel) (hart : Nat) (r : Ref) : Prop := k.harts hart = .picked r ∨ k.harts hart = .running r

/-- Processes are pinned, known by their pids, and a live one is in a run queue or with a hart. -/
structure Staffed (k : Kernel) : Prop where
  pinned : Pinned k.sched
  fixed : ∀ r, r < k.sched.processes.count → ∃ a, (k.sched.proc r).getCpuAffinity = some a
  pids : DistinctPids k.sched
  registered : ∀ pid r, k.sched.processes.table pid = some r → r < k.sched.processes.count ∧ (k.sched.proc r).pid = pid
  listed : ∀ r, Live k r → k.sched.processes.table (k.sched.proc r).pid = some r
  held : ∀ hart r, Has k hart r → Live k r
  placed : ∀ r, Live k r → (∃ cpu, r ∈ k.sched.queues cpu) ∨ ∃ hart, Has k hart r

theorem staffed_init (numCpus : CpuCount) : Staffed (Kernel.init numCpus) where
  pinned := .init numCpus
  fixed r small := absurd small (Nat.not_lt_zero r)
  pids r r' small := absurd small (Nat.not_lt_zero r)
  registered pid r found := absurd found (by simp [Kernel.init, init, Processes.new])
  listed r live := absurd live.1 (Nat.not_lt_zero r)
  held hart r has := absurd has (by simp [Has, Kernel.init])
  placed r live := absurd live.1 (Nat.not_lt_zero r)

/-- The same processes are alive, under the same pids and entries. -/
structure Kept (k k' : Kernel) : Prop where
  staffed : Staffed k'
  numCpus : k'.sched.numCpus = k.sched.numCpus
  live : ∀ r, Live k' r ↔ Live k r
  same : ∀ r, Live k r → (k'.sched.proc r).pid = (k.sched.proc r).pid ∧ (k'.sched.proc r).entry = (k.sched.proc r).entry

namespace Kept

variable {k k' k'' : Kernel}

theorem refl (h : Staffed k) : Kept k k := ⟨h, rfl, fun _ => Iff.rfl, fun _ _ => ⟨rfl, rfl⟩⟩

end Kept

/-- The processes of `t` are those of `s`, but for changes of state between the states of the living. -/
structure Unchanged (s t : Scheduler) : Prop where
  numCpus : t.numCpus = s.numCpus
  count : t.processes.count = s.processes.count
  table : t.processes.table = s.processes.table
  pid : ∀ r, (t.proc r).pid = (s.proc r).pid
  entry : ∀ r, (t.proc r).entry = (s.proc r).entry
  affinity : ∀ r, (t.proc r).cpuAffinity = (s.proc r).cpuAffinity
  zombie : ∀ r, (t.proc r).state = .zombie ↔ (s.proc r).state = .zombie

theorem unchanged_of_eq {s t : Scheduler} (same : t.processes = s.processes) (numCpus : t.numCpus = s.numCpus) :
    Unchanged s t := by
  obtain ⟨_, _, _, processes, _⟩ := t
  obtain rfl : processes = s.processes := same
  exact ⟨numCpus, rfl, rfl, fun _ => rfl, fun _ => rfl, fun _ => rfl, fun _ => Iff.rfl⟩

theorem unchanged_modify {s : Scheduler} {r : Ref} {change : Process → Process} (marks : Marks change)
    (zombie : (change (s.proc r)).state = .zombie ↔ (s.proc r).state = .zombie) : Unchanged s (s.modify r change) := by
  refine ⟨rfl, rfl, rfl, modify_keeps Process.pid change marks.pid s r,
    modify_keeps Process.entry change marks.entry s r, modify_keeps cpuAffinity change marks.affinity s r, fun r' => ?_⟩
  rw [proc_modify]
  split
  · rename_i same
    rw [zombie, same]
  · rfl

namespace Staffed

variable {k : Kernel}

variable (h : Staffed k)

include h

/-- A step after which the processes are the same, the harts have live ones, and no live one is lost. -/
theorem keep {k' : Kernel} (unchanged : Unchanged k.sched k'.sched) (pinned : Pinned k'.sched)
    (held : ∀ hart r, Has k' hart r → Live k r)
    (placed : ∀ r, Live k r → (∃ cpu, r ∈ k'.sched.queues cpu) ∨ ∃ hart, Has k' hart r) : Kept k k' := by
  have live : ∀ r, Live k' r ↔ Live k r := by
    intro r
    rw [Live, Live, unchanged.count, Ne, unchanged.zombie]
  refine ⟨⟨pinned, ?_, ?_, ?_, ?_, ?_, ?_⟩, unchanged.numCpus, live, fun r _ => ⟨unchanged.pid r, unchanged.entry r⟩⟩
  · intro r small
    rw [unchanged.count] at small
    rw [getCpuAffinity, unchanged.affinity]
    exact h.fixed r small
  · intro r r' small small'
    rw [unchanged.count] at small small'
    rw [unchanged.pid, unchanged.pid]
    exact h.pids r r' small small'
  · intro pid r found
    rw [unchanged.table] at found
    rw [unchanged.count, unchanged.pid]
    exact h.registered pid r found
  · intro r alive
    rw [unchanged.table, unchanged.pid]
    exact h.listed r ((live r).mp alive)
  · exact fun hart r has => (live r).mpr (held hart r has)
  · exact fun r alive => placed r ((live r).mp alive)

theorem picked (new : UInt64) (cpuId : Nat) {r : Ref}
    (returned : (k.sched.pickNextWith new cpuId).1 = some r) : Live k r := by
  rcases (pickNext_entries h.pinned.sound new cpuId).2 r returned with ⟨queued, ready⟩ | ⟨_, ⟨apart, -⟩, member, may⟩
  · refine ⟨h.pinned.known cpuId r (.inl queued), fun dead => ?_⟩
    rw [dead] at ready
    cases ready
  · obtain ⟨a, affinity⟩ := h.fixed r (h.pinned.known _ r (.inr member))
    have here := canRunOnCpu_iff.mp (h.pinned.placed _ r (.inr member)) a affinity
    exact absurd (here.symm.trans (canRunOnCpu_iff.mp may a affinity)) apart

/-- A hart in its loop moves to `phase`, which has live processes only, and what it had is in a run queue. -/
theorem moved {sched : Scheduler} {hart : Nat} {phase : HartPhase}
    (unchanged : Unchanged k.sched sched) (pinned : Pinned sched)
    (has : ∀ r, phase = .picked r ∨ phase = .running r → Live k r)
    (queues : ∀ cpu r, Live k r → r ∈ k.sched.queues cpu → r ∈ sched.queues cpu ∨ phase = .picked r)
    (had : ∀ r, Has k hart r → (∃ cpu, r ∈ sched.queues cpu) ∨ phase = .running r) :
    Kept k (({ k with sched := sched } : Kernel).setHart hart phase) := by
  have self : ∀ r, Has (({ k with sched := sched } : Kernel).setHart hart phase) hart r ↔
      phase = .picked r ∨ phase = .running r := by
    intro r
    simp only [Has, Kernel.setHart, update_self]
  have other : ∀ hart' r, hart' ≠ hart →
      (Has (({ k with sched := sched } : Kernel).setHart hart phase) hart' r ↔ Has k hart' r) := by
    intro hart' r apart
    simp only [Has, Kernel.setHart, update_of_ne apart]
  refine h.keep unchanged pinned (fun hart' r now => ?_) fun r live => ?_
  · by_cases same : hart' = hart
    · subst same
      exact has r ((self r).mp now)
    · exact h.held hart' r ((other hart' r same).mp now)
  · rcases h.placed r live with ⟨cpu, queued⟩ | ⟨hart', before⟩
    · rcases queues cpu r live queued with still | now
      · exact .inl ⟨cpu, still⟩
      · exact .inr ⟨hart, (self r).mpr (.inl now)⟩
    · by_cases same : hart' = hart
      · subst same
        rcases had r before with queued | now
        · exact .inl queued
        · exact .inr ⟨hart', (self r).mpr (.inr now)⟩
      · exact .inr ⟨hart', (other hart' r same).mpr before⟩

theorem hartStep (harts : Harts) (hart : Nat)
    (daemon : ∀ r, k.harts hart = .running r → (k.sched.proc r).isDaemon) : Kept k (k.hartStep harts hart).2 := by
  unfold Kernel.hartStep
  cases phase : k.harts hart with
  | idle =>
    have thinned := (pickNext_entries h.pinned.sound (nextRngState k.sched.rngState) hart).1
    have picks : ∀ r, _ → Live k r := fun r => h.picked (nextRngState k.sched.rngState) hart
    have stays := fun cpu r (member : r ∈ k.sched.queues cpu) =>
      stays_pickNext (nextRngState k.sched.rngState) hart member
    rw [pickNext]
    generalize k.sched.pickNextWith (nextRngState k.sched.rngState) hart = result at thinned picks stays
    obtain ⟨out, t⟩ := result
    have nothing : ∀ r, ¬ Has k hart r := fun r has => by simp [Has, phase] at has
    cases out with
    | none =>
      refine h.keep (unchanged_of_eq thinned.processes thinned.numCpus) (h.pinned.forget thinned.forgets)
        (fun hart' r => h.held hart' r) fun r live => ?_
      refine (h.placed r live).imp_left fun ⟨cpu, queued⟩ => ⟨cpu, (stays cpu r queued).resolve_right ?_⟩
      rintro ⟨r', returned, -⟩
      cases returned
    | some process =>
      refine h.moved (unchanged_of_eq thinned.processes thinned.numCpus) (h.pinned.forget thinned.forgets)
        (fun r has => ?_)
        (fun cpu r live queued => ?_) fun r has => absurd has (nothing r)
      · cases has.resolve_right (by simp)
        exact picks process rfl
      · refine (stays cpu r queued).imp_right fun ⟨r', returned, pid⟩ => ?_
        cases returned
        rw [h.pids process r (picks process rfl).1 live.1 pid]
  | picked process =>
    have live := h.held hart process (.inl phase)
    refine h.moved (unchanged_modify (.running hart) ?_)
      (h.pinned.modify process (.running hart)) (fun r has => ?_) (fun cpu r _ queued => .inl queued)
      fun r has => ?_
    · simp [markRunning, live.2]
    · cases has.resolve_left (by simp)
      exact live
    · rw [Has, phase] at has
      cases has.resolve_right (by simp)
      exact .inr rfl
  | running process =>
    have live := h.held hart process (.inr phase)
    dsimp only
    rw [if_pos (daemon process phase)]
    obtain ⟨cpu, ran, -⟩ := requeue_eq k.sched harts process
    have pinned := h.pinned.requeue harts live.1
    rw [ran] at pinned
    simp only [ran]
    refine h.moved ?_ pinned (fun r has => by simp at has) (fun other r _ queued => ?_) fun r has => ?_
    · have same := unchanged_modify (s := k.sched) (r := process) .ready (by simp [markReady, live.2])
      exact ⟨same.numCpus, same.count, same.table, same.pid, same.entry, same.affinity, same.zombie⟩
    · exact .inl (stays_pushBoth (s := k.sched.modify process markReady) queued cpu process)
    · rw [Has, phase] at has
      cases has.resolve_left (by simp)
      exact .inl ⟨cpu, enters_pushBoth _ cpu process⟩

end Staffed

/-! ## Killing -/

/-- What `kill` does with a registered process. -/
structure Killed (s t : Scheduler) (pid : Pid) (r : Ref) : Prop where
  numCpus : t.numCpus = s.numCpus
  count : t.processes.count = s.processes.count
  proc : ∀ r', t.proc r' = if r' = r then Process.markExited 137 (s.proc r) else s.proc r'
  table : ∀ other r', t.processes.table other = some r' → s.processes.table other = some r'
  others : ∀ other, other ≠ pid → t.processes.table other = s.processes.table other
  queues : ∀ cpu r', r' ∈ s.queues cpu → (s.proc r').pid ≠ pid → r' ∈ t.queues cpu

theorem killed {s : Scheduler} {pid : Pid} {r : Ref} (found : s.processes.table pid = some r) :
    Killed s (s.kill pid).2 pid r := by
  have stays : ∀ cpu r', r' ∈ s.queues cpu → (s.proc r').pid ≠ pid →
      r' ∈ ((s.modify r (markExited 137)).removeFromQueues pid).queues cpu := by
    intro cpu r' member other
    apply stays_removeFromQueues (s := s.modify r (markExited 137)) member
    rw [modify_keeps Process.pid (markExited 137) fun _ => rfl]
    exact other
  rcases kill_cases s pid with ⟨-, none⟩ | ⟨r', found', cases⟩
  · exact absurd (found.symm.trans none) (by simp)
  · cases found.symm.trans found'
    rcases cases with ⟨ran, -⟩ | ran
    · rw [ran]
      exact ⟨rfl, rfl, fun r' => proc_modify s r r' _, fun _ _ => id, fun _ _ => rfl, stays⟩
    · rw [ran]
      exact ⟨rfl, rfl, fun r' => proc_modify s r r' _, fun _ _ => of_unregister, fun _ apart => update_of_ne apart ..,
        stays⟩

/-- The process is no longer alive, and no other process is touched. -/
structure Ended (k k' : Kernel) (r : Ref) : Prop where
  staffed : Staffed k'
  numCpus : k'.sched.numCpus = k.sched.numCpus
  live : ∀ r', Live k' r' ↔ Live k r' ∧ r' ≠ r
  same : ∀ r', (k'.sched.proc r').pid = (k.sched.proc r').pid ∧ (k'.sched.proc r').entry = (k.sched.proc r').entry

namespace Staffed

variable {k : Kernel}

theorem kill (h : Staffed k) {pid : Pid} {r : Ref} (found : k.sched.processes.table pid = some r)
    (free : ∀ hart, ¬ Has k hart r) : Ended k { k with sched := (k.sched.kill pid).2 } r := by
  have change := killed found
  have pinned := h.pinned.kill pid
  generalize (k.sched.kill pid).2 = t at change pinned
  obtain ⟨small, owns⟩ := h.registered pid r found
  have same : ∀ r', (t.proc r').pid = (k.sched.proc r').pid ∧ (t.proc r').entry = (k.sched.proc r').entry ∧
      (t.proc r').cpuAffinity = (k.sched.proc r').cpuAffinity := by
    intro r'
    rw [change.proc]
    split_ifs with here
    · rw [here]
      exact ⟨rfl, rfl, rfl⟩
    · exact ⟨rfl, rfl, rfl⟩
  have live : ∀ r', Live { k with sched := t } r' ↔ Live k r' ∧ r' ≠ r := by
    intro r'
    change r' < t.processes.count ∧ (t.proc r').state ≠ .zombie ↔ _
    rw [change.count, change.proc]
    by_cases here : r' = r
    · simp [here, markExited]
    · simp [here, Live]
  -- the pid is that of the killed process alone
  have other : ∀ r', r' < k.sched.processes.count → r' ≠ r → (k.sched.proc r').pid ≠ pid := by
    intro r' small' apart equal
    exact apart (h.pids r' r small' small (equal.trans owns.symm))
  refine ⟨⟨pinned, fun r' small' => ?_, fun r' r'' small' small'' equal => ?_, fun other r' registered => ?_,
    fun r' alive => ?_, fun hart r' has => ?_, fun r' alive => ?_⟩, change.numCpus, live, fun r' =>
    ⟨(same r').1, (same r').2.1⟩⟩
  · rw [change.count] at small'
    rw [getCpuAffinity, (same r').2.2]
    exact h.fixed r' small'
  · rw [change.count] at small' small''
    rw [(same r').1, (same r'').1] at equal
    exact h.pids r' r'' small' small'' equal
  · obtain ⟨small', named⟩ := h.registered other r' (change.table other r' registered)
    exact ⟨change.count ▸ small', (same r').1.trans named⟩
  · obtain ⟨before, apart⟩ := (live r').mp alive
    rw [(same r').1, change.others _ (other r' before.1 apart)]
    exact h.listed r' before
  · refine (live r').mpr ⟨h.held hart r' has, fun equal => ?_⟩
    rw [equal] at has
    exact free hart has
  · obtain ⟨before, apart⟩ := (live r').mp alive
    refine (h.placed r' before).imp_left ?_
    rintro ⟨cpu, queued⟩
    exact ⟨cpu, change.queues cpu r' queued (other r' before.1 apart)⟩

theorem kill_dead (h : Staffed k) {pid : Pid} (dead : ∀ r, k.sched.processes.table pid = some r → ¬ Live k r) :
    Kept k { k with sched := (k.sched.kill pid).2 } := by
  cases found : k.sched.processes.table pid with
  | none =>
    have same : (k.sched.kill pid).2 = k.sched := by rw [Scheduler.kill, found]
    rw [same]
    exact .refl h
  | some r =>
    have ended := h.kill found fun hart has => dead r found (h.held hart r has)
    refine ⟨ended.staffed, ended.numCpus, fun r' => ?_, fun r' _ => ended.same r'⟩
    rw [ended.live]
    refine and_iff_left_of_imp fun alive equal => ?_
    rw [equal] at alive
    exact dead r found alive

/-- An `exit` of a process that is dead already and does not restart, or of none. -/
theorem exit_dead (h : Staffed k) (harts : Harts) {pid : Pid} (exitCode : Nat)
    (dead : ∀ r, k.sched.processes.table pid = some r → ¬ Live k r ∧ (k.sched.proc r).shouldRestart = false) :
    Kept k { k with sched := k.sched.exit harts pid exitCode } := by
  cases found : k.sched.processes.table pid with
  | none =>
    have same : k.sched.exit harts pid exitCode = k.sched := by rw [exit, found]
    rw [same]
    exact .refl h
  | some r =>
    obtain ⟨gone, stays⟩ := dead r found
    have zombie : (k.sched.proc r).state = .zombie := by
      by_contra alive
      exact gone ⟨(h.registered pid r found).1, alive⟩
    rw [exit_ends found stays]
    refine h.keep (unchanged_modify (.exited exitCode) ?_)
      (h.pinned.modify r (.exited exitCode)) h.held h.placed
    simp [markExited, zombie]

end Staffed

/-! ## Spawning -/

/-- A process with the pid and the entry was added, registered and queued. -/
structure Hired (k k' : Kernel) (pid : Pid) (entry : Nat) : Prop where
  staffed : Staffed k'
  numCpus : k'.sched.numCpus = k.sched.numCpus
  fresh : ¬ Live k k.sched.processes.count
  live : ∀ r, Live k' r ↔ Live k r ∨ r = k.sched.processes.count
  same : ∀ r, Live k r → (k'.sched.proc r).pid = (k.sched.proc r).pid ∧ (k'.sched.proc r).entry = (k.sched.proc r).entry
  pid : (k'.sched.proc k.sched.processes.count).pid = pid
  entry : (k'.sched.proc k.sched.processes.count).entry = entry

theorem Staffed.created {k : Kernel} (h : Staffed k) {t : Scheduler} {p : Process} (made : Created k.sched t p)
    {cpu : Nat} (pinned : Pinned (t.pushBoth cpu k.sched.processes.count)) (fixed : ∃ a, p.getCpuAffinity = some a)
    (alive : p.state ≠ .zombie) (fresh : ∀ r, r < k.sched.processes.count → (k.sched.proc r).pid ≠ p.pid) :
    Hired k { k with sched := t.pushBoth cpu k.sched.processes.count } p.pid p.entry := by
  have live : ∀ r, Live { k with sched := t.pushBoth cpu k.sched.processes.count } r ↔
      Live k r ∨ r = k.sched.processes.count := by
    intro r
    change r < t.processes.count ∧ (t.proc r).state ≠ .zombie ↔ _
    rw [made.present_iff]
    constructor
    · rintro ⟨before | same, living⟩
      · rw [made.old before] at living
        exact .inl ⟨before, living⟩
      · exact .inr same
    · rintro (before | rfl)
      · rw [made.old before.1]
        exact ⟨.inl before.1, before.2⟩
      · rw [made.new]
        exact ⟨.inr rfl, alive⟩
  refine ⟨⟨pinned, fun r small => ?_, made.distinctPids fresh h.pids, made.byPid h.registered, fun r living => ?_,
    fun hart r has => (live r).mpr (.inl (h.held hart r has)), fun r living => ?_⟩, made.numCpus,
    fun living => Nat.lt_irrefl _ living.1, live, fun r living => ?_, congrArg pid made.new, congrArg entry made.new⟩
  · change ∃ a, (t.proc r).getCpuAffinity = some a
    rcases made.present_iff.mp small with before | rfl
    · rw [made.old before]
      exact h.fixed r before
    · rw [made.new]
      exact fixed
  · change t.processes.table (t.proc r).pid = some r
    rw [made.table]
    rcases (live r).mp living with before | rfl
    · rw [made.old before.1, update_of_ne (fresh r before.1)]
      exact h.listed r before
    · rw [made.new, update_self]
  · rcases (live r).mp living with before | rfl
    · refine (h.placed r before).imp_left fun ⟨other, queued⟩ => ⟨other, stays_pushBoth ?_ cpu _⟩
      rwa [made.queues]
    · exact .inl ⟨cpu, enters_pushBoth t cpu _⟩
  · change (t.proc r).pid = _ ∧ (t.proc r).entry = _
    rw [made.old living.1]
    exact ⟨rfl, rfl⟩

theorem Staffed.spawn {k : Kernel} (h : Staffed k) (daemon : Bool) (harts : Harts) (name : String) (entry : Nat)
    (priority : Priority) {cpu : Nat} (below : cpu < k.sched.numCpus.val)
    (fresh : ∀ r, r < k.sched.processes.count → (k.sched.proc r).pid ≠ k.sched.processes.nextPid) :
    Hired k { k with sched := (k.sched.spawnProcess (if daemon then newDaemon else new) harts name entry
      priority (some cpu)).2 } k.sched.processes.nextPid entry := by
  have anywhere : ∀ pid name entry, ((if daemon then newDaemon else new) pid name entry).cpuAffinity = usizeMax := by
    cases daemon <;> exact fun _ _ _ => rfl
  have pinned := h.pinned.spawn anywhere harts name entry priority fun a same => Option.some.inj same ▸ below
  obtain ⟨t, target, made, ran, -⟩ :=
    spawnProcess_eq k.sched (if daemon then newDaemon else new) harts name entry priority (some cpu)
  rw [ran] at pinned ⊢
  set new := spawnedProcess (if daemon then newDaemon else new) k.sched.processes.nextPid name entry
    priority (some cpu) with process
  have fields : new.pid = k.sched.processes.nextPid ∧ new.entry = entry ∧ new.cpuAffinity = cpu ∧
      new.state = .ready := by
    cases daemon <;> exact ⟨rfl, rfl, rfl, rfl⟩
  have hired := h.created made pinned ⟨cpu, ?_⟩ (by rw [fields.2.2.2]; decide) (by rw [fields.1]; exact fresh)
  · rwa [fields.1, fields.2.1] at hired
  · have small : cpu < 128 := Nat.lt_of_lt_of_le below k.sched.numCpus.property.2
    rw [getCpuAffinity, fields.2.2.1, if_neg]
    unfold usizeMax
    omega

end HavyOs.Services
