import HavyOs.Sched.Sane

/-!
# Killed processes stay dead

`kill` and `exit` mark a process as a zombie, but they do not take back the references that others
hold to it: an entry in a steal deque, the reference of a hart that has picked it or runs it as a
daemon, and its pid in a wait queue. Each of these is later used without a look at the state, and
every change of the state is unconditional, so the process is ready or running again.
-/

namespace HavyOs.Sched

open Lib List Process Scheduler

variable (k : Kernel)

def Dead (r : Ref) : Prop := r < k.sched.processes.count ∧ (k.sched.proc r).state = .zombie

/-- Nothing refers to the process that is registered under `pid` and would use it without a look at its state: no
entry that can be stolen, no hart that has picked it or runs it as a daemon, and no wait queue. -/
structure Detached (k : Kernel) (pid : Pid) (r : Ref) : Prop where
  deques : ∀ cpu, ¬ Stealable k.sched cpu r
  picked : ∀ hart, k.harts hart ≠ .picked r
  running : ∀ hart, k.harts hart = .running r → ¬ (k.sched.proc r).isDaemon
  waits : ∀ queue, ∀ waiter ∈ k.waitQueues queue, waiter.pid ≠ pid

/-- The process registered under `pid`, if any, is detached. -/
def DetachedPid (pid : Pid) : Prop := ∀ r, k.sched.processes.table pid = some r → Detached k pid r

/-- The condition on an operation: a process that is killed or exits is detached, and no zombie is given back, marked
running or made to wait. -/
def Careful : KernelOp → Prop
  | .call (.requeue _ process) => (k.sched.proc process).state ≠ .zombie
  | .call (.markRunning process _) => (k.sched.proc process).state ≠ .zombie
  | .call (.exit _ pid _) => DetachedPid k pid
  | .kill pid => DetachedPid k pid
  | .hartStep _ hart => ∀ process, k.harts hart = .running process → ¬ (k.sched.proc process).isDaemon →
    DetachedPid k (k.sched.proc process).pid
  | .wait _ waiter => ∀ r, k.sched.processes.table waiter.pid = some r → (k.sched.proc r).state ≠ .zombie
  | _ => True

/-- No reference that is used without a look at the state is to a zombie. -/
structure Buried (k : Kernel) : Prop extends Sane k where
  deques : ∀ cpu r, Stealable k.sched cpu r → (k.sched.proc r).state ≠ .zombie
  picked : ∀ hart r, k.harts hart = .picked r → (k.sched.proc r).state ≠ .zombie
  running : ∀ hart r, k.harts hart = .running r → (k.sched.proc r).isDaemon → (k.sched.proc r).state ≠ .zombie
  waits : ∀ queue, ∀ waiter ∈ k.waitQueues queue, ∀ r, k.sched.processes.table waiter.pid = some r →
    (k.sched.proc r).state ≠ .zombie

theorem buried_init (numCpus : CpuCount) : Buried (Kernel.init numCpus) where
  toSane := sane_init numCpus
  deques cpu r member := absurd (.inr member.inDeque) (no_entry_init numCpus cpu r)
  picked hart r held := absurd held (by simp [Kernel.init])
  running hart r held := absurd held (by simp [Kernel.init])
  waits queue waiter member := absurd member not_mem_nil

/-- The later state is as it should be, and the dead are still dead. -/
structure Follows (k k' : Kernel) : Prop where
  buried : Buried k'
  dead : ∀ r, Dead k r → Dead k' r

namespace Follows

variable {k k' k'' : Kernel}

theorem refl (h : Buried k) : Follows k k := ⟨h, fun _ => id⟩

theorem trans (first : Follows k k') (second : Follows k' k'') : Follows k k'' :=
  ⟨second.buried, fun r dead => second.dead r (first.dead r dead)⟩

end Follows

/-! ## One access at a time -/

namespace Buried

variable {k : Kernel} {r : Ref} {pid : Pid} {t : Scheduler}

variable (h : Buried k)

include h

theorem revive (alive : (k.sched.proc r).state ≠ .zombie) {change : Process → Process}
    (marks : Marks change) (state : ∀ p, (change p).state ≠ .zombie) :
    Follows k { k with sched := k.sched.modify r change } := by
  have live : ∀ r', (k.sched.proc r').state ≠ .zombie → ((k.sched.modify r change).proc r').state ≠ .zombie := by
    intro r' before
    rw [proc_modify]
    split
    · exact state _
    · exact before
  refine ⟨⟨h.toSane.modify r marks, fun cpu r' member => live r' (h.deques cpu r' ?_),
    fun hart r' held => live r' (h.picked hart r' held), fun hart r' held daemon => live r' (h.running hart r' held ?_),
    fun queue waiter member r' found => live r' (h.waits queue waiter member r' found)⟩, fun r' dead => ⟨dead.1, ?_⟩⟩
  · exact member.before member.inDeque (modify_keeps Process.cpuAffinity change marks.affinity k.sched r r')
  · rwa [isDaemon, modify_keeps Process.flags change marks.flags] at daemon
  · have other : r' ≠ r := by
      intro same
      rw [same] at dead
      exact alive dead.2
    rw [proc_modify, if_neg other]
    exact dead.2

theorem bury (found : k.sched.processes.table pid = some r)
    (detached : Detached k pid r) (exitCode : Nat) :
    Follows k { k with sched := k.sched.modify r (markExited exitCode) } := by
  have other : ∀ r', r' ≠ r → (k.sched.modify r (markExited exitCode)).proc r' = k.sched.proc r' := by
    intro r' different
    rw [proc_modify, if_neg different]
  refine ⟨⟨h.toSane.modify r (.exited exitCode), fun cpu r' member => ?_, fun hart r' held => ?_,
    fun hart r' held daemon => ?_, fun queue waiter member r' registered => ?_⟩, fun r' dead => ⟨dead.1, ?_⟩⟩
  · have before : Stealable k.sched cpu r' :=
      member.before member.inDeque (modify_keeps cpuAffinity (markExited exitCode) (fun _ => rfl) k.sched r r')
    have different : r' ≠ r := fun same => detached.deques cpu (same ▸ before)
    rw [other r' different]
    exact h.deques cpu r' before
  · have different : r' ≠ r := fun same => detached.picked hart (same ▸ held)
    rw [other r' different]
    exact h.picked hart r' held
  · rw [isDaemon, modify_keeps flags (markExited exitCode) fun _ => rfl] at daemon
    have different : r' ≠ r := fun same => detached.running hart (same ▸ held) (same ▸ daemon)
    rw [other r' different]
    exact h.running hart r' held daemon
  · have different : r' ≠ r := by
      intro same
      have own := (h.registered waiter.pid r' registered).2
      rw [same, (h.registered pid r found).2] at own
      exact detached.waits queue waiter member own.symm
    rw [other r' different]
    exact h.waits queue waiter member r' registered
  · rw [proc_modify]
    split
    · rfl
    · exact dead.2

theorem pushBoth (present : r < k.sched.processes.count)
    (alive : (k.sched.proc r).state ≠ .zombie) (cpu : Nat) : Follows k { k with sched := k.sched.pushBoth cpu r } := by
  refine ⟨⟨h.toSane.pushBoth present cpu, fun other r' member => ?_, h.picked, h.running, h.waits⟩, fun _ => id⟩
  rcases deque_pushBoth h.sound member.inDeque with old | ⟨rfl, -⟩
  · exact h.deques other r' (member.before old rfl)
  · exact alive

theorem created {p : Process} (made : Created k.sched t p) (flags : p.shouldRestart = true → p.isDaemon = true)
    (alive : p.state ≠ .zombie) : Follows k { k with sched := t } := by
  refine ⟨⟨h.toSane.created made flags, fun cpu r member => ?_, fun hart r held => ?_, fun hart r held daemon => ?_,
    fun queue waiter member r found => ?_⟩, fun r dead => ?_⟩
  · have inside := made.inDeque member.inDeque
    have old := made.old (h.known cpu r (.inr inside))
    have before := member.before inside (congrArg Process.cpuAffinity old)
    rw [old]
    exact h.deques cpu r before
  · rw [made.old (h.held hart r (.inl held))]
    exact h.picked hart r held
  · rw [made.old (h.held hart r (.inr held))] at daemon ⊢
    exact h.running hart r held daemon
  · rcases made.registered found with ⟨-, rfl⟩ | before
    · rw [made.new]
      exact alive
    · rw [made.old (h.registered _ r before).1]
      exact h.waits queue waiter member r before
  · rw [Dead, made.present_iff, made.old dead.1]
    exact ⟨.inl dead.1, dead.2⟩

theorem forget (change : Forgets k.sched t) : Follows k { k with sched := t } := by
  have proc := change.proc
  refine ⟨⟨h.toSane.forget change, fun cpu r member => ?_, ?_, ?_, fun queue waiter member r found => ?_⟩,
    fun r dead => ?_⟩
  · have before := member.before (change.deques cpu r member.inDeque) (congrArg (fun proc => (proc r).cpuAffinity) proc)
    rw [proc]
    exact h.deques cpu r before
  · rw [proc]
    exact h.picked
  · rw [proc]
    exact h.running
  · rw [proc]
    exact h.waits queue waiter member r (change.table _ r found)
  · rw [Dead, change.count, proc]
    exact dead

theorem setHart (hart : Nat) {phase : HartPhase}
    (held : ∀ r, phase = .picked r ∨ phase = .running r → r < k.sched.processes.count)
    (alive : ∀ r, phase = .picked r ∨ phase = .running r → (k.sched.proc r).state ≠ .zombie) :
    Follows k (k.setHart hart phase) := by
  refine ⟨⟨h.toSane.setHart hart held, h.deques, fun other r here => ?_, fun other r here daemon => ?_, h.waits⟩,
    fun _ => id⟩
  · rcases k.harts_setHart hart phase other with new | old
    · exact alive r (.inl (new ▸ here))
    · exact h.picked other r (old ▸ here)
  · rcases k.harts_setHart hart phase other with new | old
    · exact alive r (.inr (new ▸ here))
    · exact h.running other r (old ▸ here) daemon

variable (queue : Nat)

theorem setWaits (waiters : List Waiter)
    (alive : ∀ waiter ∈ waiters, ∀ r, k.sched.processes.table waiter.pid = some r → (k.sched.proc r).state ≠ .zombie) :
    Follows k { k with waitQueues := Function.update k.waitQueues queue waiters } := by
  refine ⟨⟨h.toSane.setWaits _, h.deques, h.picked, h.running, fun other waiter member r found => ?_⟩,
    fun _ => id⟩
  by_cases same : other = queue
  · subst same
    simp only [Function.update_self] at member
    exact alive waiter member r found
  · simp only [Function.update_of_ne same] at member
    exact h.waits other waiter member r found

/-! ## The operations -/

theorem spawn (new : Pid → String → Nat → Process) (harts : Harts) (name : String) (entry : Nat)
    (priority : Priority) (cpuAffinity : Option Nat)
    (flags : ∀ pid, (new pid name entry).flags.restartOnExit = true → (new pid name entry).flags.daemon = true) :
    Follows k { k with sched := (spawnProcess new k.sched harts name entry priority cpuAffinity).2 } := by
  obtain ⟨t, cpu, made, ran, -⟩ := spawnProcess_eq k.sched new harts name entry priority cpuAffinity
  have ready : (spawnedProcess new k.sched.processes.nextPid name entry priority cpuAffinity).state ≠ .zombie := by
    simp [spawnedProcess, markReady]
  have first := h.created made (by cases cpuAffinity with
    | none => exact flags _
    | some a => exact flags _) ready
  rw [ran]
  refine first.trans (first.buried.pushBoth (made.present_iff.mpr (.inr rfl)) ?_ cpu)
  rw [made.new]
  exact ready

variable (harts : Harts)

theorem requeue (present : r < k.sched.processes.count)
    (alive : (k.sched.proc r).state ≠ .zombie) : Follows k { k with sched := k.sched.requeue harts r } := by
  obtain ⟨cpu, ran, -⟩ := requeue_eq k.sched harts r
  have first := h.revive alive .ready (by simp [markReady])
  rw [ran]
  refine first.trans (first.buried.pushBoth present ?_ cpu)
  rw [proc_modify]
  simp [markReady]

theorem markRunning (alive : (k.sched.proc r).state ≠ .zombie) (cpuId : Nat) :
    Follows k { k with sched := k.sched.modify r (markRunning cpuId) } :=
  h.revive alive (.running cpuId) (by simp [Process.markRunning])

theorem exit (detached : DetachedPid k pid) (exitCode : Nat) :
    Follows k { k with sched := k.sched.exit harts pid exitCode } := by
  rcases exit_cases k.sched harts pid exitCode with ⟨same, -⟩ | ⟨r, found, same | same⟩
  · rw [same]
    exact .refl h
  · rw [same]
    exact h.bury found (detached r found) exitCode
  · have first := h.bury found (detached r found) exitCode
    rw [same]
    exact first.trans (first.buried.spawn newDaemon harts _ _ _ none fun _ _ => rfl)

theorem kill (detached : DetachedPid k pid) : Follows k { k with sched := (k.sched.kill pid).2 } := by
  rcases kill_forgets h.sound pid with same | ⟨r, found, change⟩
  · rw [same]
    exact .refl h
  · have first := h.bury found (detached r found) 137
    exact first.trans (first.buried.forget change)

theorem pickNext (new : UInt64) (cpuId : Nat) : Follows k { k with sched := (k.sched.pickNextWith new cpuId).2 } ∧
    ∀ r, (k.sched.pickNextWith new cpuId).1 = some r →
      r < k.sched.processes.count ∧ (k.sched.proc r).state ≠ .zombie := by
  obtain ⟨thinned, returned⟩ := pickNext_entries h.sound new cpuId
  refine ⟨h.forget thinned.forgets, fun r same => ?_⟩
  rcases returned r same with ⟨queued, ready⟩ | ⟨victim, ⟨apart, notZero⟩, member, may⟩
  · refine ⟨h.known cpuId r (.inl queued), fun dead => ?_⟩
    rw [dead] at ready
    cases ready
  · exact ⟨h.known victim r (.inr member), h.deques victim r ⟨notZero, member, cpuId, apart.symm, may⟩⟩

theorem markReadyPid (alive : ∀ r, k.sched.processes.table pid = some r → (k.sched.proc r).state ≠ .zombie) :
    Follows k { k with sched := k.sched.markReadyPid pid } := by
  unfold Scheduler.markReadyPid
  cases found : k.sched.processes.table pid with
  | none => exact .refl h
  | some r => exact h.revive (alive r found) .ready (by simp [markReady])

omit h in
theorem table_markReadyPid (s : Scheduler) (pid : Pid) : (s.markReadyPid pid).processes.table = s.processes.table := by
  unfold Scheduler.markReadyPid
  split
  · rfl
  · rfl

omit h in
theorem live_markReadyPid {s : Scheduler} (alive : (s.proc r).state ≠ .zombie) (pid : Pid) :
    ((s.markReadyPid pid).proc r).state ≠ .zombie := by
  unfold Scheduler.markReadyPid
  split
  · rw [proc_modify]
    split
    · simp [Process.markReady]
    · exact alive
  · exact alive

omit h in
theorem wakeAll : ∀ (waiters : List Waiter) {k : Kernel}, Buried k →
    (∀ waiter ∈ waiters, ∀ r, k.sched.processes.table waiter.pid = some r → (k.sched.proc r).state ≠ .zombie) →
    Follows k { k with sched := waiters.foldl (fun s waiter => s.markReadyPid waiter.pid) k.sched } := by
  intro waiters
  induction waiters with
  | nil => exact fun h _ => .refl h
  | cons waiter waiters ih =>
    intro k h alive
    have first := h.markReadyPid (alive waiter mem_cons_self)
    refine first.trans (ih first.buried fun later member r found => ?_)
    rw [table_markReadyPid] at found
    exact live_markReadyPid (alive later (mem_cons_of_mem _ member) r found) waiter.pid

theorem wakeWhere (test : Waiter → Bool) : Follows k (k.wakeWhere queue test) := by
  have stay := h.setWaits queue ((k.waitQueues queue).filter fun waiter => !test waiter)
    fun waiter member => h.waits queue waiter (mem_of_mem_filter member)
  exact stay.trans (wakeAll _ stay.buried fun waiter member => h.waits queue waiter (mem_of_mem_filter member))

theorem wakeOne : Follows k (k.wakeOne queue) := by
  unfold Kernel.wakeOne
  cases waiters : k.waitQueues queue with
  | nil => exact .refl h
  | cons waiter rest =>
    have inside : ∀ other ∈ waiter :: rest, ∀ r, k.sched.processes.table other.pid = some r →
        (k.sched.proc r).state ≠ .zombie := by
      rw [← waiters]
      exact h.waits queue
    have stay := h.setWaits queue rest fun other member => inside other (mem_cons_of_mem _ member)
    exact stay.trans (stay.buried.markReadyPid (inside waiter mem_cons_self))

theorem hartStep (hart : Fin maxHarts) (careful : Careful k (.hartStep harts hart)) :
    Follows k (k.hartStep harts hart).2 ∧
    ∀ r, (k.hartStep harts hart).1 = some r → (k.sched.proc r).state ≠ .zombie := by
  have nothing : ∀ r, none = some r → (k.sched.proc r).state ≠ .zombie :=
    fun r none => (Option.some_ne_none r none.symm).elim
  unfold Kernel.hartStep
  cases phase : k.harts hart with
  | idle =>
    obtain ⟨left, returned⟩ := h.pickNext (nextRngState k.sched.rngState) hart
    have same : (k.sched.pickNextWith (nextRngState k.sched.rngState) hart).2.processes = k.sched.processes :=
      (pickNext_entries h.sound _ hart).1.processes
    rw [Scheduler.pickNext]
    generalize k.sched.pickNextWith (nextRngState k.sched.rngState) hart = result at left returned same
    obtain ⟨out, t⟩ := result
    cases out with
    | none => exact ⟨left, nothing⟩
    | some process =>
      have alive := returned process rfl
      have proc : t.proc = k.sched.proc := by
        funext r
        rw [proc, proc, same]
      refine ⟨left.trans (left.buried.setHart hart (fun r held => ?_) fun r held => ?_), fun r picked => ?_⟩
      · cases held.resolve_right (by simp)
        rw [same]
        exact alive.1
      · cases held.resolve_right (by simp)
        rw [proc]
        exact alive.2
      · cases picked
        exact alive.2
  | picked process =>
    have first := h.markRunning (h.picked hart process phase) hart
    refine ⟨first.trans (first.buried.setHart hart (fun r held => ?_) fun r held => ?_), nothing⟩
    · cases held.resolve_left (by simp)
      exact h.held hart process (.inl phase)
    · cases held.resolve_left (by simp)
      rw [proc_modify]
      simp [Process.markRunning]
  | running process =>
    dsimp only
    split_ifs with daemon
    · have first := h.requeue harts (h.held hart process (.inr phase)) (h.running hart process phase daemon)
      exact ⟨first.trans (first.buried.setHart hart (by simp) (by simp)), fun _ => False.elim⟩
    · have first := h.exit harts (careful process phase daemon) 0
      exact ⟨first.trans (first.buried.setHart hart (by simp) (by simp)), fun _ => False.elim⟩

theorem step {label : KernelOp × Option Ref} {k' : Kernel} (careful : Careful k label.1)
    (taken : kernelStep k label k') : Follows k k' ∧ ∀ r, label.2 = some r → (k.sched.proc r).state ≠ .zombie := by
  obtain ⟨op, _⟩ := label
  obtain ⟨refers, ran⟩ := taken
  have result : Follows k (op.exec k).2 ∧ ∀ r, (op.exec k).1 = some r → (k.sched.proc r).state ≠ .zombie := by
    cases op with
    | call op =>
      cases op with
      | spawn harts name entry priority affinity =>
        exact ⟨h.spawn new harts name entry priority affinity nofun, nofun⟩
      | spawnDaemon harts name entry priority affinity =>
        exact ⟨h.spawn newDaemon harts name entry priority affinity fun _ _ => rfl, nofun⟩
      | requeue harts process => exact ⟨h.requeue harts refers careful, nofun⟩
      | pickNext cpuId =>
        obtain ⟨left, returned⟩ := h.pickNext (nextRngState k.sched.rngState) cpuId
        exact ⟨left, fun r same => (returned r same).2⟩
      | exit harts pid exitCode => exact ⟨h.exit harts careful exitCode, nofun⟩
      | markRunning process cpuId => exact ⟨h.markRunning careful cpuId, nofun⟩
    | kill pid => exact ⟨h.kill careful, nofun⟩
    | hartStep harts hart => exact h.hartStep harts hart careful
    | wait queue waiter =>
      refine ⟨h.setWaits queue _ fun other member r found => ?_, nofun⟩
      rcases mem_append.mp member with old | new
      · exact h.waits queue other old r found
      · rw [mem_singleton.mp new] at found
        exact careful r found
    | wakeOne queue => exact ⟨h.wakeOne queue, nofun⟩
    | wakeAll queue => exact ⟨h.wakeWhere queue _, nofun⟩
    | wakeEvent queue event => exact ⟨h.wakeWhere queue _, nofun⟩
    | wakeByData queue data => exact ⟨h.wakeWhere queue _, nofun⟩
    | checkTimeouts queue currentTime => exact ⟨h.wakeWhere queue _, nofun⟩
  rwa [ran] at result

end Buried

abbrev carefulStep : Kernel → KernelOp × Option Ref → Kernel → Prop :=
  guarded (fun k label => Careful k label.1) kernelStep

/-- **Killed processes stay dead.** For every number of CPUs: in a run of careful operations, a process that is a
zombie stays one, so that it is neither ready nor running again, and no pick hands it out. -/
theorem dead_stay_dead {numCpus : CpuCount} {before after : List (KernelOp × Option Ref)} {k k' : Kernel} {r : Ref}
    (first : Run carefulStep (Kernel.init numCpus) before k) (dead : Dead k r) (second : Run carefulStep k after k') :
    Dead k' r ∧ ∀ label ∈ after, label.2 ≠ some r := by
  have buried : Buried k :=
    first.invariant (fun _ _ _ h taken => (h.step taken.1 taken.2).1.buried) (buried_init numCpus)
  clear first
  -- along the second run both the invariant and the zombie are kept
  induction second with
  | nil => exact ⟨dead, fun label member => absurd member not_mem_nil⟩
  | cons taken _ ih =>
    obtain ⟨follows, handed⟩ := buried.step taken.1 taken.2
    obtain ⟨stays, never⟩ := ih (follows.dead r dead) follows.buried
    refine ⟨stays, fun label member => ?_⟩
    rcases mem_cons.mp member with rfl | later
    · exact fun same => handed r same dead.2
    · exact never label later

def execAll (ops : List KernelOp) : Kernel := ops.foldl (fun k op => (op.exec k).2) (Kernel.init oneCpu)

/-- A process is spawned, picked, and marked running. -/
def started : List KernelOp :=
  [.call (.spawn oneReady "a" 0 .normal none), .hartStep oneReady 0, .hartStep oneReady 0]

theorem started_detached : DetachedPid (execAll started) 1 := by
  intro r found
  have same : (execAll started).sched.processes.table 1 = some 0 := by decide +kernel
  cases same.symm.trans found
  refine ⟨fun cpu => ?_, fun hart => ?_, fun hart _ => ?_, fun queue waiter member => absurd member not_mem_nil⟩
  · intro stealable
    cases cpu with
    | zero => exact stealable.notZero rfl
    | succ cpu => exact not_mem_nil stealable.inDeque
  · cases hart with
    | zero => decide +kernel
    | succ hart => exact nofun
  · decide +kernel

theorem dead_stay_dead_exit :
    (∃ before k, Run carefulStep (Kernel.init oneCpu) before k ∧ Dead k 0 ∧
      ∃ k', Run carefulStep k [(.hartStep oneReady 0, none)] k' ∧ Dead k' 0) := by
  have picked : (execAll (started.take 2)).harts 0 = .picked 0 := by decide +kernel
  have running : (execAll started).harts 0 = .running 0 := by decide +kernel
  have first : Run carefulStep (Kernel.init oneCpu)
      [(.call (.spawn oneReady "a" 0 .normal none), none), (.hartStep oneReady 0, some 0), (.hartStep oneReady 0, none),
        (.hartStep oneReady 0, none)] (execAll (started ++ [.hartStep oneReady 0])) := by
    refine .cons ⟨trivial, trivial, rfl⟩ (.cons ⟨?_, trivial, Prod.ext ?_ rfl⟩ (.cons ⟨?_, trivial, rfl⟩
      (.cons ⟨?_, trivial, Prod.ext ?_ rfl⟩ (.nil _))))
    · exact nofun
    · decide +kernel
    · exact fun process held => absurd (picked.symm.trans held) (by simp)
    · intro process held _
      cases running.symm.trans held
      exact started_detached
    · decide +kernel
  have dead : Dead (execAll (started ++ [.hartStep oneReady 0])) 0 := by
    constructor
    · decide +kernel
    · decide +kernel
  have second : Run carefulStep (execAll (started ++ [.hartStep oneReady 0])) [(.hartStep oneReady 0, none)] _ :=
    .cons ⟨fun process held => absurd (show HartPhase.idle = _ from held) (by simp), trivial,
    Prod.ext (by decide +kernel) rfl⟩
      (.nil _)
  exact ⟨_, _, first, dead, _, second, (dead_stay_dead first dead second).1⟩

/-- A daemon is killed while the hart runs its entry; the hart then gives it back, and picks it again. -/
theorem killed_daemon_runs : ∃ k k' ops, Run kernelStep (Kernel.init oneCpu)
      [(.call (.spawnDaemon oneReady "d" 0 .normal none), none), (.hartStep oneReady 0, some 0),
        (.hartStep oneReady 0, none), (.kill 1, none)] k ∧ Dead k 0 ∧
    Run kernelStep k ops k' ∧ (k'.sched.proc 0).state = .running ∧ (.hartStep oneReady 0, some 0) ∈ ops := by
  refine ⟨_, _, [(.hartStep oneReady 0, none), (.hartStep oneReady 0, some 0), (.hartStep oneReady 0, none)],
    .cons ⟨trivial, rfl⟩ (.cons ⟨trivial, Prod.ext ?_ rfl⟩ (.cons ⟨trivial, Prod.ext ?_ rfl⟩
    (.cons ⟨trivial, rfl⟩ (.nil _)))), ⟨?_, ?_⟩,
    .cons ⟨trivial, Prod.ext ?_ rfl⟩ (.cons ⟨trivial, Prod.ext ?_ rfl⟩ (.cons ⟨trivial, Prod.ext ?_ rfl⟩ (.nil _))),
    ?_, by simp⟩
  all_goals decide +kernel

end HavyOs.Sched
