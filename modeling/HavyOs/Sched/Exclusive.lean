import HavyOs.Lib.Run
import HavyOs.Sched.Entries

/-!
# Exclusive execution

A process that `pickNext` handed out is not handed out again before it is given back. This rests on
the two structures of a CPU holding the same processes, each once. `pickNext` pops its own deque
without asking which process that removes: where it is not the process it took from the run queue,
the deque keeps an entry for a process that is already running, and another CPU steals it. A thief
that may not run what it stole puts it into the run queue a second time.
-/

namespace HavyOs.Sched

open Lib WorkStealingDeque Function List Scheduler

variable (s : Scheduler)

/-- The process exists and is in no run queue. -/
def Away (r : Ref) : Prop := r < s.processes.count ∧ ∀ cpu, r ∉ s.queues cpu

/-- The pid that the counter gives out next belongs to no process. -/
def FreshPid : Prop := ∀ r, r < s.processes.count → (s.proc r).pid ≠ s.processes.nextPid

/-- `op` gives `r` back to the scheduler. -/
def SchedOp.GivesBack (r : Ref) : SchedOp → Prop
  | .requeue _ process => process = r
  | _ => False

/-- Between two calls that hand out the same process it is given back. -/
def HandedOutOnce (calls : List (SchedOp × Option Ref)) : Prop :=
  ∀ before between after cpu cpu' r,
    calls = before ++ (.pickNext cpu, some r) :: (between ++ (.pickNext cpu', some r) :: after) →
    ∃ call ∈ between, call.1.GivesBack r

/-- The condition on a call: pids are not reused, only a process that is in no run queue is given
back, a CPU that takes a process from its own run queue has it at the bottom of its deque, and one
that has none may run whatever is at the top of the deques it can steal from. -/
def Orderly : SchedOp → Prop
  | .spawn .. => FreshPid s
  | .spawnDaemon .. => FreshPid s
  | .requeue _ process => ∀ cpu, process ∉ s.queues cpu
  | .pickNext cpuId =>
    match (s.queues cpuId).find? fun r => (s.proc r).state.isRunnable with
    | some r => cpuId.val ≠ 0 → (s.stealQueues cpuId).items.getLast? = some r
    | none => ∀ victim, victim < s.numCpus.val → victim ≠ cpuId → victim ≠ 0 →
      ∀ r, (s.stealQueues victim).items.head? = some r → (s.proc r).canRunOnCpu cpuId
  | .exit _ pid _ => ∀ r, s.processes.table pid = some r → (s.proc r).shouldRestart → FreshPid s
  | .markRunning .. => True

/-- The deques are well formed, and apart from hart 0's each holds the processes of its run queue;
a process is queued at most once, and no two processes have the same pid. -/
structure InStep (s : Scheduler) : Prop where
  held : ∀ cpu, (s.stealQueues cpu).Holds (s.stealQueues cpu).items
  twins : ∀ cpu, cpu ≠ 0 → (s.stealQueues cpu).items.Perm (s.queues cpu)
  once : ∀ cpu, (s.queues cpu).Nodup
  apart : ∀ cpu cpu' r, r ∈ s.queues cpu → r ∈ s.queues cpu' → cpu = cpu'
  known : ∀ cpu r, r ∈ s.queues cpu → r < s.processes.count
  pids : DistinctPids s

/-! ## What a call does to the queues -/

/-- The queues are as they were, and so are the pids. -/
structure Touched (s t : Scheduler) : Prop where
  queues : t.queues = s.queues
  deques : t.stealQueues = s.stealQueues
  count : t.processes.count = s.processes.count
  pids : ∀ r, (t.proc r).pid = (s.proc r).pid

/-- `r` left the run queue of `cpu`, and except on hart 0 its deque as well. -/
structure Left (s t : Scheduler) (cpu : Nat) (r : Ref) : Prop where
  processes : t.processes = s.processes
  queue : ∃ q, t.queues = Function.update s.queues cpu q ∧ (s.queues cpu).Perm (r :: q)
  deque : ∃ d l, t.stealQueues = Function.update s.stealQueues cpu d ∧ d.Holds l ∧
    (cpu ≠ 0 → (s.stealQueues cpu).items.Perm (r :: l))

/-- What a call can do, with what it hands out. -/
inductive Effect (s : Scheduler) (op : SchedOp) : Option Ref → Scheduler → Prop where
  | touched {t : Scheduler} : Touched s t → Effect s op none t
  | spawned {t u : Scheduler} {p : Process} (cpu : Nat) : Touched s t → FreshPid t → Created t u p →
      p.pid = t.processes.nextPid → Effect s op none (u.pushBoth cpu t.processes.count)
  | returned {t : Scheduler} {r : Ref} (cpu : Nat) :
      op.GivesBack r → Away s r → Touched s t → Effect s op none (t.pushBoth cpu r)
  | taken {t s' : Scheduler} {cpu : Nat} {r : Ref} : Touched s t → Left t s' cpu r → Effect s op (some r) s'

theorem Touched.refl : Touched s s := ⟨rfl, rfl, rfl, fun _ => rfl⟩

theorem touched_modify (r : Ref) {change : Process → Process} (kept : ∀ p, (change p).pid = p.pid) :
    Touched s (s.modify r change) :=
  ⟨rfl, rfl, rfl, modify_keeps Process.pid change kept s r⟩

variable {s : Scheduler} {op : SchedOp}

namespace Away

variable {s t : Scheduler} {r r' : Ref} {cpu : Nat}

theorem pushBoth (away : Away s r') (different : r' ≠ r) : Away (s.pushBoth cpu r) r' := by
  refine ⟨away.1, fun other member => ?_⟩
  rcases queue_pushBoth member with old | ⟨same, -⟩
  · exact away.2 other old
  · exact different same

theorem touched (away : Away s r) (change : Touched s t) : Away t r := by
  rw [Away, change.count, change.queues]
  exact away

theorem created {p : Process} (away : Away s r) (made : Created s t p) : Away t r := by
  rw [Away, made.present_iff, made.queues]
  exact ⟨.inl away.1, away.2⟩

theorem left (away : Away s r') (change : Left s t cpu r) : Away t r' := by
  obtain ⟨same, ⟨q, queues, queue⟩, -⟩ := change
  rw [Away, same, queues]
  refine ⟨away.1, fun other member => ?_⟩
  by_cases here : other = cpu
  · subst here
    rw [update_self] at member
    exact away.2 other (queue.mem_iff.mpr (mem_cons_of_mem _ member))
  · rw [update_of_ne here] at member
    exact away.2 other member

end Away

/-! ## The invariant -/

theorem inStep_init (numCpus : CpuCount) : InStep (init numCpus) where
  held _ := by
    exact new_holds
  twins _ _ := List.Perm.refl []
  once _ := nodup_nil
  apart _ _ _ member := absurd member not_mem_nil
  known _ _ member := absurd member not_mem_nil
  pids _ _ small := absurd small (Nat.not_lt_zero _)

namespace InStep

variable {s t : Scheduler} {r : Ref} {cpu : Nat}

theorem touched (h : InStep s) (change : Touched s t) : InStep t where
  held := by rw [change.deques]; exact h.held
  twins := by rw [change.deques, change.queues]; exact h.twins
  once := by rw [change.queues]; exact h.once
  apart := by rw [change.queues]; exact h.apart
  known := by rw [change.queues, change.count]; exact h.known
  pids r r' := by rw [change.count, change.pids, change.pids]; exact h.pids r r'

theorem created {p : Process} (h : InStep s) (fresh : FreshPid s) (made : Created s t p)
    (newPid : p.pid = s.processes.nextPid) : InStep t where
  held := made.sound h.held
  twins := by rw [made.stealQueues, made.queues]; exact h.twins
  once := by rw [made.queues]; exact h.once
  apart := by rw [made.queues]; exact h.apart
  known cpu r member := by
    rw [made.queues] at member
    exact made.present_iff.mpr (.inl (h.known cpu r member))
  pids := made.distinctPids (newPid ▸ fresh) h.pids

theorem pushBoth (h : InStep s) (away : Away s r) : InStep (s.pushBoth cpu r) := by
  have queued : ((s.queues cpu).enqueue s.proc r).Perm (r :: s.queues cpu) := RunQueue.enqueue_perm _ _ _
  have items : ((s.stealQueues cpu).push r).items = (s.stealQueues cpu).items ++ [r] :=
    items_eq (push_holds (h.held cpu) r)
  refine ⟨sound_pushBoth h.held cpu r, fun other notBsp => ?_, ?_, fun c c' r' inside inside' => ?_,
    fun c r' inside => ?_, h.pids⟩
  · by_cases same : other = cpu
    · subst same
      simp only [pushBoth, update_self, items]
      exact (perm_append_singleton _ _).trans (((h.twins other notBsp).cons r).trans queued.symm)
    · simp only [Scheduler.pushBoth, update_of_ne same]
      exact h.twins other notBsp
  · apply (forall_update_iff s.queues fun _ q => q.Nodup).mpr
    exact ⟨queued.nodup_iff.mpr (nodup_cons.mpr ⟨away.2 cpu, h.once cpu⟩), fun other _ => h.once other⟩
  · rcases queue_pushBoth inside with old | ⟨rfl, rfl⟩ <;> rcases queue_pushBoth inside' with old' | ⟨same, rfl⟩
    · exact h.apart c c' r' old old'
    · subst same
      exact absurd old (away.2 c)
    · exact absurd old' (away.2 c')
    · rfl
  · rcases queue_pushBoth inside with old | ⟨rfl, -⟩
    · exact h.known c r' old
    · exact away.1

theorem left (h : InStep s) (change : Left s t cpu r) : InStep t ∧ r ∈ s.queues cpu ∧ ∀ other, r ∉ t.queues other := by
  obtain ⟨same, ⟨q, queues, queue⟩, d, l, deques, holds, deque⟩ := change
  have member : r ∈ s.queues cpu := queue.mem_iff.mpr mem_cons_self
  have nodup : (r :: q).Nodup := queue.nodup_iff.mp (h.once cpu)
  have stays : ∀ other r', r' ∈ t.queues other → r' ∈ s.queues other := by
    intro other r' inside
    rw [queues] at inside
    by_cases same : other = cpu
    · subst same
      rw [update_self] at inside
      exact queue.mem_iff.mpr (mem_cons_of_mem _ inside)
    · rwa [update_of_ne same] at inside
  refine ⟨⟨?_, fun other notBsp => ?_, ?_, fun c c' r' inside inside' => ?_,
    fun c r' inside => ?_, ?_⟩, member, fun other inside => ?_⟩
  · rw [deques]
    exact sound_update h.held cpu holds
  · rw [deques, queues]
    by_cases same : other = cpu
    · subst same
      rw [update_self, update_self, items_eq holds]
      exact ((deque notBsp).symm.trans ((h.twins other notBsp).trans queue)).cons_inv
    · rw [update_of_ne same, update_of_ne same]
      exact h.twins other notBsp
  · rw [queues]
    apply (forall_update_iff s.queues fun _ q => q.Nodup).mpr
    exact ⟨(nodup_cons.mp nodup).2, fun other _ => h.once other⟩
  · exact h.apart c c' r' (stays c r' inside) (stays c' r' inside')
  · rw [same]
    exact h.known c r' (stays c r' inside)
  · intro r r'
    simp only [proc, same]
    exact h.pids r r'
  · by_cases same : other = cpu
    · subst same
      rw [queues, update_self] at inside
      exact (nodup_cons.mp nodup).1 inside
    · exact same (h.apart other cpu r (stays other r inside) member)

end InStep

/-! ## The calls -/

/-- What one call did is enough to follow the queues over it. -/
theorem Effect.spec {s' : Scheduler} {out : Option Ref} (h : InStep s) (effect : Effect s op out s') :
    InStep s' ∧ (∀ r, out = some r → (∃ cpu, r ∈ s.queues cpu) ∧ Away s' r) ∧
    ∀ r, ¬ op.GivesBack r → Away s r → Away s' r := by
  cases effect with
  | touched change => exact ⟨h.touched change, nofun, fun r _ away => away.touched change⟩
  | @spawned t u _ cpu change fresh made newPid =>
    have inStep := h.touched change
    have away : Away u t.processes.count := by
      rw [Away, made.count, made.queues]
      exact ⟨Nat.lt_succ_self _, fun cpu member => Nat.lt_irrefl _ (inStep.known cpu _ member)⟩
    refine ⟨(inStep.created fresh made newPid).pushBoth away, nofun, fun r _ old => ?_⟩
    have still := old.touched change
    exact (still.created made).pushBoth (Nat.ne_of_lt still.1)
  | returned cpu gives away change =>
    refine ⟨(h.touched change).pushBoth (away.touched change), nofun, fun r other old => ?_⟩
    refine (old.touched change).pushBoth fun same => other ?_
    rw [same]
    exact gives
  | @taken t s' cpu r change left =>
    obtain ⟨inStep, member, gone⟩ := (h.touched change).left left
    refine ⟨inStep, fun r' same => ?_, fun r' _ away => (away.touched change).left left⟩
    cases same
    have count : s'.processes.count = t.processes.count := by rw [left.processes]
    refine ⟨⟨cpu, by rw [← change.queues]; exact member⟩, ?_, gone⟩
    rw [count]
    exact (h.touched change).known cpu r member

theorem spawn_effect {new : Pid → String → Nat → Process} (newPid : ∀ pid name entry, (new pid name entry).pid = pid)
    {t : Scheduler} (change : Touched s t) (fresh : FreshPid t) (harts : Harts) (name : String) (entry : Nat)
    (priority : Priority) (cpuAffinity : Option Nat) :
    Effect s op none (spawnProcess new t harts name entry priority cpuAffinity).2 := by
  obtain ⟨u, cpu, made, ran, -⟩ := spawnProcess_eq t new harts name entry priority cpuAffinity
  rw [ran]
  refine .spawned cpu change fresh made ?_
  cases cpuAffinity <;> exact newPid _ _ _

theorem exit_effect (harts : Harts) (pid : Pid) (exitCode : Nat)
    (fresh : ∀ r, s.processes.table pid = some r → (s.proc r).shouldRestart → FreshPid s) :
    Effect s op none (s.exit harts pid exitCode) := by
  cases found : s.processes.table pid with
  | none =>
    rw [exit, found]
    exact .touched (.refl s)
  | some r =>
    have exited : Touched s (s.modify r (Process.markExited exitCode)) := touched_modify s r fun _ => rfl
    cases restarts : (s.proc r).shouldRestart with
    | false =>
      rw [exit_ends found restarts]
      exact .touched exited
    | true =>
      rw [exit_restarts found restarts]
      refine spawn_effect (fun _ _ _ => rfl) exited (fun r' old => ?_) harts _ _ _ none
      rw [exited.pids]
      exact fresh r found restarts r' old

/-- The stealing path: nothing is found, or what is at the top of a deque leaves both structures. -/
theorem stealLoop_effect {cpuId : Nat} : ∀ (victims : List Nat) {s : Scheduler}, InStep s →
    (∀ victim ∈ victims, victim ≠ cpuId → victim ≠ 0 →
      ∀ r, (s.stealQueues victim).items.head? = some r → (s.proc r).canRunOnCpu cpuId) →
    s.stealLoop cpuId victims = (none, s) ∨
    ∃ t victim r, s.stealLoop cpuId victims = (some r, t) ∧ Left s t victim r := by
  intro victims
  induction victims with
  | nil => exact fun _ _ => .inl rfl
  | cons victim victims ih =>
    intro s h runnable
    have later := ih h fun v member => runnable v (mem_cons_of_mem _ member)
    by_cases skipped : victim = cpuId ∨ victim = 0
    · rw [stealLoop, if_pos skipped]
      exact later
    · have notBsp : victim ≠ 0 := fun same => skipped (.inr same)
      have allowed := runnable victim mem_cons_self (fun same => skipped (.inl same)) notBsp
      rw [stealLoop, if_neg skipped]
      have held := h.held victim
      cases items : (s.stealQueues victim).items with
      | nil =>
        rw [items] at held
        rw [steal_empty held]
        exact later
      | cons r rest =>
        rw [items] at held allowed
        obtain ⟨d, stolen, holds⟩ := steal_holds held
        have twins := h.twins victim notBsp
        rw [items] at twins
        have member : r ∈ s.queues victim := twins.mem_iff.mp mem_cons_self
        obtain ⟨queue, removed, perm⟩ := RunQueue.remove_spec s.proc member fun other inside same =>
          h.pids other r (h.known victim other inside) (h.known victim r member) same
        refine .inr ⟨{ s with
          stealQueues := update s.stealQueues victim d
          queues := update s.queues victim ((s.queues victim).remove s.proc (s.proc r).pid).2 },
          victim, r, ?_, ?_⟩
        · rw [stolen]
          exact if_pos (allowed r rfl)
        · rw [removed]
          refine ⟨rfl, ⟨queue, rfl, perm⟩, d, rest, rfl, holds, fun _ => ?_⟩
          rw [items]

/-- `pickNext` hands out nothing, or a process that leaves both structures of one CPU, whichever victim is
drawn first. -/
theorem pickNext_effect (new : UInt64) (h : InStep s) (cpuId : Fin maxHarts)
    (orderly : Orderly s (.pickNext cpuId)) :
    Effect s (.pickNext cpuId) (s.pickNextWith new cpuId).1 (s.pickNextWith new cpuId).2 := by
  simp only [Orderly] at orderly
  unfold pickNextWith
  cases ready : (s.queues cpuId).find? fun r => (s.proc r).state.isRunnable with
  | some r =>
    obtain ⟨queue, dequeued, perm⟩ := RunQueue.dequeue_some s.proc ready
    rw [ready] at orderly
    rw [dequeued]
    obtain ⟨-, popped⟩ := pop_holds (h.held cpuId)
    refine .taken (.refl s) ⟨rfl, ⟨queue, rfl, perm⟩, _, _, rfl, popped, fun notBsp => ?_⟩
    -- the bottom of the deque is the process that was taken
    obtain ⟨older, items⟩ := getLast?_eq_some_iff.mp (orderly notBsp)
    rw [items, dropLast_concat]
    exact perm_append_singleton _ _
  | none =>
    rw [ready] at orderly
    rw [RunQueue.dequeue_none s.proc ready]
    simp only []
    split
    · exact .touched (.refl s)
    · have drawn : Touched s { s with rngState := new } := ⟨rfl, rfl, rfl, fun _ => rfl⟩
      have runnable : ∀ victim ∈ (range s.numCpus).map fun i => ((new >>> 33).toNat % s.numCpus + i) % s.numCpus,
          victim ≠ cpuId → victim ≠ 0 → ∀ r, (s.stealQueues victim).items.head? = some r →
          (s.proc r).canRunOnCpu cpuId := by
        intro victim member
        obtain ⟨i, -, rfl⟩ := mem_map.mp member
        exact orderly _ (Nat.mod_lt _ s.numCpus.property.1)
      rcases stealLoop_effect _ (h.touched drawn) runnable with nothing | ⟨t, victim, r, stolen, left⟩
      · rw [nothing]
        exact .touched drawn
      · rw [stolen]
        exact .taken drawn left

theorem exec_effect (h : InStep s) (op : SchedOp) (refers : op.Refers s) (orderly : Orderly s op) :
    Effect s op (exec s op).1 (exec s op).2 := by
  cases op with
  | spawn harts name entry priority affinity => exact spawn_effect (fun _ _ _ => rfl) (.refl s) orderly ..
  | spawnDaemon harts name entry priority affinity => exact spawn_effect (fun _ _ _ => rfl) (.refl s) orderly ..
  | requeue harts process => exact .returned _ rfl ⟨refers, orderly⟩ (touched_modify s process fun _ => rfl)
  | pickNext cpuId => exact pickNext_effect _ h cpuId orderly
  | exit harts pid exitCode => exact exit_effect harts pid exitCode orderly
  | markRunning process cpuId => exact .touched (touched_modify s process fun _ => rfl)

/-! ## Runs -/

abbrev orderlyStep : Scheduler → SchedOp × Option Ref → Scheduler → Prop :=
  guarded (fun s call => Orderly s call.1) step

theorem orderlyStep_effect {s' : Scheduler} {call : SchedOp × Option Ref} (h : InStep s)
    (taken : orderlyStep s call s') : Effect s call.1 call.2 s' := by
  obtain ⟨orderly, refers, ran⟩ := taken
  have effect := exec_effect h _ refers orderly
  rwa [ran] at effect

/-- **Exclusive execution.** For every number of CPUs, a run of orderly calls never hands out a process
twice without its being given back in between. -/
theorem exclusive_execution {numCpus : CpuCount} {calls : List (SchedOp × Option Ref)} {s' : Scheduler}
    (run : Run orderlyStep (init numCpus) calls s') : HandedOutOnce calls := by
  intro before between after cpu cpu' r split
  subst split
  obtain ⟨s₁, run₁, run⟩ := run.of_append
  have inStep₁ : InStep s₁ := run₁.invariant (fun s call t h taken => ((orderlyStep_effect h taken).spec h).1)
    (inStep_init numCpus)
  cases run with
  | cons first run =>
    obtain ⟨inStep₂, handed, -⟩ := (orderlyStep_effect inStep₁ first).spec inStep₁
    have away := (handed r rfl).2
    obtain ⟨s₃, run₂, run⟩ := run.of_append
    by_contra never
    have kept : ∀ call ∈ between, ¬ call.1.GivesBack r := fun call member gives => never ⟨call, member, gives⟩
    -- nothing in between gives it back, so it stays out of every run queue
    have away₃ : InStep s₃ ∧ Away s₃ r := by
      refine run₂.invariant_where (I := fun s => InStep s ∧ Away s r) kept ?_ ⟨inStep₂, away⟩
      intro s call t keeps holds taken
      obtain ⟨inStep, -, stays⟩ := (orderlyStep_effect holds.1 taken).spec holds.1
      exact ⟨inStep, stays r keeps holds.2⟩
    cases run with
    | cons second _ =>
      obtain ⟨-, handed, -⟩ := (orderlyStep_effect away₃.1 second).spec away₃.1
      obtain ⟨cpu, member⟩ := (handed r rfl).1
      exact away₃.2.2 cpu member

theorem orderly_of_tops {cpuId : Fin maxHarts}
    (nothing : ((s.queues cpuId).find? fun r => (s.proc r).state.isRunnable) = none)
    (tops : ∀ victim, victim < s.numCpus.val → victim ≠ cpuId → victim ≠ 0 →
      (s.stealQueues victim).items.head?.all fun r => (s.proc r).canRunOnCpu cpuId) : Orderly s (.pickNext cpuId) := by
  rw [Orderly, nothing]
  intro victim small other notBsp r top
  have may := tops victim small other notBsp
  rwa [top] at may

def twoCpus : CpuCount := ⟨2, two_le_maxHarts⟩

def bothReady : Harts := ⟨fun _ => true, fun _ => true⟩

/-- One process, picked by CPU 1, given back, and stolen by CPU 0. -/
def givenBack : List (SchedOp × Option Ref) :=
  [(.spawn bothReady "a" 0 .normal none, none), (.pickNext 1, some 0), (.requeue bothReady 0, none),
    (.pickNext 0, some 0)]

/-- The queues after the first call: the process is in both structures of CPU 1. -/
def oneSpawned : Scheduler := (exec (Scheduler.init twoCpus) (.spawn bothReady "a" 0 .normal none)).2

theorem oneSpawned_inStep : InStep oneSpawned :=
  ((exec_effect (inStep_init twoCpus) (.spawn bothReady "a" 0 .normal none) trivial
    fun r small => absurd small (Nat.not_lt_zero r)).spec (inStep_init twoCpus)).1

theorem givenBack_orderly : ∃ s', Run orderlyStep (init twoCpus) givenBack s' := by
  have picked : Orderly oneSpawned (.pickNext 1) := by
    rw [Orderly, show ((oneSpawned.queues (1 : Fin maxHarts)).find? fun r => (oneSpawned.proc r).state.isRunnable) =
      some 0 by decide +kernel]
    exact fun _ => by decide +kernel
  have handed : (exec oneSpawned (.pickNext 1)).1 = some 0 := by decide +kernel
  obtain ⟨-, away, -⟩ := (exec_effect oneSpawned_inStep (.pickNext 1) trivial picked).spec oneSpawned_inStep
  have returned := (away 0 handed).2
  refine ⟨_, .cons ⟨fun r small => absurd small (Nat.not_lt_zero r), trivial, rfl⟩
    (.cons ⟨picked, trivial, Prod.ext handed rfl⟩ (.cons ⟨returned.2, returned.1, rfl⟩
    (.cons ⟨orderly_of_tops ?_ ?_, trivial, Prod.ext ?_ rfl⟩ (.nil _))))⟩
  · decide +kernel
  · decide +kernel
  · decide +kernel

theorem exclusive_execution_given_back :
    (∃ s', Run orderlyStep (init twoCpus) givenBack s') ∧ HandedOutOnce givenBack := by
  refine ⟨givenBack_orderly, ?_⟩
  obtain ⟨s', run⟩ := givenBack_orderly
  exact exclusive_execution run

/-- Three processes, of which the first and the third go to CPU 1; each pick is marked as `hart_loop` does. -/
def threeSpawned : List (SchedOp × Option Ref) :=
  [(.spawn bothReady "a" 0 .normal none, none), (.spawn bothReady "b" 0 .normal none, none),
    (.spawn bothReady "c" 0 .normal none, none), (.pickNext 1, some 0), (.markRunning 0 1, none),
    (.pickNext 0, some 1), (.markRunning 1 0, none), (.pickNext 0, some 0)]

/-- CPU 1 takes the older of its two processes and pops the younger one from its deque, so the older one
stays there; CPU 0 runs out of work and steals it while it runs. -/
theorem handed_out_twice : (∃ s', Run step (init twoCpus) threeSpawned s') ∧ ¬ HandedOutOnce threeSpawned := by
  constructor
  · refine ⟨_, .cons ⟨trivial, rfl⟩ (.cons ⟨trivial, rfl⟩ (.cons ⟨trivial, rfl⟩ (.cons ⟨trivial, Prod.ext ?_ rfl⟩
      (.cons ⟨?_, rfl⟩ (.cons ⟨trivial, Prod.ext ?_ rfl⟩ (.cons ⟨?_, rfl⟩
      (.cons ⟨trivial, Prod.ext ?_ rfl⟩ (.nil _))))))))⟩
    · decide +kernel
    · change 0 < _
      decide +kernel
    · decide +kernel
    · change 1 < _
      decide +kernel
    · decide +kernel
  · intro once
    obtain ⟨call, member, gives⟩ := once (threeSpawned.take 3) ((threeSpawned.drop 4).take 3) [] 1 0 0 rfl
    revert gives
    simp [threeSpawned] at member
    rcases member with rfl | rfl | rfl <;> exact id

end HavyOs.Sched
