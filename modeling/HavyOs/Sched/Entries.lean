import HavyOs.Sched.Scheduler

/-!
# What a call does to the queues

One lemma for each scheduler function, without a condition on the call: where the entries of
the run queues and of the steal deques come from, and which process `pickNext` returns.
-/

namespace HavyOs.Sched

open Process WorkStealingDeque Function List Scheduler

variable (s : Scheduler)

/-- Every steal deque is well formed. -/
def Sound : Prop := ∀ cpu, (s.stealQueues cpu).Holds (s.stealQueues cpu).items

/-- The process has an entry in the steal deque of the CPU. -/
def InDeque (cpu : Nat) (r : Ref) : Prop := r ∈ (s.stealQueues cpu).items

/-- The process has an entry in one of the two structures of the CPU. -/
def Entry (cpu : Nat) (r : Ref) : Prop := r ∈ s.queues cpu ∨ InDeque s cpu r

/-- The entry in the steal deque of the CPU can be stolen: harts do not steal from CPU 0, and take what may run on them.
-/
structure Stealable (cpu : Nat) (r : Ref) : Prop where
  notZero : cpu ≠ 0
  inDeque : InDeque s cpu r
  thief : ∃ hart, hart ≠ cpu ∧ (s.proc r).canRunOnCpu hart

theorem sound_init (numCpus : CpuCount) : Sound (init numCpus) := by
  intro cpu
  exact new_holds

theorem no_entry_init (numCpus : CpuCount) (cpu : Nat) (r : Ref) : ¬ Entry (init numCpus) cpu r := by
  rintro (member | member)
  · exact not_mem_nil member
  · exact not_mem_nil (show r ∈ ([] : List Ref) from member)

/-! ## Entering -/

variable {s : Scheduler} {cpu other : Nat} {r r' : Ref} {pid : Pid}

theorem Stealable.before {t : Scheduler} (here : Stealable t cpu r) (member : InDeque s cpu r)
    (same : (t.proc r).cpuAffinity = (s.proc r).cpuAffinity) : Stealable s cpu r := by
  obtain ⟨hart, apart, may⟩ := here.thief
  rw [canRunOnCpu, same] at may
  exact ⟨here.notZero, member, hart, apart, may⟩

theorem sound_update (sound : Sound s) (cpu : Nat) {d : WorkStealingDeque Ref} {l : List Ref} (holds : d.Holds l) :
    Sound { s with stealQueues := update s.stealQueues cpu d } := by
  apply (forall_update_iff s.stealQueues fun _ d => d.Holds d.items).mpr
  rw [items_eq holds]
  exact ⟨holds, fun other _ => sound other⟩

theorem sound_pushBoth (sound : Sound s) (cpu : Nat) (r : Ref) : Sound (s.pushBoth cpu r) :=
  sound_update sound cpu (push_holds (sound cpu) r)

theorem queue_pushBoth (member : r' ∈ (s.pushBoth cpu r).queues other) :
    r' ∈ s.queues other ∨ r' = r ∧ other = cpu := by
  by_cases same : other = cpu
  · subst same
    simp only [pushBoth, update_self] at member
    rcases mem_cons.mp ((RunQueue.enqueue_perm _ _ _).mem_iff.mp member) with rfl | old
    · exact .inr ⟨rfl, rfl⟩
    · exact .inl old
  · simp only [pushBoth, update_of_ne same] at member
    exact .inl member

theorem deque_pushBoth (sound : Sound s)
    (member : InDeque (s.pushBoth cpu r) other r') : InDeque s other r' ∨ r' = r ∧ other = cpu := by
  by_cases same : other = cpu
  · subst same
    simp only [InDeque, pushBoth, update_self] at member
    rw [items_eq (push_holds (sound other) r)] at member
    rcases mem_append.mp member with old | new
    · exact .inl old
    · exact .inr ⟨mem_singleton.mp new, rfl⟩
  · simp only [InDeque, pushBoth, update_of_ne same] at member
    exact .inl member

theorem entry_pushBoth (sound : Sound s)
    (entry : Entry (s.pushBoth cpu r) other r') : Entry s other r' ∨ r' = r ∧ other = cpu := by
  rcases entry with queued | member
  · exact (queue_pushBoth queued).imp .inl id
  · exact (deque_pushBoth sound member).imp .inr id

/-! ## Picking -/

/-- The entries of `t` are entries of `s`, in a deque only if they were in that deque; nothing else changed. -/
structure Thinned (s t : Scheduler) : Prop where
  sound : Sound t
  queues : ∀ cpu r, r ∈ t.queues cpu → Entry s cpu r
  deques : ∀ cpu r, InDeque t cpu r → InDeque s cpu r
  processes : t.processes = s.processes
  numCpus : t.numCpus = s.numCpus

namespace Thinned

variable {s t u : Scheduler}

theorem refl (sound : Sound s) : Thinned s s := ⟨sound, fun _ _ => .inl, fun _ _ => id, rfl, rfl⟩

theorem trans (first : Thinned s t) (second : Thinned t u) : Thinned s u where
  sound := second.sound
  queues cpu r member := by
    rcases second.queues cpu r member with queued | inDeque
    · exact first.queues cpu r queued
    · exact .inr (first.deques cpu r inDeque)
  deques cpu r member := first.deques cpu r (second.deques cpu r member)
  processes := second.processes.trans first.processes
  numCpus := second.numCpus.trans first.numCpus

theorem entry (change : Thinned s t) {cpu : Nat} {r : Ref} (here : Entry t cpu r) : Entry s cpu r := by
  rcases here with queued | member
  · exact change.queues cpu r queued
  · exact .inr (change.deques cpu r member)

theorem proc (change : Thinned s t) (r : Ref) : t.proc r = s.proc r := by
  rw [Scheduler.proc, Scheduler.proc, change.processes]

end Thinned

/-- Entries and registrations are dropped, and the processes are as they were. -/
structure Forgets (s t : Scheduler) : Prop where
  sound : Sound t
  entries : ∀ cpu r, Entry t cpu r → Entry s cpu r
  deques : ∀ cpu r, InDeque t cpu r → InDeque s cpu r
  count : t.processes.count = s.processes.count
  proc : t.proc = s.proc
  table : ∀ pid r, t.processes.table pid = some r → s.processes.table pid = some r
  numCpus : t.numCpus = s.numCpus

theorem Thinned.forgets {t : Scheduler} (change : Thinned s t) : Forgets s t :=
  ⟨change.sound, fun _ _ => change.entry, change.deques, by rw [change.processes], funext change.proc,
    fun _ _ found => change.processes ▸ found, change.numCpus⟩

theorem thinned_deque (sound : Sound s) (cpu : Nat) {d : WorkStealingDeque Ref} {l : List Ref}
    (holds : d.Holds l) (fewer : l ⊆ (s.stealQueues cpu).items) :
    Thinned s { s with stealQueues := update s.stealQueues cpu d } := by
  refine ⟨sound_update sound cpu holds, fun _ _ => .inl, fun other r member => ?_, rfl, rfl⟩
  by_cases same : other = cpu
  · subst same
    simp only [InDeque, update_self] at member
    rw [items_eq holds] at member
    exact fewer member
  · simpa only [InDeque, update_of_ne same] using member

theorem thinned_queue (sound : Sound s) (cpu : Nat) {q : RunQueue} (fewer : q ⊆ s.queues cpu) :
    Thinned s { s with queues := update s.queues cpu q } := by
  refine ⟨sound, fun other r member => ?_, fun _ _ => id, rfl, rfl⟩
  by_cases same : other = cpu
  · subst same
    simp only [update_self] at member
    exact .inl (fewer member)
  · simp only [update_of_ne same] at member
    exact .inl member

theorem RunQueue.remove_subset (proc : Ref → Process) (q : RunQueue) (pid : Pid) : (remove proc q pid).2 ⊆ q := by
  rw [remove, takeFirst_eq]
  exact eraseP_subset

/-- The stealing path: what is returned was in the deque of another CPU, not of CPU 0, and may run on this one. -/
theorem stealLoop_entries (cpuId : Nat) : ∀ (victims : List Nat) {s : Scheduler}, Sound s →
    Thinned s (s.stealLoop cpuId victims).2 ∧
    ∀ r, (s.stealLoop cpuId victims).1 = some r →
      ∃ victim, (victim ≠ cpuId ∧ victim ≠ 0) ∧ InDeque s victim r ∧ (s.proc r).canRunOnCpu cpuId := by
  intro victims
  induction victims with
  | nil => exact fun sound => ⟨.refl sound, nofun⟩
  | cons victim victims ih =>
    intro s sound
    by_cases skipped : victim = cpuId ∨ victim = 0
    · rw [stealLoop, if_pos skipped]
      exact ih sound
    · rw [stealLoop, if_neg skipped]
      have held := sound victim
      cases items : (s.stealQueues victim).items with
      | nil =>
        rw [items] at held
        rw [steal_empty held]
        exact ih sound
      | cons r rest =>
        have member : InDeque s victim r := by
          rw [InDeque, items]
          exact mem_cons_self
        rw [items] at held
        obtain ⟨d, stolen, holds⟩ := steal_holds held
        have taken : Thinned s { s with stealQueues := update s.stealQueues victim d } :=
          thinned_deque sound victim holds (by rw [items]; exact subset_cons_self r rest)
        rw [stolen]
        simp only []
        split_ifs with may
        · refine ⟨taken.trans (thinned_queue taken.sound victim (RunQueue.remove_subset _ _ _)), fun r' same => ?_⟩
          cases same
          exact ⟨victim, not_or.mp skipped, member, may⟩
        · -- put back where it was
          have back : Thinned s (pushBoth
              { s with stealQueues := update s.stealQueues victim d } victim r) := by
            refine ⟨sound_pushBoth taken.sound victim r, fun cpu r' queued => ?_, fun cpu r' inside => ?_, rfl, rfl⟩
            · rcases queue_pushBoth queued with old | ⟨rfl, rfl⟩
              · exact .inl old
              · exact .inr member
            · rcases deque_pushBoth taken.sound inside with old | ⟨rfl, rfl⟩
              · exact taken.deques cpu r' old
              · exact member
          obtain ⟨later, returned⟩ := ih back.sound
          refine ⟨back.trans later, fun r' same => ?_⟩
          obtain ⟨other, apart, inside, may⟩ := returned r' same
          exact ⟨other, apart, back.deques other r' inside, may⟩

/-- What `pickNext` leaves, and what it returns: a ready process of the CPU's own run queue, or one from the
deque of another CPU that may run here; whichever victim is drawn first. -/
theorem pickNext_entries (sound : Sound s) (new : UInt64) (cpuId : Nat) :
    Thinned s (s.pickNextWith new cpuId).2 ∧
    ∀ r, (s.pickNextWith new cpuId).1 = some r →
      r ∈ s.queues cpuId ∧ (s.proc r).state.isRunnable ∨
      ∃ victim, (victim ≠ cpuId ∧ victim ≠ 0) ∧ InDeque s victim r ∧ (s.proc r).canRunOnCpu cpuId := by
  unfold pickNextWith
  cases ready : (s.queues cpuId).find? fun r => (s.proc r).state.isRunnable with
  | some r =>
    obtain ⟨queue, dequeued, perm⟩ := RunQueue.dequeue_some s.proc ready
    rw [dequeued]
    obtain ⟨-, popped⟩ := pop_holds (sound cpuId)
    have popping := thinned_deque sound cpuId popped (dropLast_subset _)
    refine ⟨popping.trans (thinned_queue popping.sound cpuId fun r' member => ?_), fun r' same => ?_⟩
    · exact perm.mem_iff.mpr (mem_cons_of_mem _ member)
    · cases same
      exact .inl ⟨mem_of_find?_eq_some ready, by simpa using find?_some ready⟩
  | none =>
    rw [RunQueue.dequeue_none s.proc ready]
    simp only []
    split
    · exact ⟨.refl sound, nofun⟩
    · have drawn : Thinned s { s with rngState := new } := ⟨sound, fun _ _ => .inl, fun _ _ => id, rfl, rfl⟩
      obtain ⟨thinned, returned⟩ := stealLoop_entries cpuId _ drawn.sound
      exact ⟨drawn.trans thinned, fun r same => .inr (returned r same)⟩

/-! ## Staying -/

theorem stays_pushBoth (member : r ∈ s.queues cpu) (other : Nat) (r' : Ref) : r ∈ (s.pushBoth other r').queues cpu := by
  by_cases same : cpu = other
  · subst same
    simp only [pushBoth, update_self]
    exact (RunQueue.enqueue_perm _ _ _).mem_iff.mpr (mem_cons_of_mem _ member)
  · simpa only [pushBoth, update_of_ne same] using member

theorem enters_pushBoth (s : Scheduler) (cpu : Nat) (r : Ref) : r ∈ (s.pushBoth cpu r).queues cpu := by
  simp only [pushBoth, update_self]
  exact (RunQueue.enqueue_perm _ _ _).mem_iff.mpr mem_cons_self

theorem RunQueue.stays_remove {proc : Ref → Process} {q : RunQueue} (member : r ∈ q)
    (other : (proc r).pid ≠ pid) : r ∈ (remove proc q pid).2 := by
  rw [remove, takeFirst_eq]
  exact (mem_eraseP_of_neg (by simpa using other)).mpr member

theorem stays_stealLoop (cpuId : Nat) : ∀ (victims : List Nat) {s : Scheduler} {cpu : Nat} {r : Ref}, r ∈ s.queues cpu →
    r ∈ (s.stealLoop cpuId victims).2.queues cpu ∨
    ∃ r', (s.stealLoop cpuId victims).1 = some r' ∧ (s.proc r').pid = (s.proc r).pid := by
  intro victims
  induction victims with
  | nil => exact fun member => .inl member
  | cons victim victims ih =>
    intro s cpu r member
    rw [stealLoop]
    split
    · exact ih member
    · split
      · rename_i process deque stolen
        dsimp only
        split
        · by_cases same : (s.proc process).pid = (s.proc r).pid
          · exact .inr ⟨process, rfl, same⟩
          · left
            by_cases here : cpu = victim
            · subst here
              simp only [update_self]
              exact RunQueue.stays_remove member (Ne.symm same)
            · simpa only [update_of_ne here] using member
        · exact ih
            (stays_pushBoth member victim process)
      · exact ih member
      · exact ih member

/-- A process stays in its run queue unless `pickNext` returns one with its pid. -/
theorem stays_pickNext (new : UInt64) (cpuId : Nat) (member : r ∈ s.queues cpu) :
    r ∈ (s.pickNextWith new cpuId).2.queues cpu ∨
    ∃ r', (s.pickNextWith new cpuId).1 = some r' ∧ (s.proc r').pid = (s.proc r).pid := by
  unfold pickNextWith
  cases ready : (s.queues cpuId).find? fun r => (s.proc r).state.isRunnable with
  | some first =>
    obtain ⟨queue, dequeued, perm⟩ := RunQueue.dequeue_some s.proc ready
    rw [dequeued]
    by_cases here : cpu = cpuId
    · subst here
      rcases mem_cons.mp (perm.mem_iff.mp member) with rfl | rest
      · exact .inr ⟨r, rfl, rfl⟩
      · left
        simpa only [update_self] using rest
    · left
      simpa only [update_of_ne here] using member
  | none =>
    rw [RunQueue.dequeue_none s.proc ready]
    simp only []
    split
    · exact .inl member
    · exact stays_stealLoop cpuId _ member

/-! ## Spawning, giving back, exiting and killing -/

/-- The process that a spawn makes. -/
def spawnedProcess (new : Pid → String → Nat → Process) (pid : Pid) (name : String) (entry : Nat) (priority : Priority)
    (cpuAffinity : Option Nat) : Process :=
  ((match cpuAffinity with
    | some cpu => { new pid name entry with priority := priority }.setCpuAffinity cpu
    | none => { new pid name entry with priority := priority }) : Process).markReady

/-- No two processes have the same pid. -/
def DistinctPids (s : Scheduler) : Prop :=
  ∀ r r', r < s.processes.count → r' < s.processes.count → (s.proc r).pid = (s.proc r').pid → r = r'

/-- The process `p` was created, registered and not yet queued. -/
structure Created (s t : Scheduler) (p : Process) : Prop where
  queues : t.queues = s.queues
  stealQueues : t.stealQueues = s.stealQueues
  numCpus : t.numCpus = s.numCpus
  count : t.processes.count = s.processes.count + 1
  proc : t.proc = Function.update s.proc s.processes.count p
  nextPid : t.processes.nextPid = s.processes.nextPid + 1
  table : t.processes.table = Function.update s.processes.table p.pid (some s.processes.count)

namespace Created

variable {s t : Scheduler} {p : Process}

section

variable (made : Created s t p)
include made

theorem old (present : r < s.processes.count) : t.proc r = s.proc r := by
  rw [made.proc, update_of_ne (Nat.ne_of_lt present)]

theorem new : t.proc s.processes.count = p := by
  rw [made.proc, update_self]

theorem present_iff : r < t.processes.count ↔ r < s.processes.count ∨ r = s.processes.count := by
  rw [made.count]
  exact Nat.lt_succ_iff_lt_or_eq

theorem sound (sound : Sound s) : Sound t := by
  rw [Sound, made.stealQueues]
  exact sound

theorem inDeque (member : InDeque t cpu r) : InDeque s cpu r := by
  rwa [InDeque, made.stealQueues] at member

theorem entry (entry : Entry t cpu r) : Entry s cpu r := by
  rwa [Entry, InDeque, made.queues, made.stealQueues] at entry

theorem registered (found : t.processes.table pid = some r) :
    pid = p.pid ∧ r = s.processes.count ∨ s.processes.table pid = some r := by
  rw [made.table] at found
  by_cases same : pid = p.pid
  · rw [same, update_self] at found
    exact .inl ⟨same, (Option.some.inj found).symm⟩
  · rw [update_of_ne same] at found
    exact .inr found

theorem byPid (byPid : ∀ pid r, s.processes.table pid = some r → r < s.processes.count ∧ (s.proc r).pid = pid) :
    ∀ pid r, t.processes.table pid = some r → r < t.processes.count ∧ (t.proc r).pid = pid := by
  intro pid r found
  rw [made.present_iff]
  rcases made.registered found with ⟨rfl, rfl⟩ | before
  · exact ⟨.inr rfl, congrArg pid made.new⟩
  · obtain ⟨present, same⟩ := byPid pid r before
    rw [made.old present]
    exact ⟨.inl present, same⟩

theorem distinctPids (fresh : ∀ r, r < s.processes.count → (s.proc r).pid ≠ p.pid) (distinct : DistinctPids s) :
    DistinctPids t := by
  intro r r' small small' same
  rcases made.present_iff.mp small with old | rfl <;> rcases made.present_iff.mp small' with old' | rfl
  · rw [made.old old, made.old old'] at same
    exact distinct r r' old old' same
  · rw [made.old old, made.new] at same
    exact absurd same (fresh r old)
  · rw [made.new, made.old old'] at same
    exact absurd same.symm (fresh r' old')
  · rfl

end

end Created

theorem spawnProcess_eq (s : Scheduler) (new : Pid → String → Nat → Process) (harts : Harts) (name : String)
    (entry : Nat)
    (priority : Priority) (cpuAffinity : Option Nat) :
    ∃ t cpu, Created s t (spawnedProcess new s.processes.nextPid name entry priority cpuAffinity) ∧
      (spawnProcess new s harts name entry priority cpuAffinity).2 = t.pushBoth cpu s.processes.count ∧
      ∀ a, cpuAffinity = some a → cpu = min a (s.numCpus - 1) := by
  refine ⟨_, _, ?_, rfl, ?_⟩
  · refine ⟨rfl, rfl, rfl, rfl, ?_, rfl, ?_⟩
    · funext r
      by_cases same : r = s.processes.count
      · subst same
        simp only [Scheduler.modify, proc, Processes.modify, Processes.register, update_self]
        cases cpuAffinity <;> rfl
      · simp only [Scheduler.modify, proc, Processes.modify, Processes.register, update_of_ne same]
    · cases cpuAffinity with
      | none =>
        simp only [Processes.register, update_self]
        rfl
      | some cpu =>
        simp only [Processes.register, update_self]
        rfl
  · rintro a rfl
    rfl

theorem requeue_eq (s : Scheduler) (harts : Harts) (r : Ref) :
    ∃ cpu, s.requeue harts r = (s.modify r markReady).pushBoth cpu r ∧
      ∀ a, (s.proc r).getCpuAffinity = some a → cpu = min a (s.numCpus - 1) := by
  refine ⟨_, rfl, fun a pinned => ?_⟩
  have same : ((s.modify r markReady).proc r).getCpuAffinity = some a := by
    simp only [Scheduler.modify, proc, Processes.modify, update_self]
    exact pinned
  rw [same]
  rfl

theorem proc_modify (s : Scheduler) (r r' : Ref) (change : Process → Process) :
    (s.modify r change).proc r' = if r' = r then change (s.proc r) else s.proc r' := by
  simp only [Scheduler.modify, proc, Processes.modify, update_apply]

theorem modify_keeps {α : Type} (field : Process → α) (change : Process → Process)
    (kept : ∀ p, field (change p) = field p)
    (s : Scheduler) (r r' : Ref) : field ((s.modify r change).proc r') = field (s.proc r') := by
  rw [proc_modify]
  split
  · rename_i same
    rw [kept, same]
  · rfl

/-- A change of state, current CPU or exit code only. -/
structure Marks (change : Process → Process) : Prop where
  pid : ∀ p, (change p).pid = p.pid
  name : ∀ p, (change p).name = p.name
  priority : ∀ p, (change p).priority = p.priority
  affinity : ∀ p, (change p).cpuAffinity = p.cpuAffinity
  entry : ∀ p, (change p).entry = p.entry
  flags : ∀ p, (change p).flags = p.flags

theorem Marks.ready : Marks markReady :=
  ⟨fun _ => rfl, fun _ => rfl, fun _ => rfl, fun _ => rfl, fun _ => rfl, fun _ => rfl⟩

theorem Marks.running (cpu : Nat) : Marks (markRunning cpu) :=
  ⟨fun _ => rfl, fun _ => rfl, fun _ => rfl, fun _ => rfl, fun _ => rfl, fun _ => rfl⟩

theorem Marks.exited (exitCode : Nat) : Marks (markExited exitCode) :=
  ⟨fun _ => rfl, fun _ => rfl, fun _ => rfl, fun _ => rfl, fun _ => rfl, fun _ => rfl⟩

theorem shouldRestart_exited (s : Scheduler) (r : Ref) (exitCode : Nat) :
    ((s.modify r (markExited exitCode)).proc r).shouldRestart = (s.proc r).shouldRestart :=
  modify_keeps shouldRestart (markExited exitCode) (fun _ => rfl) s r r

section

variable (found : s.processes.table pid = some r)
include found

theorem exit_ends (ends : (s.proc r).shouldRestart = false) (harts : Harts) (exitCode : Nat) :
    s.exit harts pid exitCode = s.modify r (markExited exitCode) := by
  have flag : ((s.modify r (markExited exitCode)).proc r).shouldRestart = false :=
    (shouldRestart_exited s r exitCode).trans ends
  simp only [exit, found, flag, Bool.false_eq_true, if_false]

theorem exit_restarts (restarts : (s.proc r).shouldRestart = true) (harts : Harts) (exitCode : Nat) :
    s.exit harts pid exitCode = (spawnProcess newDaemon (s.modify r (markExited exitCode)) harts
      (s.proc r).name (s.proc r).entry (s.proc r).priority none).2 := by
  have same : (s.modify r (markExited exitCode)).proc r = markExited exitCode (s.proc r) := by
    rw [proc_modify, if_pos rfl]
  simp only [exit, found, same]
  exact if_pos restarts

theorem kill_restarts (restarts : (s.proc r).shouldRestart = true) :
    (s.kill pid).2 = (s.modify r (markExited 137)).removeFromQueues pid := by
  have flag : (((s.modify r (markExited 137)).removeFromQueues pid).proc r).shouldRestart = true :=
    (shouldRestart_exited s r 137).trans restarts
  simp only [kill, found, flag, if_true]

end

/-- `exit` marks the registered process, and spawns it anew if it is to restart. -/
theorem exit_cases (s : Scheduler) (harts : Harts) (pid : Pid) (exitCode : Nat) :
    s.exit harts pid exitCode = s ∧ s.processes.table pid = none ∨
    ∃ r, s.processes.table pid = some r ∧
      (s.exit harts pid exitCode = s.modify r (markExited exitCode) ∨
        s.exit harts pid exitCode = (spawnProcess newDaemon (s.modify r (markExited exitCode)) harts
          (s.proc r).name (s.proc r).entry (s.proc r).priority none).2) := by
  cases found : s.processes.table pid with
  | none => exact .inl ⟨by rw [exit, found], rfl⟩
  | some r =>
    refine .inr ⟨r, rfl, ?_⟩
    cases restarts : (s.proc r).shouldRestart with
    | false => exact .inl (exit_ends found restarts harts exitCode)
    | true => exact .inr (exit_restarts found restarts harts exitCode)

/-- `kill` marks the registered process, takes it out of the run queues and, unless it is to restart, out of the
process table. -/
theorem kill_cases (s : Scheduler) (pid : Pid) :
    (s.kill pid).2 = s ∧ s.processes.table pid = none ∨
    ∃ r, s.processes.table pid = some r ∧
      ((s.kill pid).2 = (s.modify r (markExited 137)).removeFromQueues pid ∧ (s.proc r).shouldRestart ∨
        (s.kill pid).2 = { (s.modify r (markExited 137)).removeFromQueues pid with
          processes := (s.processes.modify r (markExited 137)).unregister pid }) := by
  cases found : s.processes.table pid with
  | none => exact .inl ⟨by rw [kill, found], rfl⟩
  | some r =>
    refine .inr ⟨r, rfl, ?_⟩
    cases restarts : (s.proc r).shouldRestart with
    | true => exact .inl ⟨kill_restarts found restarts, rfl⟩
    | false =>
      have flag : (((s.modify r (markExited 137)).removeFromQueues pid).proc r).shouldRestart = false :=
        (shouldRestart_exited s r 137).trans restarts
      right
      simp only [kill, found, flag]
      rfl

theorem of_unregister {t : Processes} {other : Pid} (found : (t.unregister pid).table other = some r) :
    t.table other = some r := by
  simp only [Processes.unregister, update_apply] at found
  split_ifs at found
  exact found

theorem stays_removeFromQueues (member : r ∈ s.queues cpu)
    (other : (s.proc r).pid ≠ pid) : r ∈ (s.removeFromQueues pid).queues cpu := by
  simp only [removeFromQueues]
  split
  · exact RunQueue.stays_remove member other
  · exact member

theorem queue_removeFromQueues (member : r ∈ (s.removeFromQueues pid).queues cpu) : r ∈ s.queues cpu := by
  simp only [removeFromQueues] at member
  split at member
  · exact RunQueue.remove_subset _ _ _ member
  · exact member

theorem kill_forgets (sound : Sound s) (pid : Pid) : (s.kill pid).2 = s ∨
    ∃ r, s.processes.table pid = some r ∧ Forgets (s.modify r (markExited 137)) (s.kill pid).2 := by
  rcases kill_cases s pid with ⟨same, -⟩ | ⟨r, found, ⟨ran, -⟩ | ran⟩
  · exact .inl same
  · rw [ran]
    exact .inr
      ⟨r, found, sound, fun _ _ => Or.imp_left queue_removeFromQueues, fun _ _ => id, rfl, rfl, fun _ _ => id, rfl⟩
  · rw [ran]
    exact .inr ⟨r, found, sound, fun _ _ => Or.imp_left queue_removeFromQueues, fun _ _ => id, rfl, rfl,
      fun _ _ => of_unregister, rfl⟩

end HavyOs.Sched
