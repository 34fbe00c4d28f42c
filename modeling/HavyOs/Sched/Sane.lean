import HavyOs.Lib.Run
import HavyOs.Sched.Entries
import HavyOs.Sched.HartLoop

/-!
# What every state of the scheduler keeps

Whatever calls are made, in whatever order: the references in the queues, in the deques, in the table and in
the hart loops are to processes that exist, the table is by pid, and only daemons restart.
-/

namespace HavyOs.Sched

open Lib Process

/-- References are to processes that exist, the table is by pid, and what restarts is a daemon. -/
structure Sane (k : Kernel) : Prop where
  sound : Sound k.sched
  known : ∀ cpu r, Entry k.sched cpu r → r < k.sched.processes.count
  held : ∀ hart r, k.harts hart = .picked r ∨ k.harts hart = .running r → r < k.sched.processes.count
  registered : ∀ pid r, k.sched.processes.table pid = some r → r < k.sched.processes.count ∧ (k.sched.proc r).pid = pid
  flags : ∀ r, r < k.sched.processes.count → (k.sched.proc r).shouldRestart = true → (k.sched.proc r).isDaemon = true

theorem sane_init (numCpus : CpuCount) : Sane (Kernel.init numCpus) where
  sound := sound_init numCpus
  known cpu r entry := absurd entry (no_entry_init numCpus cpu r)
  held hart r held := absurd held (by simp [Kernel.init])
  registered pid r found := nomatch found
  flags r present := absurd present (Nat.not_lt_zero r)

namespace Sane

variable {k : Kernel}

variable (h : Sane k)

include h

theorem modify (r : Ref) {change : Process → Process} (marks : Marks change) :
    Sane { k with sched := k.sched.modify r change } := by
  refine ⟨h.sound, h.known, h.held, fun p r' found => ⟨(h.registered p r' found).1, ?_⟩, fun r' present => ?_⟩
  · exact (modify_keeps Process.pid change marks.pid k.sched r r').trans (h.registered p r' found).2
  · change ((k.sched.modify r change).proc r').flags.restartOnExit = true → _
    change _ → ((k.sched.modify r change).proc r').flags.daemon = true
    rw [modify_keeps Process.flags change marks.flags]
    exact h.flags r' present

theorem pushBoth {r : Ref} (present : r < k.sched.processes.count) (cpu : Nat) :
    Sane { k with sched := k.sched.pushBoth cpu r } := by
  refine ⟨sound_pushBoth h.sound cpu r, fun other r' entry => ?_, h.held, h.registered, h.flags⟩
  rcases entry_pushBoth h.sound entry with old | ⟨rfl, -⟩
  · exact h.known other r' old
  · exact present

/-- Entries and registrations may be dropped. -/
theorem forget {t : Scheduler} (change : Forgets k.sched t) : Sane { k with sched := t } where
  sound := change.sound
  known cpu r entry := change.count ▸ h.known cpu r (change.entries cpu r entry)
  held hart r held := change.count ▸ h.held hart r held
  registered pid r found := by
    rw [change.count, change.proc]
    exact h.registered pid r (change.table pid r found)
  flags r present := by
    rw [change.count] at present
    rw [change.proc]
    exact h.flags r present

/-- A process is added, which restarts only if it is a daemon. -/
theorem created {t : Scheduler} {p : Process} (made : Created k.sched t p)
    (flags : p.shouldRestart = true → p.isDaemon = true) : Sane { k with sched := t } := by
  refine ⟨made.sound h.sound, fun cpu r entry => ?_, fun hart r held => ?_, made.byPid h.registered,
    fun r present => ?_⟩
  · exact made.present_iff.mpr (.inl (h.known cpu r (made.entry entry)))
  · exact made.present_iff.mpr (.inl (h.held hart r held))
  · rcases made.present_iff.mp present with before | rfl
    · rw [made.old before]
      exact h.flags r before
    · rw [made.new]
      exact flags

/-- A hart may hold only what exists. -/
theorem setHart (hart : Nat) {phase : HartPhase}
    (present : ∀ r, phase = .picked r ∨ phase = .running r → r < k.sched.processes.count) :
    Sane (k.setHart hart phase) := by
  refine ⟨h.sound, h.known, fun other r held => ?_, h.registered, h.flags⟩
  rcases k.harts_setHart hart phase other with new | old
  · exact present r (new ▸ held)
  · exact h.held other r (old ▸ held)

theorem setWaits (waitQueues : Nat → List Waiter) : Sane { k with waitQueues := waitQueues } :=
  ⟨h.sound, h.known, h.held, h.registered, h.flags⟩

theorem spawn {new : Pid → String → Nat → Process} (harts : Harts) (name : String) (entry : Nat) (priority : Priority)
    (cpuAffinity : Option Nat)
    (flags : ∀ pid, (new pid name entry).flags.restartOnExit = true → (new pid name entry).flags.daemon = true) :
    Sane { k with sched := (Scheduler.spawnProcess new k.sched harts name entry priority cpuAffinity).2 } := by
  obtain ⟨t, cpu, made, ran, -⟩ := spawnProcess_eq k.sched new harts name entry priority cpuAffinity
  have first := h.created made (by cases cpuAffinity with
    | none => exact flags _
    | some a => exact flags _)
  rw [ran]
  exact first.pushBoth (made.present_iff.mpr (.inr rfl)) cpu

variable (harts : Harts)

theorem requeue {r : Ref} (present : r < k.sched.processes.count) :
    Sane { k with sched := k.sched.requeue harts r } := by
  obtain ⟨cpu, ran, -⟩ := requeue_eq k.sched harts r
  rw [ran]
  exact (h.modify r .ready).pushBoth present cpu

variable (pid : Pid)

theorem exit (exitCode : Nat) : Sane { k with sched := k.sched.exit harts pid exitCode } := by
  rcases exit_cases k.sched harts pid exitCode with ⟨same, -⟩ | ⟨r, -, same | same⟩
  · rw [same]
    exact h
  · rw [same]
    exact h.modify r (.exited exitCode)
  · rw [same]
    exact (h.modify r (.exited exitCode)).spawn harts _ _ _ none fun _ _ => rfl

theorem kill : Sane { k with sched := (k.sched.kill pid).2 } := by
  rcases kill_forgets h.sound pid with same | ⟨r, -, change⟩
  · rw [same]
    exact h
  · exact (h.modify r (.exited 137)).forget change

theorem markReadyPid : Sane { k with sched := k.sched.markReadyPid pid } := by
  unfold Scheduler.markReadyPid
  split
  · exact h.modify _ .ready
  · exact h

/-- The loop that wakes, by induction on the waiters. -/
theorem wakeAll (waiters : List Waiter) :
    Sane { k with sched := waiters.foldl (fun s waiter => s.markReadyPid waiter.pid) k.sched } := by
  induction waiters generalizing k with
  | nil => exact h
  | cons waiter waiters ih => exact ih (h.markReadyPid waiter.pid)

theorem wakeOne (queue : Nat) : Sane (k.wakeOne queue) := by
  unfold Kernel.wakeOne
  split
  · exact h
  · exact (h.markReadyPid _).setWaits _

/-- A process that is picked exists. -/
theorem pickNext (new : UInt64) (cpuId : Nat) : Sane { k with sched := (k.sched.pickNextWith new cpuId).2 } ∧
      ∀ r, (k.sched.pickNextWith new cpuId).1 = some r → r < k.sched.processes.count := by
  obtain ⟨thinned, returned⟩ := pickNext_entries h.sound new cpuId
  refine ⟨h.forget thinned.forgets, fun r same => ?_⟩
  rcases returned r same with ⟨queued, -⟩ | ⟨victim, -, member, -⟩
  · exact h.known cpuId r (.inl queued)
  · exact h.known victim r (.inr member)

/-- One step of a hart loop, whatever the hart is at. -/
theorem hartStep (hart : Nat) : Sane (k.hartStep harts hart).2 := by
  unfold Kernel.hartStep
  cases phase : k.harts hart with
  | idle =>
    obtain ⟨left, present⟩ := h.pickNext (Scheduler.nextRngState k.sched.rngState) hart
    have same : (k.sched.pickNextWith (Scheduler.nextRngState k.sched.rngState) hart).2.processes = k.sched.processes :=
      (pickNext_entries h.sound _ hart).1.processes
    rw [Scheduler.pickNext]
    generalize k.sched.pickNextWith (Scheduler.nextRngState k.sched.rngState) hart = result at left present same
    obtain ⟨out, t⟩ := result
    cases out with
    | none => exact left
    | some process =>
      refine left.setHart hart fun r held => ?_
      cases held.resolve_right (by simp)
      rw [same]
      exact present process rfl
  | picked process =>
    refine (h.modify process (.running hart)).setHart hart fun r held => ?_
    cases held.resolve_left (by simp)
    exact h.held hart process (.inl phase)
  | running process =>
    dsimp only
    split
    · exact (h.requeue harts (h.held hart process (.inr phase))).setHart hart (by simp)
    · exact (h.exit harts _ 0).setHart hart (by simp)

/-- **One operation keeps the state sane.** -/
theorem step {label : KernelOp × Option Ref} {k' : Kernel} (taken : kernelStep k label k') : Sane k' := by
  obtain ⟨op, _⟩ := label
  obtain ⟨refers, ran⟩ := taken
  have result : Sane (op.exec k).2 := by
    cases op with
    | call op =>
      cases op with
      | spawn harts name entry priority affinity => exact h.spawn harts name entry priority affinity nofun
      | spawnDaemon harts name entry priority affinity =>
        exact h.spawn harts name entry priority affinity fun _ _ => rfl
      | requeue harts process => exact h.requeue harts refers
      | pickNext cpuId => exact (h.pickNext _ cpuId).1
      | exit harts pid exitCode => exact h.exit harts pid exitCode
      | markRunning process cpuId => exact h.modify process (.running cpuId)
    | kill pid => exact h.kill pid
    | hartStep harts hart => exact h.hartStep harts hart
    | wait queue waiter => exact h.setWaits _
    | wakeOne queue => exact h.wakeOne queue
    | wakeAll queue => exact (h.wakeAll _).setWaits _
    | wakeEvent queue event => exact (h.wakeAll _).setWaits _
    | wakeByData queue data => exact (h.wakeAll _).setWaits _
    | checkTimeouts queue currentTime => exact (h.wakeAll _).setWaits _
  rwa [ran] at result

end Sane

/-- **Every state that operations lead to is sane.** -/
theorem sane_of_run {numCpus : CpuCount} {labels : List (KernelOp × Option Ref)} {k : Kernel}
    (reached : Run kernelStep (Kernel.init numCpus) labels k) : Sane k :=
  reached.invariant (fun _ _ _ h taken => h.step taken) (sane_init numCpus)

end HavyOs.Sched
