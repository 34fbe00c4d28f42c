import HavyOs.Lib.Run
import HavyOs.Sched.Entries

/-!
# Pinned processes

A process with a CPU affinity is returned only to that CPU. The local path of `pickNext` does
not look at the affinity, so this rests on where the entries are: every run queue and every
steal deque holds only processes that may run on its CPU, stale entries included.
-/

namespace HavyOs.Sched

open Lib Process

/-- The calls; a pick may draw any victim first. -/
inductive PinnedCall where
  | call (op : SchedOp)
  | pick (new : UInt64) (cpuId : Fin maxHarts)
  | kill (pid : Pid)

variable (s : Scheduler)

/-- Affinities and CPUs are below the number of CPUs, and references are to processes that exist. -/
def PinnedCall.Allowed : PinnedCall → Prop
  | .call (.spawn _ _ _ _ cpuAffinity) => ∀ a, cpuAffinity = some a → a < s.numCpus.val
  | .call (.spawnDaemon _ _ _ _ cpuAffinity) => ∀ a, cpuAffinity = some a → a < s.numCpus.val
  | .call (.pickNext cpuId) => cpuId.val < s.numCpus.val
  | .call op => op.Refers s
  | .pick _ cpuId => cpuId.val < s.numCpus.val
  | .kill _ => True

def PinnedCall.after : PinnedCall → Scheduler
  | .call op => (exec s op).2
  | .pick new cpuId => (s.pickNextWith new cpuId).2
  | .kill pid => (s.kill pid).2

def pinnedStep (call : PinnedCall) (s' : Scheduler) : Prop := call.Allowed s ∧ call.after s = s'

/-- Every entry may run where it is, and an affinity is that of a CPU. -/
structure Pinned (s : Scheduler) : Prop where
  sound : Sound s
  known : ∀ cpu r, Entry s cpu r → r < s.processes.count
  placed : ∀ cpu r, Entry s cpu r → (s.proc r).canRunOnCpu cpu
  affinity : ∀ r, r < s.processes.count → ∀ a, (s.proc r).getCpuAffinity = some a → a < s.numCpus.val

theorem canRunOnCpu_iff {p : Process} {cpu : Nat} : p.canRunOnCpu cpu ↔ ∀ a, p.getCpuAffinity = some a → a = cpu := by
  unfold canRunOnCpu getCpuAffinity
  by_cases anywhere : p.cpuAffinity = usizeMax
  · simp [anywhere]
  · simp [anywhere]

namespace Pinned

variable {s t : Scheduler}

theorem init (numCpus : CpuCount) : Pinned (Scheduler.init numCpus) where
  sound := sound_init numCpus
  known cpu r entry := absurd entry (no_entry_init numCpus cpu r)
  placed cpu r entry := absurd entry (no_entry_init numCpus cpu r)
  affinity r small := absurd small (Nat.not_lt_zero r)

variable (h : Pinned s)

include h

theorem forget (change : Forgets s t) : Pinned t where
  sound := change.sound
  known cpu r entry := change.count ▸ h.known cpu r (change.entries cpu r entry)
  placed cpu r entry := by
    rw [change.proc]
    exact h.placed cpu r (change.entries cpu r entry)
  affinity r := by
    rw [change.count, change.proc, change.numCpus]
    exact h.affinity r

theorem modify (r : Ref) {change : Process → Process} (marks : Marks change) : Pinned (s.modify r change) := by
  have same := modify_keeps cpuAffinity change marks.affinity s r
  refine ⟨h.sound, h.known, fun cpu r' entry => ?_, fun r' small a pinned => ?_⟩
  · have before := h.placed cpu r' entry
    rw [canRunOnCpu, same]
    exact before
  · rw [getCpuAffinity, same] at pinned
    exact h.affinity r' small a pinned

theorem pushBoth {cpu : Nat} {r : Ref} (present : r < s.processes.count)
    (may : (s.proc r).canRunOnCpu cpu) : Pinned (s.pushBoth cpu r) where
  sound := sound_pushBoth h.sound cpu r
  known other r' entry := by
    rcases entry_pushBoth h.sound entry with old | ⟨rfl, -⟩
    · exact h.known other r' old
    · exact present
  placed other r' entry := by
    rcases entry_pushBoth h.sound entry with old | ⟨rfl, rfl⟩
    · exact h.placed other r' old
    · exact may
  affinity := h.affinity

theorem created {p : Process} (made : Created s t p)
    (below : ∀ a, p.getCpuAffinity = some a → a < s.numCpus.val) : Pinned t := by
  refine ⟨made.sound h.sound, fun cpu r entry => ?_, fun cpu r entry => ?_, fun r small a pinned => ?_⟩
  · exact made.present_iff.mpr (.inl (h.known cpu r (made.entry entry)))
  · rw [made.old (h.known cpu r (made.entry entry))]
    exact h.placed cpu r (made.entry entry)
  · rw [made.numCpus]
    rcases made.present_iff.mp small with before | rfl
    · rw [made.old before] at pinned
      exact h.affinity r before a pinned
    · rw [made.new] at pinned
      exact below a pinned

omit h in
theorem target {p : Process} {cpu : Nat} {numCpus : CpuCount} (below : ∀ a, p.getCpuAffinity = some a → a < numCpus.val)
    (clamped : ∀ a, p.getCpuAffinity = some a → cpu = min a (numCpus - 1)) : p.canRunOnCpu cpu := by
  rw [canRunOnCpu_iff]
  intro a pinned
  have small := below a pinned
  rw [clamped a pinned]
  omega

theorem spawn {new : Pid → String → Nat → Process}
    (anywhere : ∀ pid name entry, (new pid name entry).cpuAffinity = usizeMax) (harts : Harts) (name : String)
    (entry : Nat) (priority : Priority) {cpuAffinity : Option Nat}
    (below : ∀ a, cpuAffinity = some a → a < s.numCpus.val) :
    Pinned (Scheduler.spawnProcess new s harts name entry priority cpuAffinity).2 := by
  obtain ⟨t, cpu, made, ran, clamped⟩ := spawnProcess_eq s new harts name entry priority cpuAffinity
  have own : ∀ a, (spawnedProcess new s.processes.nextPid name entry priority cpuAffinity).getCpuAffinity = some a →
      cpuAffinity = some a := by
    intro a pinned
    cases cpuAffinity with
    | none =>
      have unset : (spawnedProcess new s.processes.nextPid name entry priority none).cpuAffinity = usizeMax :=
        anywhere _ _ _
      rw [getCpuAffinity, if_pos unset] at pinned
      cases pinned
    | some cpu =>
      have set : (spawnedProcess new s.processes.nextPid name entry priority (some cpu)).cpuAffinity = cpu := rfl
      rw [getCpuAffinity, set] at pinned
      by_cases anyCpu : cpu = usizeMax
      · rw [if_pos anyCpu] at pinned
        cases pinned
      · rwa [if_neg anyCpu] at pinned
  rw [ran]
  refine (h.created made fun a pinned => below a (own a pinned)).pushBoth (made.present_iff.mpr (.inr rfl)) ?_
  rw [made.new]
  exact target (fun a pinned => below a (own a pinned)) fun a pinned => clamped a (own a pinned)

theorem requeue (harts : Harts) {r : Ref} (present : r < s.processes.count) : Pinned (s.requeue harts r) := by
  obtain ⟨_, ran, clamped⟩ := requeue_eq s harts r
  rw [ran]
  refine (h.modify r .ready).pushBoth present ?_
  have same : ((s.modify r markReady).proc r).getCpuAffinity = (s.proc r).getCpuAffinity := by
    rw [proc_modify, if_pos rfl]
    rfl
  exact target (fun a pinned => h.affinity r present a (same.symm.trans pinned))
    fun a pinned => clamped a (same.symm.trans pinned)

theorem exit (harts : Harts) (pid : Pid) (exitCode : Nat) : Pinned (s.exit harts pid exitCode) := by
  rcases exit_cases s harts pid exitCode with ⟨same, -⟩ | ⟨r, -, same | same⟩
  · rw [same]
    exact h
  · rw [same]
    exact h.modify r (.exited exitCode)
  · rw [same]
    exact (h.modify r (.exited exitCode)).spawn (fun _ _ _ => rfl) harts _ _ _ (by simp)

theorem kill (pid : Pid) : Pinned (s.kill pid).2 := by
  rcases kill_forgets h.sound pid with same | ⟨r, -, change⟩
  · rw [same]
    exact h
  · exact (h.modify r (.exited 137)).forget change

theorem step {call : PinnedCall} (taken : pinnedStep s call t) : Pinned t := by
  obtain ⟨allowed, rfl⟩ := taken
  cases call with
  | pick new cpuId => exact h.forget (pickNext_entries h.sound new cpuId).1.forgets
  | kill pid => exact h.kill pid
  | call op =>
    cases op with
    | spawn harts name entry priority affinity => exact h.spawn (fun _ _ _ => rfl) harts name entry priority allowed
    | spawnDaemon harts name entry priority affinity =>
      exact h.spawn (fun _ _ _ => rfl) harts name entry priority allowed
    | requeue harts process => exact h.requeue harts allowed
    | pickNext cpuId => exact h.forget (pickNext_entries h.sound _ cpuId).1.forgets
    | exit harts pid exitCode => exact h.exit harts pid exitCode
    | markRunning process cpuId => exact h.modify process (.running cpuId)

end Pinned

/-- **Pinned processes stay on their CPU.** In every state that calls lead to, every run queue and steal deque holds
only processes that are unpinned or pinned to its CPU, and a process that `pickNext` returns, whichever victim is
drawn first, is unpinned or pinned to the CPU that asked. -/
theorem pinned_stay {numCpus : CpuCount} {calls : List PinnedCall} {s : Scheduler}
    (run : Run pinnedStep (Scheduler.init numCpus) calls s) :
    (∀ cpu r, r ∈ s.queues cpu ∨ r ∈ (s.stealQueues cpu).items → ∀ a, (s.proc r).getCpuAffinity = some a → a = cpu) ∧
    ∀ new cpuId r, (s.pickNextWith new cpuId).1 = some r → ∀ a, (s.proc r).getCpuAffinity = some a → a = cpuId := by
  have h : Pinned s := run.invariant (fun _ _ _ h taken => h.step taken) (.init numCpus)
  refine ⟨fun cpu r entry => canRunOnCpu_iff.mp (h.placed cpu r entry), fun new cpuId r returned => ?_⟩
  rw [← canRunOnCpu_iff]
  rcases (pickNext_entries h.sound new cpuId).2 r returned with ⟨queued, -⟩ | ⟨_, -, -, may⟩
  · exact h.placed cpuId r (.inl queued)
  · exact may

/-- A process pinned to CPU 1 is stolen by CPU 0, which puts it back. -/
def putBackCalls : List PinnedCall :=
  [.call (.spawn ⟨fun _ => true, fun _ => true⟩ "a" 0 .normal (some 1)), .pick 0 0]

theorem pinned_stay_put_back : ∃ s, Run pinnedStep (Scheduler.init ⟨2, by decide⟩) putBackCalls s ∧
    s.queues 1 = [0, 0] ∧ ∀ a, (s.proc 0).getCpuAffinity = some a → a = 1 := by
  have run : Run pinnedStep (Scheduler.init ⟨2, by decide⟩) putBackCalls _ :=
    .cons ⟨fun a same => by rw [← Option.some.inj same]; decide, rfl⟩ (.cons ⟨Nat.zero_lt_two, rfl⟩ (.nil _))
  refine ⟨_, run, by decide +kernel, (pinned_stay run).1 1 0 (.inl ?_)⟩
  decide +kernel

end HavyOs.Sched
