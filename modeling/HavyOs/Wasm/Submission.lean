import HavyOs.Wasm.Workers

/-!
# Failed submissions

`submit_job` puts the job in the registry before it looks for the channel of the hart and sends to
it. Here one hart runs it from the first access to the answer.
-/

namespace HavyOs.Wasm

open Function WorkerService

/-- Hart `h`, which nobody interrupts, ends the call it is in with `result`. -/
inductive Answers (h : HartId) (result : Except String JobId) : WorkerService → WorkerService → Prop where
  | done {s : WorkerService} : s.place h = .answered result → Answers h result s s
  | next {s s₁ s' : WorkerService} : s.advance h = some s₁ → Answers h result s₁ s' → Answers h result s s'

/-- The loop of `find_least_loaded_worker`. -/
def leastLoaded (active : HartId → Bool) (score : HartId → UInt64) : List HartId → HartId → UInt64 → HartId
  | [], best, _ => best
  | w :: rest, best, bestScore =>
    if active w && score w < bestScore then leastLoaded active score rest w (score w)
    else leastLoaded active score rest best bestScore

/-- `WorkerStats::load_score`. -/
def WorkerService.score (s : WorkerService) (w : HartId) : UInt64 := loadScore (s.queueDepth w) (s.currentJob w)

/-- The hart a submission is for, unless it is refused. -/
def WorkerService.chosen (s : WorkerService) (r : Request) : Option HartId :=
  match r.targetHart with
  | none =>
    if s.numWorkers = 0 then none else some (leastLoaded s.active s.score s.workers 1 0xffffffffffffffff)
  | some 0 => none
  | some t => if inside : t < maxHarts then some ⟨t, inside⟩ else none

def Place.registered : Place → Bool
  | .getChannel .. => true
  | .send .. => true
  | .increment .. => true
  | .answered _ => true
  | _ => false

/-- The registry and the counters are the same. -/
def SameJobs (s s' : WorkerService) : Prop := s'.jobs.get = s.jobs.get ∧ s'.queueDepth = s.queueDepth

variable {h : HartId} {result : Except String JobId} {error : String} {s s' t : WorkerService} {id : JobId}
  {r : Request}

theorem answers_next (step : s.advance h = some t) : Answers h result s s' ↔ Answers h result t s' := by
  constructor
  · rintro (answered | ⟨step', _⟩)
    · rw [advance, answered] at step
      cases step
    · rwa [← Option.some.inj (step'.symm.trans step)]
  · exact .next step

theorem answers_done {answer : Except String JobId} (place : t.place h = .answered answer) :
    Answers h result t s' ↔ result = answer ∧ s' = t := by
  constructor
  · rintro (answered | ⟨step, -⟩)
    · cases place.symm.trans answered
      exact ⟨rfl, rfl⟩
    · rw [advance, place] at step
      cases step
  · rintro ⟨rfl, rfl⟩
    exact .done place

theorem answers_moved {p : Place} (q : Place)
    (step : (s.moved h p).advance h = some (s.moved h q) := by simp [advance, moved, *]) :
    Answers h result (s.moved h p) s' ↔ Answers h result (s.moved h q) s' := answers_next step

theorem answers_search (ahead : List HartId) (best : HartId) (bestScore : UInt64) :
    Answers h result (s.moved h (.loadActive id r ⟨ahead, best, bestScore⟩)) s' ↔
      Answers h result (s.moved h (.insertJob id r (leastLoaded s.active s.score ahead best bestScore))) s' := by
  induction ahead generalizing best bestScore with
  | nil => exact answers_moved (.insertJob id r best)
  | cons w rest ih =>
    cases active : s.active w with
    | false =>
      rw [answers_moved (.loadActive id r ⟨rest, best, bestScore⟩), ih]
      simp [leastLoaded, active]
    | true =>
      rw [answers_moved (.loadQueue id r ⟨rest, best, bestScore⟩ w),
        answers_moved (.loadCurrent id r ⟨rest, best, bestScore⟩ w (s.queueDepth w)),
        answers_moved
        (.loadActive id r (if s.score w < bestScore then ⟨rest, w, s.score w⟩ else ⟨rest, best, bestScore⟩))
          (by simp [advance, moved]; rfl)]
      split_ifs with lower <;> simp [ih, leastLoaded, active, lower]

/-- What follows the registration changes neither the registry nor, if the call fails, a counter. -/
theorem sameJobs_of_registered (failed : Answers h (.error error) s s')
    (registered : (s.place h).registered = true) : SameJobs s s' := by
  induction failed with
  | done => exact ⟨rfl, rfl⟩
  | @next s t s' step later ih =>
    generalize here : s.place h = place at registered
    rw [advance, here] at step
    cases place with
    | getChannel id hart =>
      cases step
      refine ih ?_
      cases s.registered hart <;> simp [moved, Place.registered]
    | send id hart at_ =>
      dsimp only at step
      split at step
      all_goals
        cases step
        exact ih (by simp [moved, Place.registered])
    | increment id hart =>
      cases step
      obtain ⟨wrong, -⟩ := (answers_done (update_self ..)).mp later
      cases wrong
    | answered => cases step
    | _ => cases registered

/-- The job that is inserted was not in the registry before. -/
theorem not_sameJobs_insertJob {hart : HartId}
    (failed : Answers h (.error error) (s.moved h (.insertJob id r hart)) s') : ¬SameJobs s s' := by
  rw [answers_next (t := { s.moved h (.getChannel id hart) with jobs := s.jobs.insert id r hart })
    (by simp [advance, moved])] at failed
  obtain ⟨jobs, -⟩ := sameJobs_of_registered failed (by simp [moved, Place.registered])
  intro same
  have found : s.jobs.get id = some ⟨s.jobs.allocated, id, r.wasmBytes, r.args, some hart.val⟩ := by
    rw [← same.1, jobs]
    exact update_self ..
  exact Nat.lt_irrefl _ (s.jobs.older id _ found)

theorem sameJobs_target (failed : Answers h (.error error) (s.moved h (target id r)) s') :
    SameJobs s s' ↔ s.chosen r = none := by
  have refused {answer : Except String JobId} (answered : Answers h (.error error) (s.moved h (.answered answer)) s') :
      SameJobs s s' := by
    obtain ⟨-, rfl⟩ := (answers_done (update_self ..)).mp answered
    exact ⟨rfl, rfl⟩
  unfold chosen
  unfold target at failed
  cases named : r.targetHart with
  | none =>
    rw [named] at failed
    by_cases none : s.numWorkers = 0
    · rw [answers_moved (.answered (.error "No WASM workers available"))] at failed
      simp [refused failed, none]
    · rw [answers_moved (.loadActive id r ⟨s.workers, 1, 0xffffffffffffffff⟩) (by simp [advance, moved, none]; rfl),
        answers_search] at failed
      simp [not_sameJobs_insertJob failed, none]
  | some hart =>
    rw [named] at failed
    cases hart with
    | zero => exact iff_of_true (refused failed) rfl
    | succ hart =>
      by_cases inside : hart + 1 < maxHarts
      · simp only [inside] at failed ⊢
        simp [not_sameJobs_insertJob failed]
      · simp only [inside] at failed ⊢
        simp [refused failed]

/-- **Failed submissions.** A submission that fails leaves the registry and the counters as they were exactly if it is
refused before it gets to a hart. -/
theorem failed_submission_iff (called : s.exec (.submit h r) = some t) (failed : Answers h (.error error) t s') :
    SameJobs s s' ↔ s.initialized = false ∨ s.chosen r = none := by
  rw [exec] at called
  split_ifs at called
  cases called
  cases begun : s.initialized with
  | false =>
    rw [answers_moved (.answered (.error "WASM service not initialized")), answers_done (update_self ..)] at failed
    rw [failed.2]
    exact iff_of_true ⟨rfl, rfl⟩ (.inl rfl)
  | true =>
    rw [answers_moved (.takeId r),
      answers_next (t := { s with nextJobId := s.nextJobId + 1 }.moved h (target s.nextJobId r))
        (by simp [advance, moved])] at failed
    exact (sameJobs_target failed).trans (or_iff_right (by decide)).symm

/-- Hart 0 takes no jobs. -/
theorem failed_submission_iff_primary : ∃ t s', (start 1).exec (.submit 0 ⟨[], [], some 0⟩) = some t ∧
    Answers 0 (.error "Cannot submit to hart 0 (primary)") t s' ∧ SameJobs (start 1) s' := by
  have failed :
      Answers 0 (.error "Cannot submit to hart 0 (primary)") ((start 1).moved 0 (.loadInitialized ⟨[], [], some 0⟩))
      _ :=
    .next rfl (.next rfl (.done rfl))
  exact ⟨_, _, rfl, failed, (failed_submission_iff rfl failed).mpr (.inr rfl)⟩

/-- A job for a hart without a channel stays in the registry. -/
theorem failed_submission_stays : ∃ t s', (start 1).exec (.submit 0 ⟨[], [], some 2⟩) = some t ∧
    Answers 0 (.error "Worker channel not found") t s' ∧ ¬SameJobs (start 1) s' := by
  have failed :
      Answers 0 (.error "Worker channel not found") ((start 1).moved 0 (.loadInitialized ⟨[], [], some 2⟩)) _ :=
    .next rfl (.next rfl (.next rfl (.next rfl (.done rfl))))
  refine ⟨_, _, rfl, failed, fun same => ?_⟩
  cases congrFun same.1 1

end HavyOs.Wasm
