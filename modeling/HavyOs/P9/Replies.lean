import HavyOs.P9.Queue
import HavyOs.Lib.Run

/-!
# Replies and requests

In a run transactions follow one another, each with its own schedule of the device, and between them
the device goes on. A transaction that starts while an earlier one is still under way may return the
reply to the earlier one.
-/

namespace HavyOs.P9

open Lib List

/-- What is done with the queue. -/
inductive Op where
  | transact (msize : Nat) (request : List UInt8) (schedule : Nat → List Beat)
  /-- The device goes on while no transaction runs. -/
  | idle (beats : List Beat)

/-- What a transaction returned: the number of its request and that of the request which the reply answers. -/
structure Returned where
  serial : Nat
  answers : Nat
  request : List UInt8
  reply : List UInt8
deriving DecidableEq, Repr

/-- The queue, and what the transactions so far have returned. -/
structure Session (δ : Type) where
  queue : Queue δ
  returned : List Returned

def Session.new {δ : Type} (device : δ) : Session δ := ⟨.new device, []⟩

variable {schedule : Nat → List Beat} {request : List UInt8} {msize : Nat} {reply : List UInt8}

section Run

variable {δ : Type} (serve : δ → List UInt8 → Option (List UInt8) × δ) (s : Session δ)

def Session.apply : Op → Session δ
  | .transact msize request schedule =>
    match transact serve msize request schedule s.queue with
    | .ok reply q => ⟨q, s.returned ++ [⟨q.started, q.answers, request, reply⟩]⟩
    | .error _ q => ⟨q, s.returned⟩
  | .idle beats => ⟨s.queue.beats serve beats, s.returned⟩

variable {serve} in
theorem Session.apply_ok {s : Session δ}
    {q : Queue δ} (run : P9.transact serve msize request schedule s.queue = .ok reply q) :
    s.apply serve (.transact msize request schedule) =
      ⟨q, s.returned ++ [⟨q.started, q.answers, request, reply⟩]⟩ := by
  simp [Session.apply, run]

variable {serve} in
theorem Session.apply_error {s : Session δ}
    {q : Queue δ} {e : String} (run : P9.transact serve msize request schedule s.queue = .error e q) :
    s.apply serve (.transact msize request schedule) = ⟨q, s.returned⟩ := by
  simp [Session.apply, run]

def Session.Step (op : Op) (s' : Session δ) : Prop := s' = s.apply serve op

/-- A transaction starts when the used ring has been looked at and the device has nothing to answer. -/
def StartsSettled : Op → Prop
  | .transact _ _ _ => s.queue.usedIdx = s.queue.lastUsedIdx ∧ s.queue.pending = []
  | .idle _ => True

end Run

/-! ## While a transaction waits -/

section Fresh

variable {δ : Type} {serve : δ → List UInt8 → Option (List UInt8) × δ} {q : Queue δ}

/-- The device has taken nothing but the request of this transaction, and what the driver has not seen answers it. -/
structure Queue.Fresh (q : Queue δ) : Prop where
  pending : ∀ p ∈ q.pending, p.serial = q.started
  unseen : q.usedIdx = q.lastUsedIdx ∨ q.answers = q.started

theorem Queue.Fresh.take (fresh : q.Fresh) : q.take.Fresh := by
  unfold Queue.take
  split
  · exact fresh
  · refine ⟨fun p member => ?_, fresh.unseen⟩
    rcases mem_append.mp member with old | new
    · exact fresh.pending p old
    · rw [mem_singleton.mp new]

theorem Queue.Fresh.answer (fresh : q.Fresh) (i : Nat) : (q.answer serve i).Fresh := by
  unfold Queue.answer
  split
  · exact fresh
  · rename_i p there
    have fewer : ∀ p ∈ q.pending.eraseIdx i, p.serial = q.started :=
      fun p member => fresh.pending p (mem_of_mem_eraseIdx member)
    split
    · exact ⟨fewer, fresh.unseen⟩
    · exact ⟨fewer, .inr (fresh.pending p (mem_of_getElem? there))⟩

theorem Queue.Fresh.beats (fresh : q.Fresh) (beats : List Beat) : (q.beats serve beats).Fresh := by
  induction beats generalizing q with
  | nil => exact fresh
  | cons beat beats ih =>
    cases beat with
    | take => exact ih fresh.take
    | answer i => exact ih (fresh.answer i)

theorem poll_fresh {i n : Nat} {q' : Queue δ} (fresh : q.Fresh)
    (run : poll serve msize schedule i n q = .ok reply q') : q'.answers = q'.started := by
  induction n generalizing i q with
  | zero => cases run
  | succ n ih =>
    have kept : (q.beats serve (schedule i)).Fresh := fresh.beats (schedule i)
    rw [poll] at run
    split at run
    · exact ih kept run
    · rename_i moved
      split at run
      · exact ih (show (Queue.seen _).Fresh from ⟨kept.pending, .inl rfl⟩) run
      · split_ifs at run
        cases run
        exact kept.unseen.resolve_left moved

theorem transact_fresh
    {q' : Queue δ} (settled : q.usedIdx = q.lastUsedIdx) (none : q.pending = [])
    (run : transact serve msize request schedule q = .ok reply q') : q'.answers = q'.started := by
  have fresh : (q.submit msize request).Fresh := by
    refine ⟨fun p member => ?_, .inl settled⟩
    rw [show (q.submit msize request).pending = [] from none] at member
    cases member
  exact poll_fresh fresh run

/-- A reply that came since the driver last looked is returned at once, whatever it answers. -/
theorem transact_stale (moved : q.usedIdx ≠ q.lastUsedIdx)
    (whole : 7 ≤ q.responseBuf.length) (type : q.responseBuf.getD 4 0 ≠ rLerror) :
    transact serve msize request (fun _ => []) q =
      .ok (q.responseBuf.take (min (fromLe (q.responseBuf.take 4)) msize)) (q.submit msize request).seen := by
  exact (if_neg moved).trans ((if_neg (Nat.not_lt.mpr whole)).trans (if_neg type))

end Fresh

/-! ## Runs -/

section Matched

variable {δ : Type} (serve : δ → List UInt8 → Option (List UInt8) × δ)

/-- Every reply that was returned answers the request it was returned for. -/
def Session.Matched (s : Session δ) : Prop := ∀ r ∈ s.returned, r.answers = r.serial

theorem Session.Matched.step {s s' : Session δ} {op : Op} (matched : s.Matched) (settled : StartsSettled s op)
    (step : s.Step serve op s') : s'.Matched := by
  obtain rfl : s' = s.apply serve op := step
  cases op with
  | idle beats => exact matched
  | transact msize request schedule =>
    unfold Session.apply
    dsimp only
    split
    · rename_i reply q run
      intro r member
      rcases mem_append.mp member with old | new
      · exact matched r old
      · rw [mem_singleton.mp new]
        exact transact_fresh settled.1 settled.2 run
    · exact matched

/-- Whatever the device does and however the transactions end, if each transaction starts with nothing under way then
each reply that is returned answers its own request. -/
theorem replies_matched {δ : Type} (serve : δ → List UInt8 → Option (List UInt8) × δ) (device : δ) (ops : List Op)
    (s : Session δ) (run : Run (guarded StartsSettled (Session.Step serve)) (.new device) ops s) :
    ∀ r ∈ s.returned, r.answers = r.serial := by
  refine run.invariant (I := Session.Matched) (fun s op s' matched step => matched.step serve step.1 step.2) ?_
  intro r member
  cases member

end Matched

/-! ## A late reply -/

def clunkMessage (tag : UInt8) : List UInt8 := [11, 0, 0, 0, 120, tag, 0, 0, 0, 0, 0]

/-- A device that answers with `Rclunk` and the tag of the request. -/
def clunker (_ : Unit) (request : List UInt8) : Option (List UInt8) × Unit :=
  (some ([7, 0, 0, 0, 121] ++ (request.drop 5).take 2), ())

/-- A request that the device answers at once is returned, and leaves the queue as the next one needs it. -/
theorem apply_clunk {s : Session Unit} (quiet : s.queue.Quiet) (tag : UInt8) :
    let s' := s.apply clunker (.transact defaultMsize (clunkMessage tag) prompt)
    s'.queue.Quiet ∧ s'.returned.map Returned.reply = s.returned.map Returned.reply ++ [[7, 0, 0, 0, 121, tag, 0]] := by
  have fits : [7, 0, 0, 0, 121, tag, 0].length ≤ defaultMsize := (by decide : 7 ≤ defaultMsize)
  have returns := transact_answered quiet (rfl : clunker s.queue.device ((clunkMessage tag).take defaultMsize) =
    (some [7, 0, 0, 0, 121, tag, 0], ())) fits rfl Nat.le.refl
  dsimp only
  rw [Session.apply_ok (returns.trans (if_neg (by decide : (121 : UInt8) ≠ rLerror))), map_append]
  exact ⟨quiet.reanswered Nat.le.refl _ _ fits, rfl⟩

/-- The second transaction starts with the first one answered. -/
theorem replies_matched_twice :
    let s := ((Session.new ()).apply clunker (.transact defaultMsize (clunkMessage 1) prompt)).apply clunker
      (.transact defaultMsize (clunkMessage 2) prompt)
    s.returned.map Returned.reply = [[7, 0, 0, 0, 121, 1, 0], [7, 0, 0, 0, 121, 2, 0]] ∧
      ∀ r ∈ s.returned, r.answers = r.serial := by
  have quiet : (Session.new ()).queue.Quiet := ⟨rfl, rfl, rfl, length_replicate, length_replicate⟩
  obtain ⟨quiet₁, once⟩ := apply_clunk quiet 1
  obtain ⟨-, twice⟩ := apply_clunk quiet₁ 2
  have starts : ∀ {s : Session Unit}, s.queue.Quiet → ∀ tag,
      StartsSettled s (.transact defaultMsize (clunkMessage tag) prompt) := fun quiet _ => ⟨quiet.settled, quiet.none⟩
  dsimp only
  rw [twice, once]
  refine ⟨rfl, ?_⟩
  exact replies_matched clunker () _ _ (.cons ⟨starts quiet 1, rfl⟩ (.cons ⟨starts quiet₁ 2, rfl⟩ (.nil _)))

/-- The queue when the first request was given up and its reply has come. -/
def lateQueue : Queue Unit :=
  ((Queue.new ()).submit defaultMsize (clunkMessage 1)).beats clunker [.take, .answer 0]

/-- The first request is not answered in time; its reply comes before the second request, which gets it. -/
theorem late_reply_returned :
    ((((Session.new ()).apply clunker (.transact defaultMsize (clunkMessage 1) fun _ => [])).apply clunker
      (.idle [.take, .answer 0])).apply clunker (.transact defaultMsize (clunkMessage 2) fun _ => [])).returned =
        [⟨2, 1, clunkMessage 2, [7, 0, 0, 0, 121, 1, 0]⟩] := by
  have waits : transact clunker defaultMsize (clunkMessage 1) (fun _ => []) (Queue.new ()) =
      .error "9P transaction timeout" ((Queue.new ()).submit defaultMsize (clunkMessage 1)) :=
    by rw [transact]; exact poll_idle rfl fun _ => rfl
  have reply : lateQueue.responseBuf.take (min (fromLe (lateQueue.responseBuf.take 4)) defaultMsize) =
      [7, 0, 0, 0, 121, 1, 0] := by decide +kernel
  have stale : transact clunker defaultMsize (clunkMessage 2) (fun _ => []) lateQueue =
      .ok [7, 0, 0, 0, 121, 1, 0] (lateQueue.submit defaultMsize (clunkMessage 2)).seen :=
    by rw [transact_stale (by decide) (by decide +kernel) (by decide +kernel), reply]
  have first := Session.apply_error (s := .new ()) waits
  have last := Session.apply_ok (s := ⟨lateQueue, []⟩) stale
  rw [first]
  exact congrArg Session.returned last

end HavyOs.P9
