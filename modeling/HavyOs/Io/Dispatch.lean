import HavyOs.Io.Router

/-!
# One call of the dispatcher

`dispatch_io` on hart 0 as one call, while nothing is submitted. It is what the steps of the
dispatcher come to when nothing happens between them. The cursor goes on with every queue that is
looked at, whether it is empty or not, and does not start again with a call. How often it was moved
and the queue that each request came from are kept beside the result.
-/

namespace HavyOs.Io

open Router Function List

open Sched (maxHarts CpuCount)

variable {World : Type}

/-- What `dequeue_request_round_robin` returns and leaves: the request, with its queue. -/
structure Scan (World : Type) where
  found : Option (Nat × IoRequest)
  steps : Nat
  final : Router World

variable (s : Router World)

namespace Router

/-- The loop of `dequeue_request_round_robin` with so many harts left. -/
def scanQueues (numHarts : CpuCount) : Nat → Router World → Scan World
  | 0, s => ⟨none, 0, s⟩
  | left + 1, s =>
    let cursor := s.dispatchCursor % numHarts
    let s := { s with dispatchCursor := (s.dispatchCursor + 1) % 2 ^ 64 }
    match s.ioQueues cursor with
    | [] =>
      let scan := scanQueues numHarts left s
      { scan with steps := scan.steps + 1 }
    | request :: rest => ⟨some (cursor, request), 1, { s with ioQueues := Function.update s.ioQueues cursor rest }⟩

def dequeueRequestRoundRobin (numHarts : CpuCount) (s : Router World) : Scan World := scanQueues numHarts numHarts s

def completeRequest (request : IoRequest) (result : IoResult) : Router World :=
  let s := (s.setResult (slotIdx request.requestId) (some result)).setComplete (slotIdx request.requestId) true
  match s.ioCallbacks (slotIdx request.requestId) with
  | some callback =>
    (s.setCallback (slotIdx request.requestId) none).record (.invoked callback request.requestId result)
  | none => s

/-- The body of the loop of `dispatch_io`. -/
def serveRequest (handle : World → IoRequest → IoResult × World) (s : Router World) (request : IoRequest) :
    Router World :=
  let (result, world) := handle s.world request
  ({ s with world := world }.record (.handled request result)).completeRequest request result

end Router

/-- What a call of `dispatch_io` returns and leaves; the requests it served are kept with their queues. -/
structure Dispatched (World : Type) where
  processed : Nat
  served : List (Nat × IoRequest)
  steps : Nat
  final : Router World

namespace Router

variable (numHarts : CpuCount) (handle : World → IoRequest → IoResult × World)

def dispatchLoop : Nat → Router World → Option (Dispatched World)
  | 0, _ => none
  | fuel + 1, s =>
    let scan := s.dequeueRequestRoundRobin numHarts
    match scan.found with
    | none => some ⟨0, [], scan.steps, scan.final⟩
    | some (hart, request) =>
      (dispatchLoop fuel (scan.final.serveRequest handle request)).map fun d =>
        ⟨d.processed + 1, (hart, request) :: d.served, scan.steps + d.steps, d.final⟩

/-- The requests that wait for the dispatcher. -/
def pendingCount (s : Router World) : Nat := ((range numHarts).map fun hart => (s.ioQueues hart).length).sum

/-- `dispatch_io`. The loop ends when the queues are empty, one round after the last request. -/
def dispatchIo (hartId : Nat) (s : Router World) : Option (Dispatched World) :=
  if hartId ≠ 0 then some ⟨0, [], 0, s⟩ else dispatchLoop numHarts handle (s.pendingCount numHarts + 1) s

end Router

/-! ## The call and the steps of the dispatcher -/

section Steps

variable {numHarts : CpuCount} {handle : World → IoRequest → IoResult × World}

/-- Some steps of the dispatcher, with nothing in between. -/
def Leads (numHarts : CpuCount) (handle : World → IoRequest → IoResult × World) (s s' : Router World) : Prop :=
  ∃ k, (Router.dispatch numHarts handle)^[k] s = s'

theorem Leads.step : Leads numHarts handle s (s.dispatch numHarts handle) := ⟨1, rfl⟩

theorem Leads.trans {s s₁ s' : Router World} (first : Leads numHarts handle s s₁)
    (second : Leads numHarts handle s₁ s') :
    Leads numHarts handle s s' := by
  obtain ⟨k, rfl⟩ := first
  obtain ⟨l, rfl⟩ := second
  exact ⟨l + k, iterate_add_apply _ l k s⟩

theorem leads_scanQueues (left : Nat) (s : Router World) :
    Leads numHarts handle (s.setDispatcher (.scanning left))
      ((s.scanQueues numHarts left).final.setDispatcher
        (match (s.scanQueues numHarts left).found with
          | none => .idle
          | some (_, request) => .handling request)) := by
  induction left generalizing s with
  | zero => exact .step _
  | succ left ih =>
    cases queue : s.ioQueues (s.dispatchCursor % numHarts) with
    | nil =>
      have first : (s.setDispatcher (.scanning (left + 1))).dispatch numHarts handle =
          { s with dispatchCursor := (s.dispatchCursor + 1) % 2 ^ 64 }.setDispatcher (.scanning left) := by
        simp [dispatch, setDispatcher, queue]
      have rest := ih { s with dispatchCursor := (s.dispatchCursor + 1) % 2 ^ 64 }
      rw [← first] at rest
      simp only [scanQueues, queue]
      exact (Leads.step _).trans rest
    | cons request rest =>
      simp only [scanQueues]
      refine ⟨1, ?_⟩
      simp [dispatch, setDispatcher, queue]

theorem leads_serveRequest (request : IoRequest) :
    Leads numHarts handle (s.setDispatcher (.handling request))
      ((s.serveRequest handle request).setDispatcher (.scanning numHarts)) := by
  set s₁ :=
    { s with world := (handle s.world request).2 }.record (.handled request (handle s.world request).1) with handled
  have stored : Leads numHarts handle (s.setDispatcher (.handling request))
      (((s₁.setResult (slotIdx request.requestId) (some (handle s.world request).1)).setComplete
        (slotIdx request.requestId) true).setDispatcher (.flagged request (handle s.world request).1)) := ⟨3, rfl⟩
  refine stored.trans ?_
  have served : s.serveRequest handle request = s₁.completeRequest request (handle s.world request).1 := rfl
  rw [served, completeRequest]
  cases callback : s.ioCallbacks (slotIdx request.requestId) with
  | none =>
    refine ⟨1, ?_⟩
    simp [dispatch, setDispatcher, setComplete, setResult, handled, record, callback]
  | some cb =>
    refine ⟨2, ?_⟩
    simp [dispatch, setDispatcher, setComplete, setResult, setCallback, handled, record, callback]

/-- A call is the steps of the dispatcher from the start of its loop to the end. -/
theorem leads_dispatchLoop {fuel : Nat} {s : Router World} {d : Dispatched World}
    (returns : dispatchLoop numHarts handle fuel s = some d) :
    Leads numHarts handle (s.setDispatcher (.scanning numHarts)) (d.final.setDispatcher .idle) := by
  induction fuel generalizing s d with
  | zero => cases returns
  | succ fuel ih =>
    have scanned : Leads numHarts handle (s.setDispatcher (.scanning numHarts))
        ((s.dequeueRequestRoundRobin numHarts).final.setDispatcher
          (match (s.dequeueRequestRoundRobin numHarts).found with
            | none => .idle
            | some (_, request) => .handling request)) := leads_scanQueues numHarts s
    rw [dispatchLoop] at returns
    cases found : (s.dequeueRequestRoundRobin numHarts).found with
    | none =>
      simp only [found] at returns scanned
      cases returns
      exact scanned
    | some next =>
      simp only [found] at returns scanned
      obtain ⟨_, more, rfl⟩ := Option.map_eq_some_iff.mp returns
      have finish := ih more
      exact scanned.trans ((leads_serveRequest _ _).trans finish)

end Steps

/-! ## The scan -/

section Scan

variable {numHarts : CpuCount}

/-- The request was the first of its queue, which is one of the harts', and no other queue has changed. -/
structure Took (numHarts : CpuCount) (s : Router World) (hart : Nat) (request : IoRequest) (s' : Router World) :
    Prop where
  inside : hart < numHarts
  queue : s.ioQueues hart = request :: s'.ioQueues hart
  others : ∀ {other}, other ≠ hart → s'.ioQueues other = s.ioQueues other

/-- What a look at the next `left` queues finds and leaves. Where it finds nothing, they are empty, as long as the
cursor does not wrap. -/
structure Scanned (numHarts : CpuCount) (left : Nat) (s : Router World) (scan : Scan World) : Prop where
  history : scan.final.history = s.history
  cursor : s.dispatchCursor < 2 ^ 64 → scan.final.dispatchCursor = (s.dispatchCursor + scan.steps) % 2 ^ 64
  found : ∀ {hart request}, scan.found = some (hart, request) → Took numHarts s hart request scan.final
  missed : scan.found = none → scan.steps = left ∧ scan.final.ioQueues = s.ioQueues
  empty : scan.found = none → s.dispatchCursor + left ≤ 2 ^ 64 → ∀ i < left,
    s.ioQueues ((s.dispatchCursor + i) % numHarts) = []

theorem scanned (numHarts : CpuCount) (left : Nat) (s : Router World) :
    Scanned numHarts left s (s.scanQueues numHarts left) := by
  induction left generalizing s with
  | zero =>
    exact ⟨rfl, fun small => (Nat.mod_eq_of_lt small).symm, nofun, fun _ => ⟨rfl, rfl⟩,
      fun _ _ i inside => absurd inside (Nat.not_lt_zero i)⟩
  | succ left ih =>
    rw [scanQueues]
    cases queue : s.ioQueues (s.dispatchCursor % numHarts) with
    | nil =>
      have rest := ih { s with dispatchCursor := (s.dispatchCursor + 1) % 2 ^ 64 }
      dsimp only
      refine ⟨rest.history, fun _ => ?_, fun found => ?_, fun missed => ?_, fun missed small i inside => ?_⟩
      · rw [rest.cursor (Nat.mod_lt _ (by omega))]
        dsimp only
        omega
      · obtain ⟨inside, first, others⟩ := rest.found found
        exact ⟨inside, first, others⟩
      · exact ⟨congrArg Nat.succ (rest.missed missed).1, (rest.missed missed).2⟩
      · cases i with
        | zero => exact queue
        | succ i =>
          have next : (s.dispatchCursor + 1) % 2 ^ 64 = s.dispatchCursor + 1 := Nat.mod_eq_of_lt (by omega)
          have empty := rest.empty missed (by dsimp only; omega) i (by omega)
          dsimp only at empty
          rwa [next, Nat.add_assoc, Nat.add_comm 1] at empty
    | cons first rest =>
      dsimp only
      refine ⟨rfl, fun _ => rfl, ?_, nofun, nofun⟩
      rintro hart request ⟨⟩
      refine ⟨Nat.mod_lt _ numHarts.property.1, ?_, fun ne => update_of_ne ne ..⟩
      simp only [queue, update_self]

variable {s : Router World}

/-- Every hart has its turn within one round. -/
theorem exists_turn (numHarts : CpuCount) (cursor : Nat) {hart : Nat} (inside : hart < numHarts) :
    ∃ i < numHarts.val, (cursor + i) % numHarts = hart := by
  have positive := numHarts.property.1
  refine ⟨(hart + (numHarts - cursor % numHarts)) % numHarts, Nat.mod_lt _ positive, ?_⟩
  have turn : cursor % numHarts + (hart + (numHarts - cursor % numHarts)) = hart + numHarts := by
    have below := Nat.mod_lt cursor positive
    omega
  rw [Nat.add_mod_mod, ← Nat.mod_add_mod, turn, Nat.add_mod_right, Nat.mod_eq_of_lt inside]

/-- `dequeue_request_round_robin` returns nothing exactly when nothing is queued. -/
theorem dequeue_none_iff (small : s.dispatchCursor + (s.dequeueRequestRoundRobin numHarts).steps ≤ 2 ^ 64) :
    (s.dequeueRequestRoundRobin numHarts).found = none ↔ ∀ hart < numHarts.val, s.ioQueues hart = [] := by
  constructor
  · intro missed hart inside
    have spec := scanned numHarts numHarts s
    rw [dequeueRequestRoundRobin, (spec.missed missed).1] at small
    obtain ⟨i, turn, rfl⟩ := exists_turn numHarts s.dispatchCursor inside
    exact spec.empty missed small i turn
  · intro empty
    cases found : (s.dequeueRequestRoundRobin numHarts).found with
    | none => rfl
    | some next =>
      have took := (scanned numHarts numHarts s).found found
      cases (empty next.1 took.inside).symm.trans took.queue

end Scan

/-! ## The loop -/

section Loop

variable {numHarts : CpuCount} {handle : World → IoRequest → IoResult × World}

/-- The requests that were handled, the last one first. -/
def handledRequests (history : List Event) : List IoRequest :=
  history.filterMap fun
    | .handled request _ => some request
    | _ => none

theorem serveRequest_spec (handle : World → IoRequest → IoResult × World) (s : Router World) (request : IoRequest) :
    (s.serveRequest handle request).ioQueues = s.ioQueues ∧
      (s.serveRequest handle request).dispatchCursor = s.dispatchCursor ∧
      handledRequests (s.serveRequest handle request).history = request :: handledRequests s.history := by
  simp only [serveRequest, completeRequest]
  split
  · exact ⟨rfl, rfl, rfl⟩
  · exact ⟨rfl, rfl, rfl⟩

/-- One round of the loop: a request leaves its queue and is handled. -/
structure Round (numHarts : CpuCount) (s : Router World) (hart : Nat) (request : IoRequest) (s' : Router World) : Prop
    extends Took numHarts s hart request s' where
  handled : handledRequests s'.history = request :: handledRequests s.history

variable {fuel : Nat} {s s' : Router World} {hart : Nat} {request : IoRequest}

theorem round_serveRequest (found : (s.dequeueRequestRoundRobin numHarts).found = some (hart, request)) :
    Round numHarts s hart request ((s.dequeueRequestRoundRobin numHarts).final.serveRequest handle request) := by
  have spec := scanned numHarts numHarts s
  have took := spec.found found
  obtain ⟨queues, -, handled⟩ := serveRequest_spec handle (s.dequeueRequestRoundRobin numHarts).final request
  refine ⟨⟨took.inside, ?_, ?_⟩, ?_⟩
  · rw [queues]
    exact took.queue
  · intro other ne
    rw [queues]
    exact took.others ne
  · rw [handled]
    exact congrArg (fun history => request :: handledRequests history) spec.history

theorem sum_range_succ_at {f g : Nat → Nat} {n place : Nat} (inside : place < n) (more : f place = g place + 1)
    (same : ∀ i, i ≠ place → f i = g i) : ((range n).map f).sum = ((range n).map g).sum + 1 := by
  induction n with
  | zero => cases inside
  | succ n ih =>
    rw [range_succ, map_append, map_append, sum_append, sum_append]
    simp only [map_cons, map_nil, sum_cons]
    by_cases last : place = n
    · have others : (range n).map f = (range n).map g := by
        refine map_congr_left fun i member => same i ?_
        have below := mem_range.mp member
        omega
      rw [others, ← last]
      omega
    · rw [same n (Ne.symm last)]
      omega

theorem Round.pendingCount (round : Round numHarts s hart request s') :
    s.pendingCount numHarts = s'.pendingCount numHarts + 1 := by
  refine sum_range_succ_at round.inside ?_ fun i other => ?_
  · rw [round.queue, length_cons]
  · rw [round.others other]

theorem dispatchLoop_none (missed : (s.dequeueRequestRoundRobin numHarts).found = none) :
    dispatchLoop numHarts handle (fuel + 1) s =
      some ⟨0, [], (s.dequeueRequestRoundRobin numHarts).steps, (s.dequeueRequestRoundRobin numHarts).final⟩ := by
  rw [dispatchLoop, missed]

theorem dispatchLoop_some (found : (s.dequeueRequestRoundRobin numHarts).found = some (hart, request)) :
    dispatchLoop numHarts handle (fuel + 1) s =
      (dispatchLoop numHarts handle fuel ((s.dequeueRequestRoundRobin numHarts).final.serveRequest handle request)).map
        fun d => ⟨d.processed + 1, (hart, request) :: d.served, (s.dequeueRequestRoundRobin numHarts).steps + d.steps,
        d.final⟩ := by
  rw [dispatchLoop, found]

/-- The loop ends once it has had a round for each request and one more. -/
theorem dispatchLoop_returns (enough : s.pendingCount numHarts < fuel) :
    ∃ d, dispatchLoop numHarts handle fuel s = some d := by
  induction fuel generalizing s with
  | zero => cases enough
  | succ fuel ih =>
    cases found : (s.dequeueRequestRoundRobin numHarts).found with
    | none => exact ⟨_, dispatchLoop_none found⟩
    | some next =>
      have round :
          Round numHarts s next.1 next.2 ((s.dequeueRequestRoundRobin numHarts).final.serveRequest handle next.2) :=
        round_serveRequest found
      have fewer : ((s.dequeueRequestRoundRobin numHarts).final.serveRequest handle next.2).pendingCount numHarts <
          fuel := by
        rw [round.pendingCount] at enough
        omega
      obtain ⟨d, rest⟩ := ih fewer
      rw [dispatchLoop_some found, rest]
      exact ⟨_, rfl⟩

/-- What a call has done when it returns. -/
structure Drained (numHarts : CpuCount) (s : Router World) (d : Dispatched World) : Prop where
  served : ∀ entry ∈ d.served, entry.1 < numHarts
  order : ∀ hart < numHarts.val, (d.served.filter fun entry => entry.1 = hart).map Prod.snd = s.ioQueues hart
  empty : ∀ hart < numHarts.val, d.final.ioQueues hart = []
  processed : d.processed = s.pendingCount numHarts
  handled : handledRequests d.final.history = (d.served.map Prod.snd).reverse ++ handledRequests s.history

section

variable {d : Dispatched World} (returns : dispatchLoop numHarts handle fuel s = some d)
include returns

theorem dispatchLoop_steps : 0 < d.steps := by
  have moves : 0 < (s.dequeueRequestRoundRobin numHarts).steps := by
    obtain ⟨n, is⟩ := Nat.exists_eq_add_one.mpr numHarts.property.1
    rw [dequeueRequestRoundRobin, is, scanQueues]
    split <;> exact Nat.succ_pos _
  cases fuel with
  | zero => cases returns
  | succ fuel =>
    cases found : (s.dequeueRequestRoundRobin numHarts).found with
    | none =>
      rw [dispatchLoop_none found] at returns
      cases returns
      exact moves
    | some next =>
      rw [dispatchLoop_some found] at returns
      obtain ⟨_, -, rfl⟩ := Option.map_eq_some_iff.mp returns
      exact Nat.add_pos_left moves _

/-- The loop serves every queue from front to back. -/
theorem dispatchLoop_drains (small : s.dispatchCursor + d.steps ≤ 2 ^ 64) : Drained numHarts s d := by
  induction fuel generalizing s d with
  | zero => cases returns
  | succ fuel ih =>
    have start : s.dispatchCursor < 2 ^ 64 := by
      have moved := dispatchLoop_steps returns
      omega
    have spec : Scanned numHarts numHarts s (s.dequeueRequestRoundRobin numHarts) := scanned numHarts numHarts s
    have cursor := spec.cursor start
    cases found : (s.dequeueRequestRoundRobin numHarts).found with
    | none =>
      rw [dispatchLoop_none found] at returns
      cases returns
      have empty := (dequeue_none_iff small).mp found
      refine ⟨nofun, fun hart inside => (empty hart inside).symm, ?_, ?_, ?_⟩
      · intro hart inside
        exact (congrFun (spec.missed found).2 hart).trans (empty hart inside)
      · have zero : (range numHarts).map (fun hart => (s.ioQueues hart).length) = (range numHarts).map fun _ => 0 :=
          map_congr_left fun hart member => by rw [empty hart (mem_range.mp member), length_nil]
        rw [pendingCount, zero]
        simp
      · exact congrArg handledRequests spec.history
    | some next =>
      rw [dispatchLoop_some found] at returns
      obtain ⟨_, more, rfl⟩ := Option.map_eq_some_iff.mp returns
      have round :
          Round numHarts s next.1 next.2 ((s.dequeueRequestRoundRobin numHarts).final.serveRequest handle next.2) :=
        round_serveRequest found
      have moved := (serveRequest_spec handle (s.dequeueRequestRoundRobin numHarts).final next.2).2.1
      dsimp only at small
      have drained := ih more (by omega)
      refine ⟨?_, ?_, drained.empty, ?_, ?_⟩
      · intro entry member
        obtain rfl | member := mem_cons.mp member
        · exact round.inside
        · exact drained.served entry member
      · intro hart inside
        by_cases own : next.1 = hart
        · rw [filter_cons_of_pos (by simpa using own), map_cons, drained.order hart inside, ← own]
          exact round.queue.symm
        · rw [filter_cons_of_neg (by simpa using own), drained.order hart inside]
          exact round.others (Ne.symm own)
      · rw [drained.processed, round.pendingCount]
      · rw [drained.handled, round.handled]
        simp

end

end Loop

/-- A call on hart 0 returns. It is what the steps of the dispatcher come to, and if the cursor does not wrap on the way
it has handled every request that was queued once, those of each hart in their order, counted them and left nothing; and
`dequeue_request_round_robin` returns nothing exactly when nothing is queued. -/
theorem dispatch_io_complete (numHarts : CpuCount) (handle : World → IoRequest → IoResult × World) (s : Router World) :
    ∃ d, Router.dispatchIo numHarts handle 0 s = some d ∧
      Leads numHarts handle (s.setDispatcher (.scanning numHarts)) (d.final.setDispatcher .idle) ∧
      (s.dispatchCursor + d.steps ≤ 2 ^ 64 → Drained numHarts s d) ∧
      (s.dispatchCursor + (s.dequeueRequestRoundRobin numHarts).steps ≤ 2 ^ 64 →
        ((s.dequeueRequestRoundRobin numHarts).found = none ↔ ∀ hart < numHarts.val, s.ioQueues hart = [])) := by
  obtain ⟨d, returns⟩ : ∃ d, dispatchLoop numHarts handle (s.pendingCount numHarts + 1) s = some d :=
    dispatchLoop_returns (Nat.lt_succ_self _)
  refine ⟨d, ?_, leads_dispatchLoop returns, dispatchLoop_drains returns, dequeue_none_iff⟩
  exact returns

/-- Two harts, of which the second has submitted two requests; the cursor is at the second. -/
def threeQueued : Router Unit :=
  { Router.start () with
    ioQueues := fun
      | 0 => [⟨2, 0, .uart, .status⟩]
      | 1 => [⟨1, 1, .uart, .status⟩, ⟨3, 1, .uart, .flush⟩]
      | _ => []
    dispatchCursor := 7 }

theorem dispatch_io_complete_three :
    ∃ d, Router.dispatchIo ⟨2, by decide⟩ (fun world _ => (.ok [], world)) 0 threeQueued = some d ∧
      Drained ⟨2, by decide⟩ threeQueued d := by
  obtain ⟨d, returns, -, drained, -⟩ := dispatch_io_complete ⟨2, by decide⟩ (fun world _ => (.ok [], world)) threeQueued
  have steps : (dispatchIo ⟨2, by decide⟩ (fun world _ => (.ok [], world)) 0 threeQueued).map Dispatched.steps =
      some 5 := by
    decide
  rw [returns] at steps
  refine ⟨d, returns, drained ?_⟩
  rw [Option.some.inj steps]
  decide

end HavyOs.Io
