import HavyOs.Io.Router
import HavyOs.Lib.Run

/-!
# Matching of responses

A caller obtains the result of its own request, and a callback is invoked with the request it was
registered for and its result. A slot is shared by all requests whose ids agree modulo 64 and does
not say whose result it holds, so this rests on a slot being in use for one request at a time.
Nothing in the router ensures that: a request that waits in a queue is not counted against the 64
slots, and one whose caller has timed out stays there.
-/

namespace HavyOs.Io

open Lib Sched Function List Router Option

/-! ## What the history has to justify -/

/-- The request that a slot was last reset for. -/
def owner : List Event → Nat → Option RequestId
  | [], _ => none
  | .submitted requestId :: past, slot => if slotIdx requestId = slot then some requestId else owner past slot
  | _ :: past, slot => owner past slot

variable (past : List Event)

/-- An id is given to one request; only created requests are handled; a result is delivered, and a callback
invoked, for the request that was handled with that result, and for which the callback was registered. -/
def Justified : Event → Prop
  | .created request => ∀ other, .created other ∈ past → other.requestId ≠ request.requestId
  | .handled request _ => .created request ∈ past
  | .delivered requestId result => ∃ request, request.requestId = requestId ∧ .handled request result ∈ past
  | .invoked callback requestId result =>
    .registered requestId callback ∈ past ∧ ∃ request, request.requestId = requestId ∧ .handled request result ∈ past
  | _ => True

/-- Every event is justified by what came before it. -/
def Matched : List Event → Prop
  | [] => True
  | event :: past => Justified past event ∧ Matched past

/-! ## The condition -/

/-- The request whose slot a hart uses in this phase. -/
def Phase.busyWith : Phase → Option RequestId
  | .cleared request _ => some request.requestId
  | .registered request => some request.requestId
  | .waiting requestId => some requestId
  | .polling requestId => some requestId
  | .taking requestId _ => some requestId
  | _ => none

/-- The request whose slot the dispatcher uses. -/
def Dispatcher.busyWith : Dispatcher → Option RequestId
  | .handling request => some request.requestId
  | .handled request _ => some request.requestId
  | .stored request _ => some request.requestId
  | .flagged request _ => some request.requestId
  | _ => none

/-- The request whose slot a hart is about to reset. -/
def Phase.resetting : Phase → Option RequestId
  | .clearing request _ => some request.requestId
  | _ => none

variable (s : Router World) (requestId : RequestId)

section

variable {World : Type}

/-- A request with this id waits in a queue. -/
def Queued : Prop :=
  ∃ hart, ∃ request ∈ s.ioQueues hart, request.requestId = requestId

/-- The request uses its slot: a caller is between its reset and the result, it is queued, or it is being
handled and completed. -/
def Live : Prop :=
  (∃ hart, (s.harts hart).busyWith = some requestId) ∨ Queued s requestId ∨ s.dispatcher.busyWith = some requestId

/-- The condition on an action: the id counter does not wrap, only the last request submitted on its slot is
polled, and a slot is reset only when no other request uses it. -/
def Orderly : Action → Prop
  | .create .. => s.nextRequestId + 1 < 2 ^ 64
  | .poll _ requestId => owner s.history (slotIdx requestId) = some requestId
  | .advance hart => ∀ own, (s.harts hart).resetting = some own →
    ∀ requestId, Live s requestId → slotIdx requestId = slotIdx own → requestId = own
  | .timeout _ => True
  | .dispatch => True

/-! ## The invariant -/

/-- What a hart holds is in the history. -/
def Phase.Backed : Phase → Prop
  | .created request _ => .created request ∈ past
  | .clearing request _ => .created request ∈ past
  | .cleared request _ => .created request ∈ past
  | .registered request => .created request ∈ past
  | .took requestId result => ∃ request, request.requestId = requestId ∧ .handled request result ∈ past
  | _ => True

/-- What the dispatcher holds is in the history. -/
def Dispatcher.Backed : Dispatcher → Prop
  | .handling request => .created request ∈ past
  | .handled request result => .handled request result ∈ past
  | .stored request result => .handled request result ∈ past
  | .flagged request result => .handled request result ∈ past
  | .calling request result callback =>
    .handled request result ∈ past ∧ .registered request.requestId callback ∈ past
  | _ => True

/-- The callback of the request, if it has one, was not yet taken. -/
def Pending : Prop :=
  (∃ hart request, s.harts hart = .registered request ∧ request.requestId = requestId) ∨ Queued s requestId ∨
    s.dispatcher.busyWith = some requestId

/-- Whatever uses a slot, and whatever is in it, belongs to the request it was last reset for. -/
structure Owned (s : Router World) : Prop where
  matched : Matched s.history
  ids : ∀ request, .created request ∈ s.history → request.requestId < s.nextRequestId
  live : ∀ requestId, Live s requestId → owner s.history (slotIdx requestId) = some requestId
  queued : ∀ hart, ∀ request ∈ s.ioQueues hart, .created request ∈ s.history
  results : ∀ slot result, (s.ioCompletions slot).result = some result →
    ∃ request, owner s.history slot = some request.requestId ∧ .handled request result ∈ s.history
  callbacks : ∀ slot callback, s.ioCallbacks slot = some callback →
    ∃ requestId, owner s.history slot = some requestId ∧ .registered requestId callback ∈ s.history ∧
      Pending s requestId
  harts : ∀ hart, (s.harts hart).Backed s.history
  dispatcher : s.dispatcher.Backed s.history

variable {past : List Event}

theorem owner_slot {slot : Nat} {requestId : RequestId} (owned : owner past slot = some requestId) :
    slotIdx requestId = slot := by
  induction past with
  | nil => exact absurd owned (by simp [owner])
  | cons event past ih =>
    cases event with
    | submitted other =>
      rw [owner] at owned
      split_ifs at owned with same
      · cases owned
        exact same
      · exact ih owned
    | _ => exact ih owned

theorem Pending.live {s : Router World} {requestId : RequestId} (pending : Pending s requestId) : Live s requestId := by
  rcases pending with ⟨hart, _, phase, rfl⟩ | queued | busy
  · exact .inl ⟨hart, by rw [phase]; rfl⟩
  · exact .inr (.inl queued)
  · exact .inr (.inr busy)

theorem Phase.Backed.cons {phase : Phase} (event : Event) (backed : phase.Backed past) :
    phase.Backed (event :: past) := by
  cases phase with
  | took requestId result =>
    obtain ⟨request, same, handled⟩ := backed
    exact ⟨request, same, mem_cons_of_mem _ handled⟩
  | idle => trivial
  | waiting => trivial
  | polling => trivial
  | taking => trivial
  | _ => exact mem_cons_of_mem _ backed

theorem Dispatcher.Backed.cons {dispatcher : Dispatcher} (event : Event)
    (backed : dispatcher.Backed past) : dispatcher.Backed (event :: past) := by
  cases dispatcher with
  | calling => exact ⟨mem_cons_of_mem _ backed.1, mem_cons_of_mem _ backed.2⟩
  | idle => trivial
  | scanning => trivial
  | _ => exact mem_cons_of_mem _ backed

/-! ## One access at a time -/

namespace Owned

variable {s : Router World}

theorem start (world : World) : Owned (start world) where
  matched := trivial
  ids := nofun
  live requestId := by
    rintro (⟨_, busy⟩ | ⟨_, _, member, _⟩ | busy)
    · cases busy
    · cases member
    · cases busy
  queued := nofun
  results := nofun
  callbacks := nofun
  harts _ := trivial
  dispatcher := trivial

variable (h : Owned s)

include h

variable (hart slot : Nat) (dispatcher : Dispatcher)

section

variable {phase : Phase}
    (busy : ∀ requestId, phase.busyWith = some requestId → owner s.history (slotIdx requestId) = some requestId)
    (backed : phase.Backed s.history)
include busy backed

theorem setHart (pushed : ∀ request, s.harts hart = .registered request → Queued s request.requestId) :
    Owned (s.setHart hart phase) where
  __ := h
  live requestId := by
    rintro (used | rest)
    · rcases (exists_update_iff s.harts fun _ phase => phase.busyWith = some requestId).mp used
        with used | ⟨other, -, used⟩
      · exact busy requestId used
      · exact h.live requestId (.inl ⟨other, used⟩)
    · exact h.live requestId (.inr rest)
  callbacks slot callback found := by
    obtain ⟨requestId, owned, registered, pending⟩ := h.callbacks slot callback found
    refine ⟨requestId, owned, registered, ?_⟩
    rcases pending with ⟨other, request, registering, rfl⟩ | rest
    · by_cases same : other = hart
      · subst same
        exact .inr (.inl (pushed request registering))
      · exact .inl ⟨other, request, (update_of_ne same ..).trans registering, rfl⟩
    · exact .inr rest
  harts := (forall_update_iff s.harts fun _ phase => phase.Backed s.history).mpr ⟨backed, fun other _ => h.harts other⟩

end

theorem moveHart {old phase : Phase} (before : s.harts hart = old)
    (busy : ∀ requestId, phase.busyWith = some requestId →
    owner s.history (slotIdx requestId) = some requestId := by nofun)
    (backed : phase.Backed s.history := by trivial) (other : ∀ request, old ≠ .registered request := by simp) :
    Owned (s.setHart hart phase) :=
  h.setHart hart busy backed fun request registered => absurd (before.symm.trans registered) (other request)

/-- The dispatcher moves on; it leaves a request only when no callback is left on its slot. -/
theorem setDispatcher
    (busy : ∀ requestId, dispatcher.busyWith = some requestId → owner s.history (slotIdx requestId) = some requestId)
    (backed : dispatcher.Backed s.history)
    (kept : ∀ requestId, s.dispatcher.busyWith = some requestId →
      dispatcher.busyWith = some requestId ∨ s.ioCallbacks (slotIdx requestId) = none) :
    Owned (s.setDispatcher dispatcher) where
  __ := h
  live requestId := by
    rintro (used | queued | used)
    · exact h.live requestId (.inl used)
    · exact h.live requestId (.inr (.inl queued))
    · exact busy requestId used
  callbacks slot callback found := by
    obtain ⟨requestId, owned, registered, pending⟩ := h.callbacks slot callback found
    refine ⟨requestId, owned, registered, ?_⟩
    rcases pending with registering | queued | used
    · exact .inl registering
    · exact .inr (.inl queued)
    · rcases kept requestId used with still | none
      · exact .inr (.inr still)
      · rw [owner_slot owned] at none
        cases none.symm.trans found
  dispatcher := backed

theorem keepDispatcher {old : Dispatcher} (place : s.dispatcher = old)
    (backed : dispatcher.Backed s.history := by trivial)
    (same : dispatcher.busyWith = old.busyWith := by rfl) : Owned (s.setDispatcher dispatcher) := by
  subst place
  refine h.setDispatcher dispatcher (fun requestId busy => ?_) backed fun requestId busy => .inl (same.trans busy)
  exact h.live requestId (.inr (.inr (same.symm.trans busy)))

/-- An event that resets no slot. -/
theorem record (event : Event) (justified : Justified s.history event)
    (fresh : ∀ request, event = .created request → request.requestId < s.nextRequestId := by simp)
    (resets : ∀ slot, owner (event :: s.history) slot = owner s.history slot := by exact fun _ => rfl) :
    Owned (s.record event) where
  matched := ⟨justified, h.matched⟩
  ids request member := by
    rcases mem_cons.mp member with same | old
    · exact fresh request same.symm
    · exact h.ids request old
  live requestId live := (resets _).trans (h.live requestId live)
  queued hart request member := mem_cons_of_mem _ (h.queued hart request member)
  results slot result found := by
    obtain ⟨request, owned, handled⟩ := h.results slot result found
    exact ⟨request, (resets slot).trans owned, mem_cons_of_mem _ handled⟩
  callbacks slot callback found := by
    obtain ⟨requestId, owned, registered, pending⟩ := h.callbacks slot callback found
    exact ⟨requestId, (resets slot).trans owned, mem_cons_of_mem _ registered, pending⟩
  harts hart := (h.harts hart).cons event
  dispatcher := h.dispatcher.cons event

theorem setComplete (complete : Bool) : Owned (s.setComplete slot complete) where
  __ := h
  results other result found := by
    apply h.results other result
    by_cases same : other = slot
    · subst same
      simpa only [setComplete, update_self] using found
    · simpa only [Router.setComplete, update_of_ne same] using found

theorem setResult {result : Option IoResult}
    (own : ∀ value, result = some value →
      ∃ request, owner s.history slot = some request.requestId ∧ .handled request value ∈ s.history) :
    Owned (s.setResult slot result) where
  __ := h
  results other value found := by
    by_cases same : other = slot
    · subst same
      simp only [setResult, update_self] at found
      exact own value found
    · simp only [Router.setResult, update_of_ne same] at found
      exact h.results other value found

theorem setCallback {callback : Option IoCallback}
    (own : ∀ value, callback = some value →
      ∃ requestId, owner s.history slot = some requestId ∧ .registered requestId value ∈ s.history ∧
        Pending s requestId) :
    Owned (s.setCallback slot callback) where
  __ := h
  callbacks other value found := by
    by_cases same : other = slot
    · subst same
      simp only [setCallback, update_self] at found
      exact own value found
    · simp only [Router.setCallback, update_of_ne same] at found
      exact h.callbacks other value found

omit h in
theorem mem_pushBack {hart other : Nat} {request q : IoRequest} :
    q ∈ (s.pushBack hart request).ioQueues other ↔ q ∈ s.ioQueues other ∨ q = request ∧ other = hart := by
  by_cases same : other = hart
  · subst same
    simp [pushBack]
  · simp [pushBack, same]

theorem pushBack {request : IoRequest} (created : .created request ∈ s.history)
    (owned : owner s.history (slotIdx request.requestId) = some request.requestId) :
    Owned (s.pushBack hart request) where
  __ := h
  live requestId := by
    rintro (used | ⟨other, q, member, rfl⟩ | used)
    · exact h.live requestId (.inl used)
    · rcases mem_pushBack.mp member with old | ⟨rfl, -⟩
      · exact h.live _ (.inr (.inl ⟨other, q, old, rfl⟩))
      · exact owned
    · exact h.live requestId (.inr (.inr used))
  queued other q member := by
    rcases mem_pushBack.mp member with old | ⟨rfl, -⟩
    · exact h.queued other q old
    · exact created
  callbacks slot callback found := by
    obtain ⟨requestId, owned, registered, pending⟩ := h.callbacks slot callback found
    refine ⟨requestId, owned, registered, ?_⟩
    rcases pending with registering | ⟨other, q, member, same⟩ | used
    · exact .inl registering
    · exact .inr (.inl ⟨other, q, mem_pushBack.mpr (.inl member), same⟩)
    · exact .inr (.inr used)

/-- The dispatcher has taken over the first request of a queue. -/
theorem popFront {cursor : Nat} {request : IoRequest} {rest : List IoRequest}
    (queue : s.ioQueues cursor = request :: rest) (taken : s.dispatcher.busyWith = some request.requestId) :
    Owned { s with ioQueues := update s.ioQueues cursor rest } := by
  have older : ∀ other q, q ∈ update s.ioQueues cursor rest other → q ∈ s.ioQueues other := by
    intro other q member
    by_cases same : other = cursor
    · subst same
      rw [update_self] at member
      rw [queue]
      exact mem_cons_of_mem _ member
    · rwa [update_of_ne same] at member
  refine ⟨h.matched, h.ids, ?_, fun other q member => h.queued other q (older other q member), h.results, ?_, h.harts,
    h.dispatcher⟩
  · rintro requestId (used | ⟨other, q, member, same⟩ | used)
    · exact h.live requestId (.inl used)
    · exact h.live requestId (.inr (.inl ⟨other, q, older other q member, same⟩))
    · exact h.live requestId (.inr (.inr used))
  · intro slot callback found
    obtain ⟨requestId, owned, registered, pending⟩ := h.callbacks slot callback found
    refine ⟨requestId, owned, registered, ?_⟩
    rcases pending with registering | ⟨other, q, member, rfl⟩ | used
    · exact .inl registering
    · by_cases same : other = cursor
      · subst same
        rw [queue] at member
        rcases mem_cons.mp member with rfl | later
        · exact .inr (.inr taken)
        · exact .inr (.inl ⟨other, q, by simpa using later, rfl⟩)
      · exact .inr (.inl ⟨other, q, by simpa [update_of_ne same] using member, rfl⟩)
    · exact .inr (.inr used)

/-- A slot that no other request uses is reset for a request. -/
theorem reset (request : IoRequest)
    (free : ∀ requestId, Live s requestId → slotIdx requestId = slotIdx request.requestId →
      requestId = request.requestId) :
    Owned ((s.setResult (slotIdx request.requestId) none).record (.submitted request.requestId)) := by
  have owned : ∀ requestId, Live s requestId →
      owner (.submitted request.requestId :: s.history) (slotIdx requestId) = some requestId := by
    intro requestId live
    rw [owner]
    split_ifs with same
    · rw [free requestId live same.symm]
    · exact h.live requestId live
  refine ⟨⟨trivial, h.matched⟩, fun q member => h.ids q (by simpa [Router.record, Router.setResult] using member),
    owned, fun hart q member => mem_cons_of_mem _ (h.queued hart q member), ?_, ?_,
    fun hart => (h.harts hart).cons _, h.dispatcher.cons _⟩
  · intro slot result found
    by_cases same : slot = slotIdx request.requestId
    · subst same
      simp [Router.record, Router.setResult] at found
    · simp only [Router.record, Router.setResult, update_of_ne same] at found ⊢
      obtain ⟨q, before, handled⟩ := h.results slot result found
      refine ⟨q, ?_, mem_cons_of_mem _ handled⟩
      rw [owner, if_neg (Ne.symm same)]
      exact before
  · intro slot callback found
    obtain ⟨requestId, before, registered, pending⟩ := h.callbacks slot callback found
    refine ⟨requestId, ?_, mem_cons_of_mem _ registered, pending⟩
    have same := owned requestId pending.live
    rwa [owner_slot before] at same

/-! ## The calls -/

theorem create (idle : s.harts hart = .idle) (device : DeviceType) (operation : IoOp)
    (submission : Submission) (wraps : s.nextRequestId + 1 < 2 ^ 64) :
    Owned (s.create hart device operation submission) := by
  have later : s.nextRequestId < (s.nextRequestId + 1) % 2 ^ 64 := by
    rw [Nat.mod_eq_of_lt wraps]
    exact Nat.lt_succ_self _
  have counted : Owned { s with nextRequestId := (s.nextRequestId + 1) % 2 ^ 64 } :=
    { h with ids := fun request member => Nat.lt_trans (h.ids request member) later }
  refine (counted.record _ ?_ ?_).moveHart hart idle nofun mem_cons_self
  · exact fun other member => Nat.ne_of_lt (h.ids other member)
  · intro request same
    cases same
    exact later

/-- The result that `take` finds on the slot of a live request is its own. -/
theorem taken {requestId : RequestId} {result : IoResult} (live : Live s requestId)
    (found : (s.ioCompletions (slotIdx requestId)).result = some result) :
    ∃ request, request.requestId = requestId ∧ .handled request result ∈ s.history := by
  obtain ⟨request, owned, handled⟩ := h.results _ result found
  exact ⟨request, some.inj (owned.symm.trans (h.live requestId live)), handled⟩

theorem advance (hart : Fin maxHarts) (orderly : Orderly s (.advance hart)) : Owned (s.advance hart) := by
  have backed := h.harts hart
  have used : ∀ {requestId}, (s.harts hart).busyWith = some requestId →
      owner s.history (slotIdx requestId) = some requestId := fun busy => h.live _ (.inl ⟨hart, busy⟩)
  unfold Router.advance
  generalize phase : s.harts hart = old at backed used
  cases old with
  | idle => exact h
  | created request submission => exact (h.setComplete _ false).moveHart hart phase nofun backed
  | clearing request submission =>
    refine (h.reset request (orderly request.requestId (by rw [phase]; rfl))).moveHart hart phase
      (fun requestId same => ?_)
      (Phase.Backed.cons _ backed)
    cases same
    exact if_pos rfl
  | cleared request submission =>
    have owned := used rfl
    cases submission with
    | requestIo => exact (h.pushBack hart backed owned).moveHart hart phase fun _ => used
    | requestIoAsync => exact (h.pushBack hart backed owned).moveHart hart phase
    | withCallback callback =>
      -- the callback is pending because the hart still has to push the request
      have registering :
          Owned ((s.record (.registered request.requestId callback)).setHart hart (.registered request)) :=
        (h.record _ (by trivial)).moveHart hart phase (fun _ => used) (mem_cons_of_mem _ backed)
      refine registering.setCallback (slotIdx request.requestId) fun value same => ?_
      cases same
      exact ⟨request.requestId, owned, mem_cons_self, .inl ⟨hart, request, update_self .., rfl⟩⟩
  | registered request =>
    refine (h.pushBack hart backed (used rfl)).setHart hart nofun trivial fun q registered => ?_
    cases phase.symm.trans registered
    exact ⟨hart, request, mem_pushBack.mpr (.inr ⟨rfl, rfl⟩), rfl⟩
  | waiting requestId =>
    simp only []
    split
    · exact h.moveHart hart phase fun _ => used
    · exact h
  | polling requestId =>
    simp only []
    split
    · exact h.moveHart hart phase fun _ => used
    · exact h.moveHart hart phase
  | taking requestId again =>
    have live : Live s requestId := .inl ⟨hart, by rw [phase]; rfl⟩
    simp only []
    split
    · rename_i result found
      exact (h.setResult _ (by simp)).moveHart hart phase nofun (h.taken live found)
    · cases again with
      | false => exact h.moveHart hart phase
      | true => exact h.moveHart hart phase fun _ => used
  | took requestId result =>
    have delivered : Justified s.history (.delivered requestId result) := backed
    exact ((h.setComplete (slotIdx requestId) false).record _ delivered).moveHart hart phase

theorem dispatch (numHarts : CpuCount) (handle : World → IoRequest → IoResult × World) :
    Owned (s.dispatch numHarts handle) := by
  have backed := h.dispatcher
  unfold Router.dispatch
  generalize place : s.dispatcher = old at backed
  cases old with
  | idle => exact h.keepDispatcher _ place
  | scanning left =>
    cases left with
    | zero => exact h.keepDispatcher _ place
    | succ left =>
      have moved : Owned { s with dispatchCursor := (s.dispatchCursor + 1) % 2 ^ 64 } :=
        { h with }
      simp only []
      cases queue : s.ioQueues (s.dispatchCursor % numHarts) with
      | nil => exact moved.keepDispatcher _ place
      | cons request rest =>
        have member : request ∈ s.ioQueues (s.dispatchCursor % numHarts) := by
          rw [queue]
          exact mem_cons_self
        -- the dispatcher takes the request over before it leaves the queue
        refine (moved.setDispatcher (.handling request) (fun requestId same => ?_) (h.queued _ request member)
          (by simp [place, Dispatcher.busyWith])).popFront queue rfl
        exact h.live requestId (.inr (.inl ⟨_, request, member, some.inj same⟩))
  | handling request =>
    have changed : ∀ world : World, Owned { s with world := world } := fun world =>
      { h with }
    have handled : Justified s.history (.handled request (handle s.world request).1) := backed
    exact ((changed (handle s.world request).2).record _ handled).keepDispatcher
      (.handled request (handle s.world request).1) place mem_cons_self
  | handled request result =>
    refine (h.setResult _ fun value same => ?_).keepDispatcher _ place backed
    cases same
    exact ⟨request, h.live _ (.inr (.inr (by rw [place]; rfl))), backed⟩
  | stored request result => exact (h.setComplete _ true).keepDispatcher _ place backed
  | flagged request result =>
    have own : ∀ requestId, s.dispatcher.busyWith = some requestId → requestId = request.requestId := by
      intro requestId busy
      rw [place] at busy
      exact (some.inj busy).symm
    simp only []
    cases found : s.ioCallbacks (slotIdx request.requestId) with
    | none =>
      refine h.setDispatcher _ nofun trivial fun requestId busy => .inr ?_
      rw [own requestId busy]
      exact found
    | some callback =>
      obtain ⟨requestId, owned, registered, -⟩ := h.callbacks _ callback found
      have live := h.live request.requestId (.inr (.inr (by rw [place]; rfl)))
      cases owned.symm.trans live
      refine (h.setCallback _ (by simp)).setDispatcher _ nofun ⟨backed, registered⟩
        fun requestId busy => .inr ?_
      rw [own requestId busy]
      exact update_self ..
  | calling request result callback =>
    have invoked : Justified s.history (.invoked callback request.requestId result) :=
      ⟨backed.2, request, rfl, backed.1⟩
    exact (h.record _ invoked).keepDispatcher _ place

theorem step {s' : Router World} {numHarts : CpuCount} {handle : World → IoRequest → IoResult × World}
    {action : Action} (orderly : Orderly s action) (taken : Io.step numHarts handle s action s') : Owned s' := by
  rw [Io.step] at taken
  cases action with
  | create hart device operation submission =>
    simp only [exec] at taken
    split at taken
    · rename_i idle
      cases taken
      exact h.create hart idle device operation submission orderly
    · cases taken
  | poll hart requestId =>
    simp only [exec] at taken
    split at taken
    · rename_i idle
      cases taken
      refine h.moveHart hart idle fun other same => ?_
      cases same
      exact orderly
    · cases taken
  | advance hart =>
    cases taken
    exact h.advance hart orderly
  | timeout hart =>
    simp only [exec] at taken
    split at taken
    · rename_i requestId waiting
      cases taken
      exact (h.record (.timedOut requestId) trivial).moveHart hart waiting
    · cases taken
  | dispatch =>
    cases taken
    exact h.dispatch numHarts handle

end Owned

/-- **Response matching.** For every number of harts and every way requests are handled: in a run whose actions
are orderly, every result is delivered, and every callback invoked, for the request it belongs to. -/
theorem responses_matched (numHarts : CpuCount) (handle : World → IoRequest → IoResult × World) {world : World}
    {actions : List Action} {s : Router World}
    (run : Run (guarded Orderly (step numHarts handle)) (start world) actions s) : Matched s.history := by
  have owned : Owned s := run.invariant (fun _ _ _ h taken => h.step taken.1 taken.2) (.start world)
  exact owned.matched

end

/-! ## Runs on fixed inputs -/

section

variable {World : Type} {numHarts : CpuCount} {handle : World → IoRequest → IoResult × World}

/-- Runs a list of actions that `admits` allows. -/
def execAll (numHarts : CpuCount) (handle : World → IoRequest → IoResult × World)
    (admits : Router World → Action → Bool) :
    List Action → Router World → Option (Router World)
  | [], s => some s
  | action :: actions, s =>
    if admits s action then (exec numHarts handle s action).bind (execAll numHarts handle admits actions) else none

theorem run_of_execAll {admits : Router World → Action → Bool} {actions : List Action} {s s' : Router World}
    (ran : execAll numHarts handle admits actions s = some s') :
    Run (guarded (fun s action => admits s action) (step numHarts handle)) s actions s' := by
  induction actions generalizing s with
  | nil =>
    obtain rfl := some.inj ran
    exact .nil s
  | cons action actions ih =>
    rw [execAll] at ran
    split_ifs at ran with admitted
    obtain ⟨_, first, rest⟩ := bind_eq_some_iff.mp ran
    exact .cons ⟨admitted, first⟩ (ih rest)

/-- The action is seen to be orderly without a look at the requests that use a slot. -/
def quiet : Action → Bool
  | .create .. => s.nextRequestId + 1 < 2 ^ 64
  | .poll _ requestId => owner s.history (slotIdx requestId) = some requestId
  | .advance hart => (s.harts hart).resetting.isNone
  | .timeout _ => true
  | .dispatch => true

theorem orderly_of_quiet {s : Router World} {action : Action} (still : quiet s action) : Orderly s action := by
  cases action with
  | advance hart =>
    intro own resets
    rw [quiet, resets] at still
    cases still
  | timeout => trivial
  | dispatch => trivial
  | create =>
    rw [quiet, decide_eq_true_eq] at still
    exact still
  | poll =>
    rw [quiet, decide_eq_true_eq] at still
    exact still

theorem orderly_of_execAll {actions : List Action} {s s' : Router World}
    (ran : execAll numHarts handle quiet actions s = some s') :
    Run (guarded Orderly (step numHarts handle)) s actions s' :=
  (run_of_execAll ran).weaken fun _ _ _ taken => And.imp_left orderly_of_quiet taken

/-- A result is delivered for a request that was never handled. -/
def misdelivered : List Event → Bool
  | .delivered requestId _ :: past => past.all fun
    | .handled request _ => request.requestId != requestId
    | _ => true
  | _ => false

theorem not_matched_of_misdelivered {history : List Event} (wrong : misdelivered history) : ¬ Matched history := by
  intro matched
  unfold misdelivered at wrong
  split at wrong
  · obtain ⟨⟨_, rfl, handled⟩, -⟩ := matched
    exact absurd (all_eq_true.mp wrong _ handled) (by simp)
  · cases wrong

end

def twoHarts : CpuCount := ⟨2, two_le_maxHarts⟩

/-- A handler that answers with the low byte of the id. -/
def echoId (_ : Unit) (request : IoRequest) : IoResult × Unit := (.ok [UInt8.ofNat request.requestId], ())

/-- Hart 1 after `IoRequest::new` and the first half of `reset`, for a request it does not wait for. -/
def firstReset : Router Unit := ((Router.start ()).create 1 .uart .status .requestIoAsync).advance 1

/-- The first request is queued, and hart 1 has come as far with a request that it waits for. -/
def secondReset : Router Unit := (((firstReset.advance 1).advance 1).create 1 .uart .flush .requestIo).advance 1

/-- Both requests are handled; hart 1 takes the result it waits for, then polls for the other one. -/
def bothHandled : List Action :=
  [.advance 1] ++ replicate 12 .dispatch ++ replicate 3 (.advance 1) ++ [.poll 1 1] ++ replicate 3 (.advance 1)

theorem live_one {s : Router Unit} {requestId : RequestId} (harts : ∀ hart, hart ≠ 1 → s.harts hart = .idle)
    (queues : ∀ hart, hart ≠ 1 → s.ioQueues hart = []) (idle : s.dispatcher = .idle) (live : Live s requestId) :
    (s.harts 1).busyWith = some requestId ∨ ∃ request ∈ s.ioQueues 1, request.requestId = requestId := by
  rcases live with ⟨hart, busy⟩ | ⟨hart, request, member, same⟩ | busy
  · by_cases one : hart = 1
    · exact .inl (one ▸ busy)
    · rw [harts hart one] at busy
      cases busy
  · by_cases one : hart = 1
    · exact .inr ⟨request, one ▸ member, same⟩
    · rw [queues hart one] at member
      cases member
  · rw [idle] at busy
    cases busy

theorem firstReset_orderly : Orderly firstReset (.advance 1) := by
  intro own _ requestId live
  have none : (firstReset.harts 1).busyWith = some requestId ∨
      ∃ request ∈ firstReset.ioQueues 1, request.requestId = requestId := by
    refine live_one (fun hart other => ?_) (fun _ _ => rfl) rfl live
    simp [firstReset, create, advance, setHart, record, setComplete, start, other]
  rcases none with busy | ⟨_, member, _⟩
  · cases busy
  · cases member

/-- The first request is in its slot when the slot of the second is reset. -/
theorem secondReset_orderly : Live secondReset 1 ∧ Orderly secondReset (.advance 1) := by
  refine ⟨.inr (.inl ⟨1, _, mem_singleton_self _, rfl⟩), ?_⟩
  intro own resets requestId live same
  obtain rfl : 2 = own := some.inj resets
  have first : (secondReset.harts 1).busyWith = some requestId ∨
      ∃ request ∈ secondReset.ioQueues 1, request.requestId = requestId := by
    refine live_one (fun hart other => ?_) (fun hart other => ?_) rfl live <;>
    simp [secondReset, firstReset, create, advance, setHart, record, setComplete, setResult, pushBack, start, other]
  rcases first with busy | ⟨_, member, rfl⟩
  · cases busy
  · obtain rfl := mem_singleton.mp member
    exact absurd same (by decide)

/-- Two requests of one hart that are under way together. -/
theorem responses_matched_two : ∃ actions, ∃ s : Router Unit,
    Run (guarded Orderly (step twoHarts echoId)) (start ()) actions s ∧
    .delivered 2 (.ok [2]) ∈ s.history ∧ .delivered 1 (.ok [1]) ∈ s.history ∧ Matched s.history := by
  have ran : (execAll twoHarts echoId quiet bothHandled (secondReset.advance 1)).any fun s =>
      s.history.contains (.delivered 2 (.ok [2])) && s.history.contains (.delivered 1 (.ok [1])) := by
    decide +kernel
  obtain ⟨s, found, delivered⟩ := (any_eq_true _ _).mp ran
  have second : Run (guarded Orderly (step twoHarts echoId)) (firstReset.advance 1)
      (.advance 1 :: .create 1 .uart .flush .requestIo :: .advance 1 :: .advance 1 :: bothHandled) s := by
    refine .cons ⟨orderly_of_quiet rfl, rfl⟩ (.cons ⟨orderly_of_quiet rfl, rfl⟩ (.cons ⟨orderly_of_quiet rfl, rfl⟩ ?_))
    exact .cons ⟨secondReset_orderly.2, rfl⟩ (orderly_of_execAll found)
  have run : Run (guarded Orderly (step twoHarts echoId)) (start ())
      (.create 1 .uart .status .requestIoAsync :: .advance 1 :: .advance 1 :: _) s :=
    .cons ⟨orderly_of_quiet rfl, rfl⟩ (.cons ⟨orderly_of_quiet rfl, rfl⟩ (.cons ⟨firstReset_orderly, rfl⟩ second))
  rw [Bool.and_eq_true, contains_iff_mem, contains_iff_mem] at delivered
  exact ⟨_, s, run, delivered.1, delivered.2, responses_matched twoHarts echoId run⟩

/-- Hart 1 makes 64 asynchronous requests, which stay in its queue, and one it waits for. Hart 0 then handles the
first, and hart 1 takes what is in its slot. -/
def sixtyFiveRequests : List Action :=
  (replicate 64 [.create 1 .uart .status .requestIoAsync, .advance 1, .advance 1, .advance 1]).flatten ++
    [.create 1 .uart .flush .requestIo, .advance 1, .advance 1, .advance 1] ++ replicate 6 .dispatch ++
    [.advance 1, .advance 1, .advance 1]

/-- Request 65 gets the result of request 1, which is in the same slot. -/
theorem result_of_other_request : ∃ s : Router Unit,
    Run (step twoHarts echoId) (start ()) sixtyFiveRequests s ∧ ¬ Matched s.history := by
  have ran : (execAll twoHarts echoId (fun _ _ => true) sixtyFiveRequests (start ())).any
      fun s => misdelivered s.history := by
    decide +kernel
  obtain ⟨s, found, wrong⟩ := (any_eq_true _ _).mp ran
  exact ⟨s, (run_of_execAll found).weaken fun _ _ _ => And.right, not_matched_of_misdelivered wrong⟩

end HavyOs.Io
