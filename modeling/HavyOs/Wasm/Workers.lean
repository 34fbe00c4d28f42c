import HavyOs.Ipc.Channel
import HavyOs.Lib.Lists
import HavyOs.Lib.Wire
import Mathlib.Algebra.GroupWithZero.Nat

/-!
# The queue depth of a worker

`submit_job` and `worker_entry` of `wasm_service.rs` on all harts at once. A submission sends
a notification to the channel of a worker and then increments the worker's `queue_depth`; the
worker receives the notification and then decrements it. Each access to shared state is a
step of its own. Nothing keeps the worker from decrementing first, so the counter can go below
zero; it is back at the number of pending notifications when every call has come to its end.
-/

namespace HavyOs.Wasm

open HavyOs.Lib HavyOs.Ipc Function List
open Function (update)

abbrev maxHarts : Nat := 128

instance : NeZero maxHarts := ⟨by decide⟩

abbrev HartId := Fin maxHarts

def defaultChannelCapacity : Nat := 16

abbrev JobId := UInt32

structure Message where
  sender : Nat
  data : List UInt8
  msgType : UInt32

/-- `Arc<WasmJob>`, as it is submitted; `arc` is the number of the allocation. -/
structure WasmJob where
  arc : Nat
  id : JobId
  wasmBytes : List UInt8
  args : List String
  targetHart : Option Nat

structure Request where
  wasmBytes : List UInt8
  args : List String
  targetHart : Option Nat

/-- The registry `jobs`; the jobs in it were allocated before the next one. -/
structure Registry where
  get : JobId → Option WasmJob
  allocated : Nat
  older : ∀ id job, get id = some job → job.arc < allocated

theorem Registry.older_insert (g : Registry) (new : JobId) {made : WasmJob} (next : made.arc = g.allocated) :
    ∀ id job, update g.get new (some made) id = some job → job.arc < g.allocated + 1 := by
  intro id job found
  by_cases same : id = new
  · rw [same, update_self] at found
    cases found
    exact Nat.lt_succ_of_le (Nat.le_of_eq next)
  · rw [update_of_ne same] at found
    exact Nat.lt_succ_of_lt (g.older id job found)

/-- `Arc::new(WasmJob::new(..))` and its insertion. -/
def Registry.insert (g : Registry) (id : JobId) (r : Request) (hart : HartId) : Registry :=
  ⟨update g.get id (some ⟨g.allocated, id, r.wasmBytes, r.args, some hart.val⟩), g.allocated + 1, g.older_insert id rfl⟩

variable (id : JobId)

/-- The message `submit_job` sends. -/
def notification : Message := ⟨0, toLe 4 id.toNat, 1⟩

/-- The test `worker_entry` makes of a message. -/
def Message.isJob (msg : Message) : Bool := msg.msgType == 1 && decide (4 ≤ msg.data.length)

/-- `u32::from_le_bytes` of the first four bytes. -/
def Message.jobId (msg : Message) : JobId := UInt32.ofNat (fromLe (msg.data.take 4))

/-- The loop variables of `find_least_loaded_worker`. -/
structure Search where
  ahead : List HartId
  bestHart : HartId
  bestScore : UInt64

/-- The access a hart makes next. -/
inductive Place where
  | idle
  | answered (result : Except String JobId)
  -- `submit_job`
  | loadInitialized (r : Request)
  | takeId (r : Request)
  | loadWorkers (id : JobId) (r : Request)
  | loadActive (id : JobId) (r : Request) (search : Search)
  | loadQueue (id : JobId) (r : Request) (search : Search) (worker : HartId)
  | loadCurrent (id : JobId) (r : Request) (search : Search) (worker : HartId) (queue : UInt64)
  | insertJob (id : JobId) (r : Request) (hart : HartId)
  | getChannel (id : JobId) (hart : HartId)
  | send (id : JobId) (hart : HartId) (at_ : SendAt)
  | increment (id : JobId) (hart : HartId)
  -- `worker_entry` and `execute_job`
  | tryRecv (at_ : RecvAt)
  | decrement (id : JobId)
  | getJob (id : JobId)
  | storeCurrent (job : WasmJob)

/-- `WASM_SERVICE`, the channels of the workers, and the harts. -/
structure WorkerService where
  initialized : Bool
  nextJobId : JobId
  numWorkers : HartId
  active : HartId → Bool
  queueDepth : HartId → UInt64
  currentJob : HartId → JobId
  inJob : HartId → Bool
  jobs : Registry
  registered : HartId → Bool
  channel : HartId → Channel Message
  place : HartId → Place

/-- A hart calls `submit_job`, which a job may do too, polls as the worker that it is, goes on with the call it is in,
or comes to the end of the job it executes. -/
inductive Action where
  | submit (h : HartId) (r : Request)
  | poll (h : HartId)
  | step (h : HartId)
  | finish (h : HartId)

def Place.free : Place → Bool
  | .idle => true
  | .answered _ => true
  | _ => false

/-- `WorkerStats::load_score` from its two loads. -/
def loadScore (queue : UInt64) (current : JobId) : UInt64 := queue * 10 + (if 0 < current then 1 else 0) * 5

variable (s : WorkerService)

namespace WorkerService

variable (h : HartId)

def moved (p : Place) : WorkerService := { s with place := update s.place h p }

/-- The target of a submission, once it has its id. -/
def target (r : Request) : Place :=
  match r.targetHart with
  | none => .loadWorkers id r
  | some 0 => .answered (.error "Cannot submit to hart 0 (primary)")
  | some t => if inside : t < maxHarts then .insertJob id r ⟨t, inside⟩ else .answered (.error "Invalid hart ID")

def workers : List HartId := (finRange maxHarts).filter fun h => 0 < h.val && h ≤ s.numWorkers

def advance : Option WorkerService :=
  match s.place h with
  | .idle => none
  | .answered _ => none
  | .loadInitialized r =>
    some (s.moved h (if s.initialized then .takeId r else .answered (.error "WASM service not initialized")))
  | .takeId r => some { s.moved h (target s.nextJobId r) with nextJobId := s.nextJobId + 1 }
  | .loadWorkers id r =>
    some (s.moved h (if s.numWorkers = 0 then .answered (.error "No WASM workers available")
      else .loadActive id r ⟨s.workers, 1, 0xffffffffffffffff⟩))
  | .loadActive id r search =>
    match search.ahead with
    | [] => some (s.moved h (.insertJob id r search.bestHart))
    | worker :: rest =>
      some (s.moved h (if s.active worker then .loadQueue id r { search with ahead := rest } worker
        else .loadActive id r { search with ahead := rest }))
  | .loadQueue id r search worker => some (s.moved h (.loadCurrent id r search worker (s.queueDepth worker)))
  | .loadCurrent id r search worker queue =>
    let score := loadScore queue (s.currentJob worker)
    some (s.moved h (.loadActive id r
      (if score < search.bestScore then { search with bestHart := worker, bestScore := score } else search)))
  | .insertJob id r hart =>
    some { s.moved h (.getChannel id hart) with jobs := s.jobs.insert id r hart }
  | .getChannel id hart =>
    some (s.moved h
    (if s.registered hart then .send id hart .loadClosed else .answered (.error "Worker channel not found")))
  | .send id hart at_ =>
    match (s.channel hart).send defaultChannelCapacity (notification id) at_ with
    | .goes next => some (s.moved h (.send id hart next))
    | .fails _ => some (s.moved h (.answered (.error "Failed to send job to worker")))
    | .sent chan => some { s.moved h (.increment id hart) with channel := update s.channel hart chan }
  | .increment id hart =>
    some { s.moved h (.answered (.ok id)) with queueDepth := update s.queueDepth hart (s.queueDepth hart + 1) }
  | .tryRecv at_ =>
    match (s.channel h).tryRecv at_ with
    | .goes next => some (s.moved h (.tryRecv next))
    | .returns none chan => some { s.moved h .idle with channel := update s.channel h chan }
    | .returns (some msg) chan =>
      some { s.moved h (if msg.isJob then .decrement msg.jobId else .idle) with channel := update s.channel h chan }
  | .decrement id =>
    some { s.moved h (.getJob id) with queueDepth := update s.queueDepth h (s.queueDepth h - 1) }
  | .getJob id =>
    match s.jobs.get id with
    | some job => some (s.moved h (.storeCurrent job))
    | none => some (s.moved h .idle)
  | .storeCurrent job =>
    some { s.moved h .idle with currentJob := update s.currentJob h job.id, inJob := update s.inJob h true }

def exec : Action → Option WorkerService
  | .submit h r => if (s.place h).free then some (s.moved h (.loadInitialized r)) else none
  | .poll h =>
    if (s.place h).free && s.registered h && !s.inJob h then some (s.moved h (.tryRecv .loadClosed)) else none
  | .step h => s.advance h
  | .finish h =>
    if (s.place h).free && s.inJob h then
      some { s with currentJob := update s.currentJob h 0, inJob := update s.inJob h false }
    else none

def step (a : Action) (s' : WorkerService) : Prop := s.exec a = some s'

theorem not_registered (_ : JobId) (job : WasmJob) (found : none = some job) : job.arc < 0 := by
  cases found

/-- The service after `init` with `numWorkers + 1` harts. -/
def start (numWorkers : HartId) : WorkerService where
  initialized := true
  nextJobId := 1
  numWorkers := numWorkers
  active h := 0 < h.val && h ≤ numWorkers
  queueDepth _ := 0
  currentJob _ := 0
  inJob _ := false
  jobs := ⟨fun _ => none, 0, not_registered⟩
  registered h := 0 < h.val && h ≤ numWorkers
  channel _ := Channel.withCapacity
  place _ := .idle

/-- The job notifications pending in the channel of worker `h`. -/
def pending : Nat := (s.channel h).buffer.countP Message.isJob

end WorkerService

/-! ## Calls in progress -/

/-- The hart has sent a notification to `w` and not yet counted it. -/
def Place.uncounted (p : Place) (w : HartId) : Bool :=
  match p with
  | .increment _ hart => hart == w
  | _ => false

/-- The hart has received a notification and is about to decrement. -/
def Place.decrements : Place → Bool
  | .decrement _ => true
  | _ => false

/-- A submission or a receive is in progress. -/
def Place.busy : Place → Bool
  | .idle => false
  | .answered _ => false
  | .getJob _ => false
  | .storeCurrent _ => false
  | _ => true

namespace WorkerService

/-- The submissions to `w` that are sent and not counted. -/
def uncounted (w : HartId) : Nat := (finRange maxHarts).countP fun g => (s.place g).uncounted w

/-- No submission or receive is in progress. -/
def Quiet : Prop := ∀ h, (s.place h).busy = false

end WorkerService

/-- The accounts are right at a step: it does not take a counter below zero, and the counters
are those of the pending notifications while no call is in progress. -/
structure Accounts (s : WorkerService) (a : Action) : Prop where
  noWrap : ∀ h, a = .step h → (s.place h).decrements = true → s.queueDepth h ≠ 0
  quiet : s.Quiet → ∀ h, (s.queueDepth h).toNat = s.pending h

/-- A worker decrements only while no more submissions to it are uncounted than notifications are
pending. -/
def Counted (a : Action) : Prop :=
  ∀ h, a = .step h → (s.place h).decrements = true → s.uncounted h ≤ s.pending h

/-! ## The account of a worker -/

/-- What is known of worker `w`: its counter, the uncounted submissions, the pending notifications,
and whether it is about to decrement. -/
structure Account where
  depth : UInt64
  uncounted : Nat
  pending : Nat
  received : Nat

def WorkerService.account (w : HartId) : Account :=
  ⟨s.queueDepth w, s.uncounted w, s.pending w, (s.place w).decrements.toNat⟩

/-- What a step does to the account of a worker; `takes` says that it is the worker's decrement. -/
inductive Posting (takes : Prop) (a : Account) : Account → Prop where
  | none : Posting takes a a
  | send : a.pending < defaultChannelCapacity →
      Posting takes a { a with uncounted := a.uncounted + 1, pending := a.pending + 1 }
  | increment {left : Nat} : a.uncounted = left + 1 → Posting takes a { a with depth := a.depth + 1, uncounted := left }
  | receive {left : Nat} : a.pending = left + 1 → a.received = 0 →
      Posting takes a { a with pending := left, received := 1 }
  | decrement : takes → a.received = 1 → Posting takes a { a with depth := a.depth - 1, received := 0 }

/-- The counter and what is not counted yet are what is pending and what is not discounted yet. -/
structure Account.Balanced (a : Account) : Prop where
  sum : (a.depth.toNat + a.uncounted) % 2 ^ 64 = (a.pending + a.received) % 2 ^ 64
  room : a.pending ≤ defaultChannelCapacity

theorem Account.Balanced.post {takes : Prop} {a a' : Account} (bal : a.Balanced) (posting : Posting takes a a') :
    a'.Balanced := by
  have one : (1 : UInt64).toNat = 1 := rfl
  obtain ⟨sum, room⟩ := bal
  cases posting with
  | none => exact ⟨sum, room⟩
  | send small =>
    refine ⟨?_, small⟩
    dsimp only
    omega
  | increment count =>
    refine ⟨?_, room⟩
    dsimp only
    rw [UInt64.toNat_add]
    omega
  | receive count idle =>
    constructor
    · dsimp only
      omega
    · dsimp only
      omega
  | decrement _ holds =>
    refine ⟨?_, room⟩
    dsimp only
    rw [UInt64.toNat_sub]
    omega

/-- No more is uncounted than pending and received, as long as no decrement comes too early. -/
theorem Posting.covered {takes : Prop} {a a' : Account} (posting : Posting takes a a')
    (covered : a.uncounted ≤ a.pending + a.received) (guard : takes → a.uncounted ≤ a.pending) :
    a'.uncounted ≤ a'.pending + a'.received := by
  cases posting with
  | none => exact covered
  | send _ =>
    dsimp only
    omega
  | increment count =>
    dsimp only
    omega
  | receive count idle =>
    dsimp only
    omega
  | decrement taken _ => exact guard taken

/-! ## The steps as postings -/

open WorkerService

section Steps

variable {s s' : WorkerService} {h : HartId} {p : Place} {takes : Prop}

theorem uncounted_update (place : s'.place = update s.place h p) (w : HartId) :
    s'.uncounted w + ((s.place h).uncounted w).toNat = s.uncounted w + (p.uncounted w).toNat := by
  have others : ∀ g, g ≠ h → (s'.place g).uncounted w = (s.place g).uncounted w := by
    intro g other
    rw [place, update_of_ne other]
  have here : (s'.place h).uncounted w = p.uncounted w := by rw [place, update_self]
  have change := countP_change (nodup_finRange maxHarts) (mem_finRange h) others
  rwa [here] at change

theorem decrements_update (place : s'.place = update s.place h p) (w : HartId) :
    (s'.place w).decrements = if w = h then p.decrements else (s.place w).decrements := by
  rw [place]
  by_cases same : w = h
  · rw [same, update_self, if_pos rfl]
  · rw [update_of_ne same, if_neg same]

/-- A place that does not matter for any account. -/
structure Place.Plain (p : Place) : Prop where
  counted : ∀ w, p.uncounted w = false
  apart : p.decrements = false

theorem Place.Plain.of {p : Place} (counted : ∀ w, p.uncounted w = false := by exact fun _ => rfl)
    (apart : p.decrements = false := by rfl) : p.Plain := ⟨counted, apart⟩

theorem Place.Plain.ite {condition : Prop} [Decidable condition] {p q : Place} (first : p.Plain) (second : q.Plain) :
    (if condition then p else q).Plain := by
  split
  · exact first
  · exact second

theorem target_plain (r : Request) : (target id r).Plain := by
  unfold target
  split
  · exact .of
  · exact .of
  · split
    · exact .of
    · exact .of

theorem Place.plain_of_free {p : Place} (free : p.free = true) : p.Plain := by
  cases p with
  | idle => exact .of
  | answered result => exact .of
  | _ => cases free

theorem Place.plain_of_rest {p : Place} (rest : p.busy = false) : p.Plain := by
  cases p with
  | increment _ _ => cases rest
  | decrement _ => cases rest
  | _ => exact .of

theorem decrements_plain (before : (s.place h).Plain) (after : p.decrements = false)
    (place : s'.place = update s.place h p) (w : HartId) : (s'.place w).decrements = (s.place w).decrements := by
  rw [decrements_update place w]
  split
  · rename_i same
    rw [same, after, before.apart]
  · rfl

variable {w hart : HartId} {id : JobId}

theorem pending_congr (channel : s'.channel w = s.channel w) : s'.pending w = s.pending w := by
  rw [pending, pending, channel]

theorem post_none (depth : s'.queueDepth w = s.queueDepth w) (counted : s'.uncounted w = s.uncounted w)
    (pending : s'.pending w = s.pending w) (received : (s'.place w).decrements = (s.place w).decrements) :
    Posting takes (s.account w) (s'.account w) := by
  rw [account, account, depth, counted, pending, received]
  exact .none

theorem post_within (before : (s.place h).Plain) (place : s'.place = update s.place h p)
    (after : p.Plain := by exact .of)
    (depth : s'.queueDepth = s.queueDepth := by rfl) (channel : s'.channel = s.channel := by rfl) :
    Posting takes (s.account w) (s'.account w) := by
  have count := uncounted_update place w
  rw [before.counted w, after.counted w] at count
  exact post_none (congrFun depth w) (Nat.add_right_cancel count) (pending_congr (congrFun channel w))
    (decrements_plain before after.apart place w)

theorem post_send {id' : JobId} {chan : Channel Message} (before : (s.place h).Plain)
    (place : s'.place = update s.place h (.increment id hart)) (depth : s'.queueDepth = s.queueDepth)
    (channel : s'.channel = update s.channel hart chan)
    (buffer : chan.buffer = (s.channel hart).buffer ++ [notification id'])
    (room : (s.channel hart).buffer.length < defaultChannelCapacity) :
    Posting takes (s.account w) (s'.account w) := by
  have isJob : (notification id').isJob = true := by simp [notification, Message.isJob]
  have count := uncounted_update place w
  have received := decrements_plain before rfl place w
  rw [before.counted w, Bool.toNat_false, Nat.add_zero] at count
  by_cases same : w = hart
  · have pending : s'.pending w = s.pending w + 1 := by
      rw [pending, pending, channel, same, update_self, buffer, countP_append,
        countP_singleton, isJob, if_pos rfl]
    have counted : s'.uncounted w = s.uncounted w + 1 := by
      rw [count, same]
      simp [Place.uncounted]
    have small : s.pending w < defaultChannelCapacity := by
      rw [same]
      exact Nat.lt_of_le_of_lt countP_le_length room
    rw [show s'.account w = { s.account w with uncounted := s.uncounted w + 1, pending := s.pending w + 1 } by
      rw [account, depth, counted, pending, received]
      rfl]
    exact .send small
  · have counted : s'.uncounted w = s.uncounted w := by
      have differs : (hart == w) = false := by simpa using Ne.symm same
      simpa [Place.uncounted, differs] using count
    exact post_none (congrFun depth w) counted (pending_congr (by rw [channel, update_of_ne same])) received

theorem post_increment (here : s.place h = .increment id hart) (after : p.Plain)
    (place : s'.place = update s.place h p)
    (depth : s'.queueDepth = update s.queueDepth hart (s.queueDepth hart + 1)) (channel : s'.channel = s.channel) :
    Posting takes (s.account w) (s'.account w) := by
  have count := uncounted_update place w
  have received : (s'.place w).decrements = (s.place w).decrements := by
    rw [decrements_update place w]
    split_ifs with same
    · rw [same, here, after.apart]
      rfl
    · rfl
  rw [after.counted w, Bool.toNat_false, Nat.add_zero, here] at count
  by_cases same : w = hart
  · have counted : s.uncounted w = s'.uncounted w + 1 := by
      rw [← count, same]
      simp [Place.uncounted]
    rw [show s'.account w = { s.account w with depth := s.queueDepth w + 1, uncounted := s'.uncounted w } by
      rw [account, depth, received, pending, channel, same, update_self]
      rfl]
    exact .increment counted
  · have counted : s'.uncounted w = s.uncounted w := by
      have differs : (hart == w) = false := by simpa using Ne.symm same
      simpa [Place.uncounted, differs] using count
    exact post_none (by rw [depth, update_of_ne same]) counted (pending_congr (congrFun channel w)) received

/-- A message is taken out of the channel; for a job notification the worker will decrement. -/
theorem post_receive {msg : Message} {rest : List Message} {chan : Channel Message} (before : (s.place h).Plain)
    (place : s'.place = update s.place h p) (free : ∀ w, p.uncounted w = false) (job : p.decrements = msg.isJob)
    (depth : s'.queueDepth = s.queueDepth) (first : (s.channel h).buffer = msg :: rest)
    (channel : s'.channel = update s.channel h chan) (buffer : chan.buffer = rest) :
    Posting takes (s.account w) (s'.account w) := by
  have count := uncounted_update place w
  rw [before.counted w, free w] at count
  have counted : s'.uncounted w = s.uncounted w := Nat.add_right_cancel count
  by_cases same : w = h
  · have pending : s.pending w = s'.pending w + if msg.isJob = true then 1 else 0 := by
      rw [pending, pending, channel, same, update_self, buffer, first, countP_cons]
    have received : (s'.place w).decrements = msg.isJob := by rw [decrements_update place w, if_pos same, job]
    have idle : (s.place w).decrements = false := by rw [same, before.apart]
    cases isJob : msg.isJob with
    | true =>
      rw [isJob] at pending
      rw [show s'.account w = { s.account w with pending := s'.pending w, received := 1 } by
        rw [account, depth, counted, received, isJob]
        rfl]
      exact .receive pending (by rw [account, idle]; rfl)
    | false =>
      rw [isJob] at pending
      exact post_none (congrFun depth w) counted pending.symm (by rw [received, isJob, idle])
  · have received : (s'.place w).decrements = (s.place w).decrements := by rw [decrements_update place w, if_neg same]
    exact post_none (congrFun depth w) counted (pending_congr (by rw [channel, update_of_ne same])) received

theorem post_decrement (here : s.place h = .decrement id) (after : p.Plain)
    (place : s'.place = update s.place h p)
    (depth : s'.queueDepth = update s.queueDepth h (s.queueDepth h - 1)) (channel : s'.channel = s.channel)
    (taken : w = h → takes) : Posting takes (s.account w) (s'.account w) := by
  have count := uncounted_update place w
  have outside : (s.place h).uncounted w = false := by
    rw [here]
    rfl
  rw [after.counted w, outside] at count
  have counted : s'.uncounted w = s.uncounted w := Nat.add_right_cancel count
  by_cases same : w = h
  · have received : (s.place w).decrements = true := by
      rw [same, here]
      rfl
    rw [show s'.account w = { s.account w with depth := s.queueDepth w - 1, received := 0 } by
      rw [account, depth, counted, decrements_update place w, if_pos same, after.apart, pending,
        channel, same, update_self]
      rfl]
    exact .decrement (taken same) (by rw [account, received]; rfl)
  · have received : (s'.place w).decrements = (s.place w).decrements := by rw [decrements_update place w, if_neg same]
    exact post_none (by rw [depth, update_of_ne same]) counted (pending_congr (congrFun channel w)) received

theorem advance_send {at_ : SendAt} (here : s.place h = .send id hart at_)
    (step : s.advance h = some s') (w : HartId) : Posting takes (s.account w) (s'.account w) := by
  have before : (s.place h).Plain := here ▸ .of
  unfold advance at step
  rw [here] at step
  dsimp only at step
  split at step
  · cases step
    exact post_within before rfl
  · cases step
    exact post_within before rfl
  · rename_i chan sent
    cases step
    obtain ⟨room, buffer⟩ := Channel.send_sent sent
    exact post_send before rfl rfl rfl buffer room

theorem advance_recv {at_ : RecvAt} (here : s.place h = .tryRecv at_) (step : s.advance h = some s') (w : HartId) :
    Posting takes (s.account w) (s'.account w) := by
  have before : (s.place h).Plain := here ▸ .of
  unfold advance at step
  rw [here] at step
  cases at_ with
  | loadClosed =>
    cases closed : (s.channel h).closed with
    | true =>
      simp only [Channel.tryRecv, closed] at step
      cases step
      exact post_within before rfl .of rfl (update_eq_self _ _)
    | false =>
      simp only [Channel.tryRecv, closed] at step
      cases step
      exact post_within before rfl
  | pop =>
    cases buffer : (s.channel h).buffer with
    | nil =>
      simp only [Channel.tryRecv, buffer, tail_nil] at step
      cases step
      have same : ({ s.channel h with buffer := [] } : Channel Message) = s.channel h := by rw [← buffer]
      exact post_within before rfl .of rfl (by dsimp only; rw [same, update_eq_self])
    | cons msg rest =>
      simp only [Channel.tryRecv, buffer] at step
      cases step
      refine post_receive before rfl (fun w => ?_) ?_ rfl buffer rfl rfl
      · cases msg.isJob <;> rfl
      · cases msg.isJob <;> rfl

/-- A hart moves between plain places with a step that came out as the state `t`. -/
theorem post_moved {q : Place} {t : WorkerService} (came : some t = some s') (here : s.place h = p)
    (place : t.place = update s.place h q) (after : q.Plain := by exact .of) (before : p.Plain := by exact .of)
    (depth : t.queueDepth = s.queueDepth := by rfl) (channel : t.channel = s.channel := by rfl) :
    Posting takes (s.account w) (s'.account w) := by
  cases came
  exact post_within (here ▸ before) place after depth channel

/-- **What the step of a hart does to the accounts.** -/
theorem advance_posting (step : s.advance h = some s') (w : HartId) :
    Posting (w = h ∧ (s.place w).decrements = true) (s.account w) (s'.account w) := by
  have advances := step
  unfold advance at step
  generalize here : s.place h = place at step
  cases place with
  | idle => cases step
  | answered result => cases step
  | loadInitialized r => exact post_moved step here rfl (.ite .of .of)
  | takeId r => exact post_moved step here rfl (target_plain _ r)
  | loadWorkers id r => exact post_moved step here rfl (.ite .of .of)
  | loadActive id r search =>
    dsimp only at step
    split at step
    · exact post_moved step here rfl
    · exact post_moved step here rfl (.ite .of .of)
  | loadQueue id r search worker => exact post_moved step here rfl
  | loadCurrent id r search worker queue => exact post_moved step here rfl
  | insertJob id r hart => exact post_moved step here rfl
  | getChannel id hart => exact post_moved step here rfl (.ite .of .of)
  | send id hart at_ => exact advance_send here advances w
  | increment id hart =>
    cases step
    exact post_increment here .of rfl rfl rfl
  | tryRecv at_ => exact advance_recv here advances w
  | decrement id =>
    cases step
    exact post_decrement here .of rfl rfl rfl fun same => ⟨same, by rw [same, here]; rfl⟩
  | getJob id =>
    dsimp only at step
    split at step
    · exact post_moved step here rfl
    · exact post_moved step here rfl
  | storeCurrent job => exact post_moved step here rfl

theorem step_posting {a : Action} (step : s.step a s') (w : HartId) :
    Posting (a = .step w ∧ (s.place w).decrements = true) (s.account w) (s'.account w) := by
  cases a with
  | submit h r =>
    unfold WorkerService.step exec at step
    dsimp only at step
    split_ifs at step with free
    cases step
    exact post_within (Place.plain_of_free free) rfl
  | poll h =>
    unfold WorkerService.step exec at step
    dsimp only at step
    split_ifs at step with ready
    rw [Bool.and_eq_true, Bool.and_eq_true] at ready
    cases step
    exact post_within (Place.plain_of_free ready.1.1) rfl
  | finish h =>
    unfold WorkerService.step exec at step
    dsimp only at step
    split_ifs at step
    cases step
    exact .none
  | step h =>
    have posting := advance_posting step w
    have same :
        (w = h ∧ (s.place w).decrements = true) = (Action.step h = Action.step w ∧ (s.place w).decrements = true) := by
      rw [Action.step.injEq, @eq_comm _ w h]
    rwa [same] at posting

end Steps

/-! ## Runs -/

theorem account_start (numWorkers w : HartId) : (start numWorkers).account w = ⟨0, 0, 0, 0⟩ := by
  rfl

section Runs

variable {numWorkers : HartId} {actions : List Action} {s : WorkerService}

/-- Every account is balanced, in every run. -/
theorem run_balanced (run : Run step (start numWorkers) actions s) (w : HartId) : (s.account w).Balanced :=
  run.invariant (I := fun s => (s.account w).Balanced) (fun _ _ _ bal step => bal.post (step_posting step w)) <| by
    rw [account_start]
    exact ⟨rfl, Nat.zero_le _⟩

theorem run_covered (run : Run (guarded Counted step) (start numWorkers) actions s) (w : HartId) :
    s.uncounted w ≤ s.pending w + (s.place w).decrements.toNat :=
  run.invariant
    (fun _ _ _ covered step => (step_posting step.2 w).covered covered fun taken => step.1 w taken.1 taken.2) <| by
      rw [account_start]
      exact Nat.zero_le _

/-- **The accounts are right at the next step** exactly when this step decrements no counter whose
worker has more uncounted submissions than pending notifications, in every run in which no
earlier step did. -/
theorem queue_depth_accounts_iff
    (run : Run (guarded Counted WorkerService.step) (WorkerService.start numWorkers) actions s) (a : Action) :
    Accounts s a ↔ Counted s a := by
  have all := run.weaken fun _ _ _ step => step.2
  have positive : ∀ h, (s.place h).decrements = true → (s.queueDepth h ≠ 0 ↔ s.uncounted h ≤ s.pending h) := by
    intro h receives
    obtain ⟨sum, room⟩ := run_balanced all h
    have covered := run_covered run h
    have limit := (s.queueDepth h).toNat_lt
    have zero : s.queueDepth h ≠ 0 ↔ (s.queueDepth h).toNat ≠ 0 := by
      rw [ne_eq, ← UInt64.toNat_inj]
      rfl
    simp only [account, receives, Bool.toNat_true, defaultChannelCapacity] at sum room covered
    rw [zero]
    omega
  constructor
  · exact fun accounts h is receives => (positive h receives).mp (accounts.noWrap h is receives)
  · intro counted
    constructor
    · exact fun h is receives => (positive h receives).mpr (counted h is receives)
    · intro quiet w
      -- with nothing in progress nothing is left to count
      have plain : ∀ g, (s.place g).Plain := fun g => Place.plain_of_rest (quiet g)
      have none : s.uncounted w = 0 := countP_eq_zero.mpr fun g _ => by simp [(plain g).counted w]
      obtain ⟨sum, room⟩ := run_balanced all w
      have limit := (s.queueDepth w).toNat_lt
      simp only [account, (plain w).apart, Bool.toNat_false, defaultChannelCapacity] at sum room
      omega

end Runs

/-! ## Two runs -/

/-- Hart 0 submits to worker 1, up to the notification being sent. -/
def sendJob : List Action := .submit 0 ⟨[], [], some 1⟩ :: replicate 7 (.step 0)

/-- Worker 1 receives a notification. -/
def receiveJob : List Action := [.poll 1, .step 1, .step 1]

/-- A step that is no decrement. -/
def leavesCounters : Action → Bool
  | .step h => !(s.place h).decrements
  | _ => true

/-- The submission is counted before the worker receives. -/
theorem queue_depth_accounts_counted : ∃ s,
    Run (guarded Counted WorkerService.step) (WorkerService.start 1) (sendJob ++ [.step 0] ++ receiveJob) s ∧
    (s.place 1).decrements = true ∧ Accounts s (.step 1) := by
  obtain ⟨s, made, receives, depth⟩ : ∃ s, runSteps (fun s a => if leavesCounters s a then s.exec a else none)
      (sendJob ++ [.step 0] ++ receiveJob) (start 1) = some s ∧
      (s.place 1).decrements = true ∧ s.queueDepth 1 = 1 :=
    ⟨_, rfl, rfl, rfl⟩
  have run : Run (guarded Counted step) (start 1) (sendJob ++ [.step 0] ++ receiveJob) s := by
    refine .of_runSteps (fun s a s' done => ?_) made
    split_ifs at done with leaves
    refine ⟨fun h is receives => ?_, done⟩
    subst is
    rw [leavesCounters, receives] at leaves
    cases leaves
  refine ⟨s, run, receives, (queue_depth_accounts_iff run (.step 1)).mpr ?_⟩
  intro h is _
  cases is
  obtain ⟨sum, -⟩ := run_balanced (run.weaken fun _ _ _ step => step.2) 1
  have covered := run_covered run 1
  simp only [account, receives, depth, Bool.toNat_true] at sum covered
  have one : (1 : UInt64).toNat = 1 := rfl
  omega

/-- The worker is faster than the submission, and its decrement takes the counter below zero. -/
theorem queue_depth_wraps :
    ∃ s, Run WorkerService.step (WorkerService.start 1) (sendJob ++ receiveJob) s ∧ ¬ Accounts s (.step 1) := by
  obtain ⟨s, made, receives, depth⟩ : ∃ s, runSteps exec (sendJob ++ receiveJob) (start 1) = some s ∧
      (s.place 1).decrements = true ∧ s.queueDepth 1 = 0 := ⟨_, rfl, rfl, rfl⟩
  refine ⟨s, .of_runSteps (fun _ _ _ done => done) made, fun accounts => ?_⟩
  exact accounts.noWrap 1 rfl receives depth

end HavyOs.Wasm
