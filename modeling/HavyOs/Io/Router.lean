import HavyOs.Sched.Scheduler

/-!
# The I/O router

`cpu/io_router.rs`: harts submit requests to queues of their own, and the dispatcher on
hart 0 takes them round-robin, handles them and stores the results in completion slots, from
which the callers take them. Slots and callbacks are indexed by the request id modulo 64.
A step is one atomic access to the shared state: a load or store of a flag, or what is done
under one lock. Every hart is in one call at a time; the dispatcher runs beside the calls of
hart 0, which a callback may make. What handling a request does to the devices is a
parameter. The history of what the callers made and saw is kept beside the state.
-/

namespace HavyOs.Io

open Sched (maxHarts CpuCount)
open Function (update)

abbrev maxPendingRequests : Nat := 64

inductive DeviceType where
  | mmc
  | network
  | display
  | uart
  | virtioBlock
  | virtioNet
  | audio
deriving DecidableEq, Repr

inductive IoOp where
  | read (offset : UInt64) (len : Nat)
  | write (offset : UInt64) (data : List UInt8)
  | ioctl (cmd : UInt32) (arg : UInt64)
  | flush
  | status
  | fsRead (path : String)
  | fsWrite (path : String) (data : List UInt8)
  | fsList (path : String)
  | fsExists (path : String)
  | fsSync
  | displayFlush
  | displayClear
  | displayMarkAllDirty
  | displayIsAvailable
  | touchPoll
  | touchNextEvent
  | touchHasEvents
  | netPoll (timestampMs : Int)
  | netIsIpAssigned
  | netGetIp
  | audioWriteSample (sample : UInt32)
  | audioSetEnabled (enabled : Bool)
  | audioSetSampleRate (rate : UInt32)
  | audioGetBufferLevel
  | audioIsBufferFull
  | audioIsBufferEmpty
deriving DecidableEq, Repr

/-- `RequestId`, a `u64`. -/
abbrev RequestId := Nat

/-- `IoCallback`: the address of the function. -/
abbrev IoCallback := Nat

structure IoRequest where
  requestId : RequestId
  sourceHart : Nat
  device : DeviceType
  operation : IoOp
deriving DecidableEq, Repr

inductive IoResult where
  | ok (data : List UInt8)
  | err (message : String)
deriving DecidableEq, Repr

structure CompletionSlot where
  complete : Bool
  result : Option IoResult

inductive Submission where
  | requestIo
  | requestIoAsync
  | withCallback (callback : IoCallback)

/-- Where a hart is in its call. -/
inductive Phase where
  | idle
  | created (request : IoRequest) (submission : Submission)
  /-- `reset` has cleared the flag, not yet the result. -/
  | clearing (request : IoRequest) (submission : Submission)
  /-- `reset` has returned. -/
  | cleared (request : IoRequest) (submission : Submission)
  | registered (request : IoRequest)
  /-- In the loop of `request_io`. -/
  | waiting (requestId : RequestId)
  | polling (requestId : RequestId)
  /-- `take` has seen the flag; `again` if `request_io` tries again when there is no result. -/
  | taking (requestId : RequestId) (again : Bool)
  /-- `take` has the result and still has to clear the flag. -/
  | took (requestId : RequestId) (result : IoResult)

inductive Dispatcher where
  | idle
  /-- In the loop of `dequeue_request_round_robin`, with so many harts left to look at. -/
  | scanning (left : Nat)
  | handling (request : IoRequest)
  | handled (request : IoRequest) (result : IoResult)
  /-- `store` has written the result, not yet the flag. -/
  | stored (request : IoRequest) (result : IoResult)
  /-- `store` has returned. -/
  | flagged (request : IoRequest) (result : IoResult)
  /-- The callback was taken and is about to be invoked. -/
  | calling (request : IoRequest) (result : IoResult) (callback : IoCallback)

/-- What the callers made and saw. -/
inductive Event where
  | created (request : IoRequest)
  /-- The slot of the request was reset for it. -/
  | submitted (requestId : RequestId)
  | registered (requestId : RequestId) (callback : IoCallback)
  | handled (request : IoRequest) (result : IoResult)
  /-- `request_io` or `poll_io` returned the result. -/
  | delivered (requestId : RequestId) (result : IoResult)
  | timedOut (requestId : RequestId)
  | invoked (callback : IoCallback) (requestId : RequestId) (result : IoResult)
deriving DecidableEq

/-- The statics of the router, the devices, the calls in progress, and the history, newest first. -/
structure Router (World : Type) where
  nextRequestId : Nat
  ioQueues : Nat → List IoRequest
  ioCompletions : Nat → CompletionSlot
  ioCallbacks : Nat → Option IoCallback
  dispatchCursor : Nat
  world : World
  harts : Nat → Phase
  dispatcher : Dispatcher
  history : List Event

/-- `(request_id as usize) % MAX_PENDING_REQUESTS`. -/
def slotIdx (requestId : RequestId) : Nat := requestId % maxPendingRequests

namespace Router

variable {World : Type}

/-- Before the first request; `NEXT_REQUEST_ID` starts at 1. -/
def start (world : World) : Router World where
  nextRequestId := 1
  ioQueues := fun _ => []
  ioCompletions := fun _ => ⟨false, none⟩
  ioCallbacks := fun _ => none
  dispatchCursor := 0
  world := world
  harts := fun _ => .idle
  dispatcher := .idle
  history := []

variable (s : Router World) (hart : Nat)

def setHart (phase : Phase) : Router World :=
  { s with harts := update s.harts hart phase }

def setDispatcher (dispatcher : Dispatcher) : Router World := { s with dispatcher := dispatcher }

def record (event : Event) : Router World := { s with history := event :: s.history }

variable (slot : Nat)

def setComplete (complete : Bool) : Router World :=
  { s with ioCompletions := update s.ioCompletions slot { s.ioCompletions slot with complete := complete } }

def setResult (result : Option IoResult) : Router World :=
  { s with ioCompletions := update s.ioCompletions slot { s.ioCompletions slot with result := result } }

def setCallback (callback : Option IoCallback) : Router World :=
  { s with ioCallbacks := update s.ioCallbacks slot callback }

/-- `IO_QUEUES[hart].lock().push_back(request)`. -/
def pushBack (request : IoRequest) : Router World :=
  { s with ioQueues := update s.ioQueues hart (s.ioQueues hart ++ [request]) }

/-- `IoRequest::new` on a hart, for the given way to submit; the counter wraps. -/
def create (device : DeviceType) (operation : IoOp) (submission : Submission) :
    Router World :=
  let request : IoRequest := ⟨s.nextRequestId, hart, device, operation⟩
  ({ s with nextRequestId := (s.nextRequestId + 1) % 2 ^ 64 }.record (.created request)).setHart hart
    (.created request submission)

/-- The next step of the call that a hart is in. -/
def advance : Router World :=
  match s.harts hart with
  | .idle => s
  -- `reset`
  | .created request submission =>
    (s.setComplete (slotIdx request.requestId) false).setHart hart (.clearing request submission)
  | .clearing request submission =>
    ((s.setResult (slotIdx request.requestId) none).record (.submitted request.requestId)).setHart hart
      (.cleared request submission)
  | .cleared request .requestIo => (s.pushBack hart request).setHart hart (.waiting request.requestId)
  | .cleared request .requestIoAsync => (s.pushBack hart request).setHart hart .idle
  | .cleared request (.withCallback callback) =>
    ((s.setCallback (slotIdx request.requestId) (some callback)).record
      (.registered request.requestId callback)).setHart hart (.registered request)
  | .registered request => (s.pushBack hart request).setHart hart .idle
  -- `take`, in `request_io` and in `poll_io`
  | .waiting requestId =>
    if (s.ioCompletions (slotIdx requestId)).complete then s.setHart hart (.taking requestId true) else s
  | .polling requestId =>
    if (s.ioCompletions (slotIdx requestId)).complete then s.setHart hart (.taking requestId false)
    else s.setHart hart .idle
  | .taking requestId again =>
    match (s.ioCompletions (slotIdx requestId)).result with
    | some result => (s.setResult (slotIdx requestId) none).setHart hart (.took requestId result)
    | none => s.setHart hart (if again then .waiting requestId else .idle)
  | .took requestId result =>
    ((s.setComplete (slotIdx requestId) false).record (.delivered requestId result)).setHart hart .idle

/-- The next step of `dispatch_io`. -/
def dispatch (numHarts : CpuCount) (handle : World → IoRequest → IoResult × World) (s : Router World) : Router World :=
  match s.dispatcher with
  | .idle => s.setDispatcher (.scanning numHarts)
  | .scanning 0 => s.setDispatcher .idle
  | .scanning (left + 1) =>
    let cursor := s.dispatchCursor % numHarts
    let s := { s with dispatchCursor := (s.dispatchCursor + 1) % 2 ^ 64 }
    match s.ioQueues cursor with
    | [] => s.setDispatcher (.scanning left)
    | request :: rest =>
      { s with ioQueues := update s.ioQueues cursor rest }.setDispatcher (.handling request)
  | .handling request =>
    let (result, world) := handle s.world request
    ({ s with world := world }.record (.handled request result)).setDispatcher (.handled request result)
  -- `complete_request`
  | .handled request result =>
    (s.setResult (slotIdx request.requestId) (some result)).setDispatcher (.stored request result)
  | .stored request result =>
    (s.setComplete (slotIdx request.requestId) true).setDispatcher (.flagged request result)
  | .flagged request result =>
    match s.ioCallbacks (slotIdx request.requestId) with
    | some callback => (s.setCallback (slotIdx request.requestId) none).setDispatcher (.calling request result callback)
    | none => s.setDispatcher (.scanning numHarts)
  | .calling request result callback =>
    (s.record (.invoked callback request.requestId result)).setDispatcher (.scanning numHarts)

end Router

/-- What a hart or the dispatcher does next. -/
inductive Action where
  | create (hart : Fin maxHarts) (device : DeviceType) (operation : IoOp) (submission : Submission)
  | poll (hart : Fin maxHarts) (requestId : RequestId)
  | advance (hart : Fin maxHarts)
  | timeout (hart : Fin maxHarts)
  | dispatch

section

variable {World : Type} (numHarts : CpuCount) (handle : World → IoRequest → IoResult × World)

/-- The state an action leads to; a call starts on an idle hart, and only a waiting caller times out. -/
def exec (s : Router World) : Action → Option (Router World)
  | .create hart device operation submission =>
    match s.harts hart with
    | .idle => some (s.create hart device operation submission)
    | _ => none
  | .poll hart requestId =>
    match s.harts hart with
    | .idle => some (s.setHart hart (.polling requestId))
    | _ => none
  | .advance hart => some (s.advance hart)
  | .timeout hart =>
    match s.harts hart with
    | .waiting requestId => some ((s.record (.timedOut requestId)).setHart hart .idle)
    | _ => none
  | .dispatch => some (s.dispatch numHarts handle)

def step (s : Router World) (action : Action) (s' : Router World) : Prop := exec numHarts handle s action = some s'

end

end HavyOs.Io
