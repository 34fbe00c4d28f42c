import HavyOs.Lib.Outcome
import HavyOs.Lib.Wire

/-!
# The 9P queue

`transact` of `virtio_p9.rs` with the virtqueue it uses and the device behind it. There is one
buffer for requests and one for replies, and every entry of the available ring points to this
pair. The device works on its own: it takes the entries of the available ring in order, reading
the request buffer when it takes one, and answers what it has taken in any order, writing the
reply buffer and advancing the used ring. The driver waits for the used index to move and does
not look at which entry was used, nor at the tag of the reply. What the device answers is a
function of its own state and of the request. Requests are numbered for the specification; the
code does not see the numbers.
-/

namespace HavyOs.P9

open Lib List

def defaultMsize : Nat := 8192

def rLerror : UInt8 := 7

/-- A request that the device has taken and not yet answered. -/
structure Pending where
  serial : Nat
  request : List UInt8
deriving DecidableEq, Repr

/-- The part of `VirtioP9Driver` that the device shares, and the device. -/
structure Queue (δ : Type) where
  requestBuf : List UInt8
  responseBuf : List UInt8
  /-- The lengths in the two descriptors. -/
  requestLen : Nat
  responseLen : Nat
  availIdx : UInt16
  usedIdx : UInt16
  lastUsedIdx : UInt16
  /-- How far the device has come in the available ring. -/
  takenIdx : UInt16
  pending : List Pending
  device : δ
  /-- The number of the request in the request buffer. -/
  started : Nat
  /-- The number of the request that the reply buffer answers. -/
  answers : Nat

def Queue.new {δ : Type} (device : δ) : Queue δ where
  requestBuf := replicate defaultMsize 0
  responseBuf := replicate defaultMsize 0
  requestLen := 0
  responseLen := 0
  availIdx := 0
  usedIdx := 0
  lastUsedIdx := 0
  takenIdx := 0
  pending := []
  device := device
  started := 0
  answers := 0

/-- `buf[..bytes.len()].copy_from_slice(bytes)`. -/
def copyFront (buf bytes : List UInt8) : List UInt8 := bytes ++ buf.drop bytes.length

/-! ## The device -/

/-- What the device does at some moment. -/
inductive Beat where
  /-- It takes the next entry of the available ring. -/
  | take
  /-- It answers one of the requests it has taken. -/
  | answer (i : Nat)
deriving DecidableEq, Repr

section Device

variable {δ : Type} (serve : δ → List UInt8 → Option (List UInt8) × δ) (q : Queue δ)

def Queue.take : Queue δ :=
  if q.takenIdx = q.availIdx then q
  else
    { q with
      takenIdx := q.takenIdx + 1
      pending := q.pending ++ [⟨q.started, q.requestBuf.take q.requestLen⟩] }

def Queue.answer (i : Nat) (q : Queue δ) : Queue δ :=
  match q.pending[i]? with
  | none => q
  | some p =>
    match serve q.device p.request with
    | (none, device) => { q with pending := q.pending.eraseIdx i, device := device }
    | (some reply, device) =>
      { q with
        pending := q.pending.eraseIdx i
        device := device
        responseBuf := copyFront q.responseBuf (reply.take q.responseLen)
        usedIdx := q.usedIdx + 1
        answers := p.serial }

def Queue.beat : Beat → Queue δ
  | .take => q.take
  | .answer i => q.answer serve i

/-- What the device does between two looks of the driver. -/
def Queue.beats (beats : List Beat) : Queue δ := beats.foldl (Queue.beat serve) q

/-! ## The driver -/

variable (msize : Nat)

/-- The first half of `transact`: the request is copied and made available. -/
def Queue.submit (request : List UInt8) (q : Queue δ) : Queue δ :=
  { q with
    requestBuf := copyFront q.requestBuf (request.take (min request.length msize))
    requestLen := min request.length msize
    responseLen := msize
    availIdx := q.availIdx + 1
    started := q.started + 1 }

/-- `self.last_used_idx = current_used_idx`. -/
def Queue.seen : Queue δ := { q with lastUsedIdx := q.usedIdx }

/-- The loop of `transact` with `n` rounds left; `schedule i` is what the device does before round `i`. -/
def poll (schedule : Nat → List Beat) :
    Nat → Nat → Queue δ → EStateM.Result String (Queue δ) (List UInt8)
  | _, 0, q => .error "9P transaction timeout" q
  | i, n + 1, before =>
    let q := before.beats serve (schedule i)
    if q.usedIdx = q.lastUsedIdx then poll schedule (i + 1) n q
    else if q.responseBuf.length < 7 then poll schedule (i + 1) n q.seen
    else if q.responseBuf.getD 4 0 = rLerror then .error "9P error response" q.seen
    else .ok (q.responseBuf.take (min (fromLe (q.responseBuf.take 4)) msize)) q.seen

def transact (request : List UInt8) (schedule : Nat → List Beat) :
    EStateM String (Queue δ) (List UInt8) := fun q => poll serve msize schedule 0 100000 (q.submit msize request)

end Device

/-! ## A device that answers at once -/

/-- The device takes each request and answers it before the driver looks. -/
def prompt (_ : Nat) : List Beat := [.take, .answer 0]

section Prompt

variable {δ : Type} {serve : δ → List UInt8 → Option (List UInt8) × δ} {q : Queue δ} {msize : Nat}

/-- Nothing is under way, and the buffers have their sizes. -/
structure Queue.Quiet (q : Queue δ) : Prop where
  settled : q.usedIdx = q.lastUsedIdx
  none : q.pending = []
  taken : q.takenIdx = q.availIdx
  requestSize : q.requestBuf.length = defaultMsize
  responseSize : q.responseBuf.length = defaultMsize

theorem length_copyFront {buf bytes : List UInt8} (fits : bytes.length ≤ buf.length) :
    (copyFront buf bytes).length = buf.length := by
  rw [copyFront, length_append, length_drop]
  omega

theorem take_copyFront (buf bytes : List UInt8) : (copyFront buf bytes).take bytes.length = bytes := take_left

/-- Where the device does nothing the driver waits to the end. -/
theorem poll_idle {schedule : Nat → List Beat} {n i : Nat} (settled : q.usedIdx = q.lastUsedIdx)
    (idle : ∀ j, q.beats serve (schedule j) = q) :
    poll serve msize schedule i n q = .error "9P transaction timeout" q := by
  induction n generalizing i with
  | zero => rfl
  | succ n ih =>
    rw [poll, idle i]
    exact (if_pos settled).trans ih

def Queue.answered (q : Queue δ) (msize : Nat) (request reply : List UInt8) (device : δ) : Queue δ :=
  { q.submit msize request with
    takenIdx := q.takenIdx + 1
    device := device
    responseBuf := copyFront q.responseBuf reply
    usedIdx := q.usedIdx + 1
    lastUsedIdx := q.usedIdx + 1
    answers := q.started + 1 }

def Queue.dropped (q : Queue δ) (msize : Nat) (request : List UInt8) (device : δ) : Queue δ :=
  { q.submit msize request with takenIdx := q.takenIdx + 1, device := device }

variable (quiet : q.Quiet)

include quiet

theorem Queue.Quiet.submitted (msize : Nat) (request : List UInt8) :
    (q.submit msize request).take =
      { q.submit msize request with
        takenIdx := q.takenIdx + 1
        pending := [⟨q.started + 1, request.take msize⟩] } := by
  have behind : (q.submit msize request).takenIdx ≠ (q.submit msize request).availIdx := by
    simp [submit, quiet.taken]
  have length : (request.take (min request.length msize)).length = min request.length msize := by
    rw [length_take]
    omega
  have copied : (q.submit msize request).requestBuf.take (q.submit msize request).requestLen = request.take msize := by
    have front := take_copyFront q.requestBuf (request.take (min request.length msize))
    rw [length] at front
    refine front.trans ?_
    rw [Nat.min_comm, ← take_eq_take_min]
  rw [Queue.take, if_neg behind, copied]
  simp [submit, quiet.none]

theorem Queue.Quiet.resubmitted (small : msize ≤ defaultMsize) (request : List UInt8) (device : δ) :
    (q.dropped msize request device).Quiet := by
  refine ⟨quiet.settled, quiet.none, congrArg (· + 1) quiet.taken, ?_, quiet.responseSize⟩
  have fits : (request.take (min request.length msize)).length ≤ q.requestBuf.length := by
    rw [length_take, quiet.requestSize]
    omega
  exact (length_copyFront fits).trans quiet.requestSize

theorem Queue.Quiet.reanswered (small : msize ≤ defaultMsize) (request : List UInt8) (device : δ)
    {reply : List UInt8} (fits : reply.length ≤ msize) : (q.answered msize request reply device).Quiet := by
  obtain ⟨-, none, taken, requestSize, -⟩ := quiet.resubmitted small request device
  refine ⟨rfl, none, taken, requestSize, ?_⟩
  have room : reply.length ≤ q.responseBuf.length := by
    rw [quiet.responseSize]
    omega
  exact (length_copyFront room).trans quiet.responseSize

theorem Queue.Quiet.beats_prompt (request : List UInt8) (i : Nat) :
    (q.submit msize request).beats serve (prompt i) =
      Queue.answer serve 0 { q.submit msize request with
        takenIdx := q.takenIdx + 1
        pending := [⟨q.started + 1, request.take msize⟩] } := by
  rw [Queue.beats, prompt, foldl_cons, foldl_cons, foldl_nil, Queue.beat, Queue.beat,
    quiet.submitted msize request]

theorem beats_prompt_idle (i : Nat) : q.beats serve (prompt i) = q := by
  have untaken : q.take = q := if_pos quiet.taken
  rw [Queue.beats, prompt, foldl_cons, foldl_cons, Queue.beat, Queue.beat, untaken, Queue.answer,
    quiet.none]
  rfl

/-- A request that is answered at once: the driver gets the reply, or an error if this is an `Rlerror`. -/
theorem transact_answered {request reply : List UInt8} {device : δ}
    (served : serve q.device (request.take msize) = (some reply, device)) (fits : reply.length ≤ msize)
    (sized : fromLe (reply.take 4) = reply.length) (header : 7 ≤ reply.length) :
    transact serve msize request prompt q =
      if reply.getD 4 0 = rLerror then .error "9P error response" (q.answered msize request reply device)
      else .ok reply (q.answered msize request reply device) := by
  have answer : (q.submit msize request).beats serve (prompt 0) =
      { q.answered msize request reply device with lastUsedIdx := q.lastUsedIdx } := by
    rw [quiet.beats_prompt request 0]
    have served' : serve (q.submit msize request).device (request.take msize) = (some reply, device) := served
    simp only [Queue.answer, getElem?_cons_zero, served']
    rw [take_of_length_le (show reply.length ≤ (q.submit msize request).responseLen from fits)]
    simp [Queue.answered, Queue.submit, quiet.none]
  have unmoved : q.usedIdx + 1 ≠ q.lastUsedIdx := by
    rw [quiet.settled]
    simp
  have length : ¬(copyFront q.responseBuf reply).length < 7 := by
    rw [copyFront, length_append]
    omega
  have type : (copyFront q.responseBuf reply).getD 4 0 = reply.getD 4 0 := by
    rw [copyFront, getD_eq_getElem?_getD, getElem?_append_left (by omega), getD_eq_getElem?_getD]
  have size : (copyFront q.responseBuf reply).take 4 = reply.take 4 := by
    rw [copyFront, take_append_of_le_length (by omega)]
  rw [transact, poll, answer]
  refine (if_neg unmoved).trans ((if_neg length).trans ?_)
  simp only [Queue.answered, type, size, sized, Nat.min_eq_left fits, take_copyFront]
  rfl

/-- A request that the device drops: the driver waits to the end. -/
theorem transact_dropped (small : msize ≤ defaultMsize) {request : List UInt8} {device : δ}
    (served : serve q.device (request.take msize) = (none, device)) :
    transact serve msize request prompt q = .error "9P transaction timeout" (q.dropped msize request device) := by
  have answer : (q.submit msize request).beats serve (prompt 0) = q.dropped msize request device := by
    rw [quiet.beats_prompt request 0]
    have served' : serve (q.submit msize request).device (request.take msize) = (none, device) := served
    simp only [Queue.answer, getElem?_cons_zero, served']
    simp [Queue.dropped, Queue.submit, quiet.none]
  have still := quiet.resubmitted small request device
  rw [transact, poll, answer]
  exact (if_pos still.settled).trans (poll_idle still.settled (beats_prompt_idle still))

end Prompt

end HavyOs.P9
