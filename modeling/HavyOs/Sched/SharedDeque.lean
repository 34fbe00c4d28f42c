import HavyOs.Sched.ChaseLev

/-!
# The work-stealing deque, shared

`push` and `pop` of one owner and `steal` of any number of thieves, interleaved at each single
load, store and compare and swap of `bottom`, `top` and `buffer`, and at each access to a cell,
in one order that all agree on. A pointer to a buffer is a number; a buffer that `grow` replaced
stays where it was, since nobody frees it. Copying into a new buffer is part of the store that
publishes it: nobody else sees the new buffer before, and nobody else writes to the old one.

What `push` was called with and what was returned so far is kept beside the state. A cell that was
never written reads as `none`, so that a returned value is an `Option`.
-/

namespace HavyOs.Sched

/-- Where the owner is. A phase is named after its next step, and holds what was loaded before. -/
inductive OwnerPhase (α : Type) where
  | idle
  | pushTop (value : α) (bottom : Int)
  | pushBuffer (value : α) (bottom top : Int)
  /-- The compare and swap of `ensure_buffer`. -/
  | pushInit (value : α) (bottom top : Int)
  | pushGrow (value : α) (bottom top : Int) (buffer : Nat)
  | pushPut (value : α) (bottom : Int) (buffer : Nat)
  | pushBottom (value : α) (bottom : Int)
  | popBottom (bottom : Int)
  | popTop (bottom : Int)
  | popBuffer (bottom top : Int)
  | popGet (bottom top : Int) (buffer : Nat)
  | popSwap (top : Int) (value : Option α)
  /-- The store to `bottom` before `pop` returns; the result is `none` where the code returns `None`. -/
  | popReturn (bottom : Int) (result : Option (Option α))

/-- Where a thief is. -/
inductive ThiefPhase (α : Type) where
  | idle
  | stealBottom (top : Int)
  | stealBuffer (top : Int)
  | stealGet (top : Int) (buffer : Nat)
  | stealSwap (top : Int) (value : Option α)

/-- `WorkStealingDeque<T>` with the buffers behind the pointers. -/
structure DequeMemory (α : Type) where
  bottom : Int
  top : Int
  buffer : Option Nat
  heap : Nat → Buffer α
  /-- The pointer of the next buffer that is allocated. -/
  next : Nat

/-- The memory, the parties that use it, and the history. -/
structure SharedDeque (α : Type) extends DequeMemory α where
  owner : OwnerPhase α
  thieves : Nat → ThiefPhase α
  /-- What `push` was called with, and what `pop` and `steal` returned, in this order. -/
  pushed : List α
  popped : List (Option α)
  stolen : List (Option α)

/-- A call starts, or a party takes its next step. -/
inductive SharedOp (α : Type) where
  | push (value : α)
  | pop
  | owner
  | steal (thief : Nat)
  | thief (thief : Nat)

variable {α : Type}

namespace SharedDeque

def new : SharedDeque α := ⟨⟨0, 0, none, fun _ => Buffer.new initialCapacity, 0⟩, .idle, fun _ => .idle, [], [], []⟩

variable (s : SharedDeque α)

def setOwner (phase : OwnerPhase α) : SharedDeque α := { s with owner := phase }

def setThief (thief : Nat) (phase : ThiefPhase α) : SharedDeque α :=
  { s with thieves := Function.update s.thieves thief phase }

def setBuffer (pointer : Nat) (buffer : Buffer α) : SharedDeque α :=
  { s with heap := Function.update s.heap pointer buffer }

/-- A new buffer is allocated and stored to `buffer`. -/
def publish (buffer : Buffer α) : SharedDeque α :=
  { s.setBuffer s.next buffer with buffer := some s.next, next := s.next + 1 }

def ownerStep : SharedDeque α :=
  match s.owner with
  | .idle => s
  | .pushTop value bottom => s.setOwner (.pushBuffer value bottom s.top)
  | .pushBuffer value bottom top =>
    match s.buffer with
    | none => s.setOwner (.pushInit value bottom top)
    | some buffer => s.setOwner (.pushGrow value bottom top buffer)
  | .pushInit value bottom top =>
    match s.buffer with
    | none => (s.publish (Buffer.new initialCapacity)).setOwner (.pushGrow value bottom top s.next)
    | some existing => s.setOwner (.pushGrow value bottom top existing)
  | .pushGrow value bottom top buffer =>
    if bottom - top ≥ ((s.heap buffer).capacity : Int) - 1 then
      (s.publish ((s.heap buffer).grow bottom top)).setOwner (.pushPut value bottom s.next)
    else s.setOwner (.pushPut value bottom buffer)
  | .pushPut value bottom buffer =>
    (s.setBuffer buffer ((s.heap buffer).put bottom value)).setOwner (.pushBottom value bottom)
  | .pushBottom _ bottom => { s with bottom := bottom + 1, owner := .idle }
  | .popBottom bottom => { s with bottom := bottom, owner := .popTop bottom }
  | .popTop bottom =>
    if s.top ≤ bottom then s.setOwner (.popBuffer bottom s.top) else s.setOwner (.popReturn s.top none)
  | .popBuffer bottom top =>
    match s.buffer with
    | none => s.setOwner (.popReturn top none)
    | some buffer => s.setOwner (.popGet bottom top buffer)
  | .popGet bottom top buffer =>
    let value := (s.heap buffer).get bottom
    if top = bottom then s.setOwner (.popSwap top value)
    else { s with owner := .idle, popped := s.popped ++ [value] }
  | .popSwap top value =>
    if s.top = top then { s with top := top + 1, owner := .popReturn (top + 1) (some value) }
    else s.setOwner (.popReturn (top + 1) none)
  | .popReturn bottom result => { s with bottom := bottom, owner := .idle, popped := s.popped ++ result.toList }

def thiefStep (thief : Nat) : SharedDeque α :=
  match s.thieves thief with
  | .idle => s
  | .stealBottom top => if top ≥ s.bottom then s.setThief thief .idle else s.setThief thief (.stealBuffer top)
  | .stealBuffer top =>
    match s.buffer with
    | none => s.setThief thief .idle
    | some buffer => s.setThief thief (.stealGet top buffer)
  | .stealGet top buffer => s.setThief thief (.stealSwap top ((s.heap buffer).get top))
  | .stealSwap top value =>
    if s.top = top then { s.setThief thief .idle with top := top + 1, stolen := s.stolen ++ [value] }
    else s.setThief thief .idle

/-- One step. A call starts with its first load, where its caller is in none. -/
def step : SharedOp α → SharedDeque α
  | .push value =>
    match s.owner with
    | .idle => { s with owner := .pushTop value s.bottom, pushed := s.pushed ++ [value] }
    | _ => s
  | .pop =>
    match s.owner with
    | .idle => s.setOwner (.popBottom (s.bottom - 1))
    | _ => s
  | .owner => s.ownerStep
  | .steal thief =>
    match s.thieves thief with
    | .idle => s.setThief thief (.stealBottom s.top)
    | _ => s
  | .thief thief => s.thiefStep thief

/-- The steps of the owner itself. -/
def isOwner : SharedOp α → Bool
  | .owner => true
  | _ => false

/-- The steps of a thief. -/
def isThief (thief : Nat) : SharedOp α → Bool
  | .thief other => other == thief
  | _ => false

def run (ops : List (SharedOp α)) : SharedDeque α := ops.foldl step new

def len : Nat := if s.bottom > s.top then (s.bottom - s.top).toNat else 0

/-- The slots of the current buffer from `top` to `bottom`. -/
def slots : List (Option α) :=
  (List.range s.len).map fun i : Nat => s.buffer.bind fun pointer => (s.heap pointer).get (s.top + i)

end SharedDeque

end HavyOs.Sched
