import HavyOs.Lib.Run
import Mathlib.Logic.Function.Basic
import Mathlib.Tactic.Common

/-!
# Channels

`Channel` of `cpu/ipc.rs`, used by any number of harts at a time. A call is cut into its
accesses to shared state: the loads of the flags are steps of their own, and a critical
section of the buffer's lock is one step, since nothing else touches the buffer meanwhile.

The messages that were pushed and those that were returned are kept in the order in which
this happened; the program does not read these lists. A channel that is closed while it holds
messages does not return them any more, and a `send` that loaded `closed` before the close
still pushes after it, so messages are delivered as long as the channel is closed only when it
is empty and no `send` is past its check.
-/

namespace HavyOs.Ipc

open HavyOs.Lib Function List

variable {Hart μ : Type}

abbrev Pid := Nat

/-- `Channel`, with the fields that are shared; its capacity is fixed. -/
structure Channel (μ : Type) where
  buffer : List μ
  senderCount : UInt64
  receiverActive : Bool
  waiters : List Pid
  closed : Bool

def Channel.withCapacity : Channel μ := ⟨[], 1, true, [], false⟩

/-! ## The calls, step by step -/

/-- The access a `send` makes next. -/
inductive SendAt where
  | loadClosed
  | loadReceiver
  | push
deriving DecidableEq

/-- What a step of `send` comes to. -/
inductive SendStep (μ : Type) where
  | goes (at_ : SendAt)
  | fails (error : String)
  | sent (chan : Channel μ)

variable (capacity : Nat) (c : Channel μ)

/-- One step of `Channel::send`. Under the lock the message is pushed and a waiter is woken. -/
def Channel.send (msg : μ) : SendAt → SendStep μ
  | .loadClosed => if c.closed then .fails "Channel closed" else .goes .loadReceiver
  | .loadReceiver => if !c.receiverActive then .fails "No receiver" else .goes .push
  | .push =>
    if capacity ≤ c.buffer.length then .fails "Channel full"
    else .sent { c with buffer := c.buffer ++ [msg], waiters := c.waiters.tail }

theorem Channel.send_sent {capacity : Nat} {c chan : Channel μ} {msg : μ} {at_ : SendAt}
    (sent : c.send capacity msg at_ = .sent chan) : c.buffer.length < capacity ∧ chan.buffer = c.buffer ++ [msg] := by
  cases at_ with
  | loadClosed =>
    unfold Channel.send at sent
    dsimp only at sent
    split at sent
    · cases sent
    · cases sent
  | loadReceiver =>
    unfold Channel.send at sent
    dsimp only at sent
    split at sent
    · cases sent
    · cases sent
  | push =>
    unfold Channel.send at sent
    dsimp only at sent
    split at sent
    · cases sent
    · cases sent
      exact ⟨by omega, rfl⟩

/-- The access a `try_recv` makes next. -/
inductive RecvAt where
  | loadClosed
  | pop
deriving DecidableEq

/-- What a step of `try_recv` comes to. -/
inductive RecvStep (μ : Type) where
  | goes (at_ : RecvAt)
  | returns (answer : Option μ) (chan : Channel μ)

def Channel.tryRecv : RecvAt → RecvStep μ
  | .loadClosed => if c.closed then .returns none c else .goes .pop
  | .pop => .returns c.buffer.head? { c with buffer := c.buffer.tail }

/-- `self.sender_count.fetch_sub(1)`. -/
def Channel.subSender : Channel μ := { c with senderCount := c.senderCount - 1 }

def Channel.addSender : Channel μ := { c with senderCount := c.senderCount + 1 }

/-! ## Harts on a channel -/

/-- Where a hart is. A `try_recv` keeps the number of messages sent before it began. -/
inductive Place (μ : Type) where
  | idle
  | send (msg : μ) (at_ : SendAt)
  | recv (before : Nat) (at_ : RecvAt)
  | removeSender
  | closeStore
  | closeWake

inductive Call (μ : Type) where
  | send (msg : μ)
  | tryRecv
  | registerWaiter (pid : Pid)
  | hasMessages
  | pendingCount
  | close
  | isClosed
  | addSender
  | removeSender
  | dropReceiver

/-- A `try_recv` that returned `None`: how many messages were sent before it began, and how
many had been returned when it ended. -/
structure Miss where
  sentBefore : Nat
  returned : Nat

structure System (Hart μ : Type) where
  chan : Channel μ
  place : Hart → Place μ
  sent : List μ
  returned : List μ
  misses : List Miss

/-- A hart makes a call, or goes on with the one it is in. -/
inductive Action (Hart μ : Type) where
  | call (h : Hart) (c : Call μ)
  | step (h : Hart)

namespace System

variable [DecidableEq Hart] (s : System Hart μ)

def moved (h : Hart) (p : Place μ) : System Hart μ := { s with place := Function.update s.place h p }

/-- The beginning of a call; calls of one access are done with it. -/
def call (h : Hart) : Call μ → System Hart μ
  | .send msg => s.moved h (.send msg .loadClosed)
  | .tryRecv => s.moved h (.recv s.sent.length .loadClosed)
  | .registerWaiter pid => { s with chan := { s.chan with waiters := s.chan.waiters ++ [pid] } }
  | .hasMessages => s
  | .pendingCount => s
  | .close => s.moved h .closeStore
  | .isClosed => s
  | .addSender => { s with chan := s.chan.addSender }
  | .removeSender => s.moved h .removeSender
  | .dropReceiver => { s with chan := { s.chan with receiverActive := false } }

/-- The next access of the call the hart is in. -/
def advance (capacity : Nat) (s : System Hart μ) (h : Hart) : Option (System Hart μ) :=
  match s.place h with
  | .idle => none
  | .send msg at_ =>
    match s.chan.send capacity msg at_ with
    | .goes next => some (s.moved h (.send msg next))
    | .fails _ => some (s.moved h .idle)
    | .sent chan => some { s.moved h .idle with chan := chan, sent := s.sent ++ [msg] }
  | .recv before at_ =>
    match s.chan.tryRecv at_ with
    | .goes next => some (s.moved h (.recv before next))
    | .returns (some msg) chan => some { s.moved h .idle with chan := chan, returned := s.returned ++ [msg] }
    | .returns none chan =>
        some { s.moved h .idle with chan := chan, misses := ⟨before, s.returned.length⟩ :: s.misses }
  | .removeSender =>
    -- the last sender closes the channel
    some { s.moved h (if s.chan.senderCount = 1 then .closeStore else .idle) with chan := s.chan.subSender }
  | .closeStore => some { s.moved h .closeWake with chan := { s.chan with closed := true } }
  | .closeWake => some { s.moved h .idle with chan := { s.chan with waiters := [] } }

/-- What an action leads to; a hart in a call makes no other. -/
def exec (capacity : Nat) (s : System Hart μ) : Action Hart μ → Option (System Hart μ)
  | .call h c =>
    match s.place h with
    | .idle => some (s.call h c)
    | _ => none
  | .step h => s.advance capacity h

def step (capacity : Nat) (s : System Hart μ) (a : Action Hart μ) (s' : System Hart μ) : Prop :=
    s.exec capacity a = some s'

def new : System Hart μ := ⟨Channel.withCapacity, fun _ => .idle, [], [], []⟩

end System

/-! ## Delivery -/

/-- What was delivered: messages are returned once each and in the order in which they were
pushed, no more than the capacity are pending, and a `try_recv` that returned `None` left out
no message that was sent before it began. -/
structure Delivers (capacity : Nat) (s : System Hart μ) : Prop where
  order : s.sent = s.returned ++ s.chan.buffer
  bounded : s.chan.buffer.length ≤ capacity
  none : ∀ miss ∈ s.misses, miss.sentBefore ≤ miss.returned

/-- A `send` that has loaded `closed` and not returned. -/
def Place.pastCheck : Place μ → Prop
  | .send _ .loadReceiver => True
  | .send _ .push => True
  | _ => False

/-- The channel is closed only when it is empty and no `send` is past its check. -/
def ClosesEmpty (s : System Hart μ) : Action Hart μ → Prop
  | .call _ _ => True
  | .step h => s.place h = .closeStore → s.chan.buffer = [] ∧ ∀ other, ¬ (s.place other).pastCheck

structure Invariant (capacity : Nat) (s : System Hart μ) : Prop extends Delivers capacity s where
  closed : s.chan.closed = true → s.chan.buffer = [] ∧ ∀ h, ¬ (s.place h).pastCheck
  began : ∀ h before at_, s.place h = .recv before at_ → before ≤ s.sent.length

/-- What a place may be: a `send` past its check found the channel open, and a `try_recv`
counted messages that were sent. -/
structure Place.Fits (p : Place μ) (s : System Hart μ) : Prop where
  open_ : s.chan.closed = true → ¬ p.pastCheck
  began : ∀ before at_, p = .recv before at_ → before ≤ s.sent.length

namespace Invariant

variable [DecidableEq Hart] {capacity : Nat} {s : System Hart μ} {h : Hart}

section

variable (inv : Invariant capacity s)

include inv

theorem move (p : Place μ) (fits : p.Fits s) {chan : Channel μ} (buffer : chan.buffer = s.chan.buffer)
    (closed : chan.closed = s.chan.closed) : Invariant capacity { s.moved h p with chan := chan } := by
  constructor
  · constructor
    · exact buffer ▸ inv.order
    · exact buffer ▸ inv.bounded
    · exact inv.none
  · intro isClosed
    have before : s.chan.closed = true := closed ▸ isClosed
    refine ⟨buffer ▸ (inv.closed before).1, fun other => ?_⟩
    by_cases same : other = h
    · rw [same]
      simpa [System.moved] using fits.open_ before
    · simpa [System.moved, update_of_ne same] using (inv.closed before).2 other
  · intro other before at_ found
    by_cases same : other = h
    · rw [same] at found
      exact fits.began before at_ (by simpa [System.moved] using found)
    · exact inv.began other before at_ (by simpa [System.moved, update_of_ne same] using found)

theorem idle (h : Hart) : Invariant capacity (s.moved h .idle) := inv.move .idle ⟨fun _ => id, nofun⟩ rfl rfl

theorem push (msg : μ) (isOpen : s.chan.closed = false) (room : s.chan.buffer.length < capacity)
    {chan : Channel μ} (buffer : chan.buffer = s.chan.buffer ++ [msg]) (closed : chan.closed = s.chan.closed) :
    Invariant capacity { s.moved h .idle with chan := chan, sent := s.sent ++ [msg] } := by
  have moved := inv.idle h
  constructor
  · constructor
    · change s.sent ++ [msg] = s.returned ++ chan.buffer
      rw [inv.order, buffer, append_assoc]
    · rw [buffer, length_append, length_singleton]
      omega
    · exact inv.none
  · intro isClosed
    rw [show chan.closed = true from isClosed] at closed
    rw [isOpen] at closed
    cases closed
  · intro other before at_ found
    have earlier := moved.began other before at_ found
    change before ≤ s.sent.length at earlier
    rw [length_append]
    omega

theorem pop {msg : μ} {rest : List μ} (first : s.chan.buffer = msg :: rest) :
    Invariant capacity { s.moved h .idle with chan := { s.chan with buffer := rest }, returned :=
    s.returned ++ [msg] } := by
  have moved := inv.idle h
  constructor
  · constructor
    · change s.sent = s.returned ++ [msg] ++ rest
      rw [inv.order, first, append_assoc, singleton_append]
    · have bound := inv.bounded
      rw [first, length_cons] at bound
      change rest.length ≤ capacity
      omega
    · exact inv.none
  · intro isClosed
    have empty := (inv.closed isClosed).1
    rw [first] at empty
    cases empty
  · exact moved.began

omit inv in
theorem miss (inv : Invariant capacity s) (empty : s.chan.buffer = []) {before : Nat} (began : before ≤ s.sent.length) :
    Invariant capacity { s.moved h .idle with misses := ⟨before, s.returned.length⟩ :: s.misses } := by
  have moved := inv.idle h
  have all : s.sent.length = s.returned.length := by
    rw [inv.order, empty, append_nil]
  constructor
  · constructor
    · exact inv.order
    · exact inv.bounded
    · intro miss member
      rcases mem_cons.mp member with rfl | earlier
      · exact all ▸ began
      · exact inv.none miss earlier
  · exact moved.closed
  · exact moved.began

theorem close (empty : s.chan.buffer = []) (outside : ∀ other, ¬ (s.place other).pastCheck) :
    Invariant capacity { s.moved h .closeWake with chan := { s.chan with closed := true } } := by
  have moved : Invariant capacity (s.moved h .closeWake) := inv.move .closeWake ⟨fun _ => id, nofun⟩ rfl rfl
  constructor
  · exact ⟨inv.order, inv.bounded, inv.none⟩
  · refine fun _ => ⟨empty, fun other => ?_⟩
    by_cases same : other = h
    · rw [same]
      simp [System.moved, Place.pastCheck]
    · simpa [System.moved, update_of_ne same] using outside other
  · exact moved.began

theorem call (h : Hart) (c : Call μ) (outside : s.place h = .idle) : Invariant capacity (s.call h c) := by
  have same : s.moved h .idle = s := by
    rw [System.moved, ← outside, update_eq_self]
  have still : ∀ chan : Channel μ, chan.buffer = s.chan.buffer → chan.closed = s.chan.closed →
      Invariant capacity { s with chan := chan } := by
    intro chan buffer closed
    have moved : Invariant capacity { s.moved h .idle with chan := chan } :=
      inv.move .idle ⟨fun _ => id, nofun⟩ buffer closed
    rwa [same] at moved
  cases c with
  | send msg => exact inv.move (.send msg _) ⟨fun _ => id, nofun⟩ rfl rfl
  | tryRecv =>
    refine inv.move _ ⟨fun _ => id, fun before at_ found => ?_⟩ rfl rfl
    injection found with count
    omega
  | registerWaiter pid => exact still _ rfl rfl
  | hasMessages => exact inv
  | pendingCount => exact inv
  | close => exact inv.move .closeStore ⟨fun _ => id, nofun⟩ rfl rfl
  | isClosed => exact inv
  | addSender => exact still _ rfl rfl
  | removeSender => exact inv.move .removeSender ⟨fun _ => id, nofun⟩ rfl rfl
  | dropReceiver => exact still _ rfl rfl

theorem advance_send {msg : μ} {at_ : SendAt} (here : s.place h = .send msg at_) {s' : System Hart μ}
    (step : s.advance capacity h = some s') : Invariant capacity s' := by
  have sends : ∀ next, s.chan.closed = false → (Place.send msg next : Place μ).Fits s := fun next isOpen =>
    ⟨fun isClosed => absurd isClosed (by simp [isOpen]), nofun⟩
  unfold System.advance at step
  rw [here] at step
  have past : at_ ≠ .loadClosed → s.chan.closed = false := by
    intro later
    by_contra isClosed
    have none := (inv.closed (by simpa using isClosed)).2 h
    rw [here] at none
    cases at_ with
    | loadClosed => exact later rfl
    | loadReceiver => exact none trivial
    | push => exact none trivial
  cases at_ with
  | loadClosed =>
    cases isClosed : s.chan.closed with
    | true =>
      simp only [Channel.send, isClosed] at step
      cases step
      exact inv.idle h
    | false =>
      simp only [Channel.send, isClosed] at step
      cases step
      exact inv.move _ (sends _ isClosed) rfl rfl
  | loadReceiver =>
    cases active : s.chan.receiverActive with
    | true =>
      simp only [Channel.send, active] at step
      cases step
      exact inv.move _ (sends _ (past (by decide))) rfl rfl
    | false =>
      simp only [Channel.send, active] at step
      cases step
      exact inv.idle h
  | push =>
    by_cases full : capacity ≤ s.chan.buffer.length
    · simp only [Channel.send, if_pos full] at step
      cases step
      exact inv.idle h
    · simp only [Channel.send, if_neg full] at step
      cases step
      exact inv.push msg (past (by decide)) (by omega) rfl rfl

theorem advance_recv {before : Nat} {at_ : RecvAt} (here : s.place h = .recv before at_)
    {s' : System Hart μ} (step : s.advance capacity h = some s') : Invariant capacity s' := by
  have began := inv.began h before at_ here
  unfold System.advance at step
  rw [here] at step
  cases at_ with
  | loadClosed =>
    cases isClosed : s.chan.closed with
    | true =>
      simp only [Channel.tryRecv, isClosed] at step
      cases step
      exact inv.miss (inv.closed isClosed).1 began
    | false =>
      simp only [Channel.tryRecv, isClosed] at step
      cases step
      refine inv.move _ ⟨fun _ => id, fun other at_ found => ?_⟩ rfl rfl
      injection found with count
      omega
  | pop =>
    cases buffer : s.chan.buffer with
    | nil =>
      simp only [Channel.tryRecv, buffer, tail_nil] at step
      cases step
      have same : ({ s.chan with buffer := [] } : Channel μ) = s.chan := by rw [← buffer]
      rw [same]
      exact inv.miss buffer began
    | cons msg rest =>
      simp only [Channel.tryRecv, buffer] at step
      cases step
      exact inv.pop buffer

end

theorem step (inv : Invariant capacity s) {a : Action Hart μ} {s' : System Hart μ} (empty : ClosesEmpty s a)
    (step : s.step capacity a s') : Invariant capacity s' := by
  cases a with
  | call h c =>
    unfold System.step System.exec at step
    dsimp only at step
    split at step
    · rename_i outside
      cases step
      exact inv.call h c outside
    · cases step
  | step h =>
    change s.advance capacity h = some s' at step
    have advances := step
    unfold System.advance at step
    generalize here : s.place h = place at step
    cases place with
    | idle => cases step
    | send msg at_ => exact inv.advance_send here advances
    | recv before at_ => exact inv.advance_recv here advances
    | removeSender =>
      dsimp only at step
      split at step
      · cases step
        exact inv.move .closeStore ⟨fun _ => id, nofun⟩ rfl rfl
      · cases step
        exact inv.move .idle ⟨fun _ => id, nofun⟩ rfl rfl
    | closeStore =>
      cases step
      obtain ⟨none, outside⟩ := empty here
      exact inv.close none outside
    | closeWake =>
      cases step
      exact inv.move .idle ⟨fun _ => id, nofun⟩ rfl rfl

omit [DecidableEq Hart] in
theorem new (capacity : Nat) : Invariant capacity (System.new : System Hart μ) :=
  ⟨⟨rfl, Nat.zero_le _, nofun⟩, nofun, nofun⟩

end Invariant

/-- **A channel delivers** in every run in which it is closed only when it is empty and no
`send` is past its check. -/
theorem channel_delivers [DecidableEq Hart] (capacity : Nat) {actions : List (Action Hart μ)} {s : System Hart μ}
    (run : Run (guarded ClosesEmpty (System.step capacity)) System.new actions s) : Delivers capacity s := by
  have inv := run.invariant (fun _ _ _ inv step => Invariant.step inv step.1 step.2) (Invariant.new capacity)
  exact inv.toDelivers

/-! ## Two runs of one hart -/

def sendSeven : List (Action Unit Nat) := [.call () (.send 7), .step (), .step (), .step ()]

def receive : List (Action Unit Nat) := [.call () .tryRecv, .step (), .step ()]

/-- The last sender leaves. -/
def leave : List (Action Unit Nat) := [.call () .removeSender, .step (), .step (), .step ()]

/-- The channel is emptied, and then its last sender leaves. -/
theorem channel_delivers_emptied :
    ∃ s, Run (guarded ClosesEmpty (System.step 16)) System.new (sendSeven ++ receive ++ leave) s ∧
    Delivers 16 s := by
  have passes : ∀ (s : System Unit Nat), s.place () ≠ .closeStore → ClosesEmpty s (.step ()) := fun _ elsewhere here =>
    absurd here elsewhere
  have run : ∃ s, Run (guarded ClosesEmpty (System.step 16)) System.new (sendSeven ++ receive ++ leave) s :=
    ⟨_, .cons ⟨trivial, rfl⟩ <| .cons ⟨passes _ nofun, rfl⟩ <| .cons ⟨passes _ nofun, rfl⟩ <|
    .cons ⟨passes _ nofun, rfl⟩ <|
      .cons ⟨trivial, rfl⟩ <| .cons ⟨passes _ nofun, rfl⟩ <| .cons ⟨passes _ nofun, rfl⟩ <|
      .cons ⟨trivial, rfl⟩ <| .cons ⟨passes _ nofun, rfl⟩ <| .cons ⟨fun _ => ⟨rfl, fun _ => id⟩, rfl⟩ <|
      .cons ⟨passes _ nofun, rfl⟩ <| .nil _⟩
  obtain ⟨s, run⟩ := run
  exact ⟨s, run, channel_delivers 16 run⟩

/-- The last sender leaves while its message is queued, and the receiver gets nothing. -/
theorem queued_message_lost : ∃ s, Run (System.step 16) System.new (sendSeven ++ leave ++ receive.take 2) s ∧
    ¬ Delivers 16 s := by
  obtain ⟨s, made, misses⟩ : ∃ s, runSteps (System.exec 16) (sendSeven ++ leave ++ receive.take 2) System.new = some s ∧
      s.misses = [⟨1, 0⟩] := ⟨_, rfl, rfl⟩
  refine ⟨s, .of_runSteps (fun _ _ _ done => done) made, fun delivers => ?_⟩
  have missed := delivers.none ⟨1, 0⟩ (by simp [misses])
  cases missed

end HavyOs.Ipc
