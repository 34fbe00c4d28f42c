import HavyOs.Lib.Run
import HavyOs.Lib.Utf8
import Mathlib.Data.List.Forall2

/-!
# The kernel log

`LogBufferState` of `lock/state/log.rs`. Every subsystem logs through it, so that a panic in `log`
stops the kernel wherever it was. What is printed to the console is left out.
-/

namespace HavyOs.Log

open Lib List

inductive LogLevel where
  | emergency | alert | critical | error | warning | notice | info | debug | trace

/-- `LogEntry`; as an argument of `log`, what is to be logged, with the time and the hart. -/
structure LogEntry where
  timestamp : UInt64
  level : LogLevel
  subsystem : List Char
  message : List Char
  hartId : Nat

structure LogBuffer where
  entries : List LogEntry
  sequence : UInt64
  levelFilter : Nat
  enabled : Bool

inductive LogOp where
  | log (entry : LogEntry)
  | drain

/-- The message as it is stored; `none` is a panic, at an offset inside a character. -/
def truncate (message : List Char) : Option (List Char) :=
  if (encode message).length > 256 then (sliceTo message 253).map (· ++ ['.', '.', '.']) else some message

namespace LogBuffer

variable (b : LogBuffer)

def accepts (entry : LogEntry) : Bool := b.enabled && entry.level.ctorIdx ≤ b.levelFilter

/-- The critical section of `log`. -/
def push (entry : LogEntry) : LogBuffer :=
  let kept := if b.entries.length ≥ 128 then b.entries.tail else b.entries
  { b with entries := kept ++ [entry], sequence := b.sequence + 1 }

def exec : LogOp → Option LogBuffer
  | .log entry =>
    if b.accepts entry then (truncate entry.message).map fun message => b.push { entry with message } else some b
  | .drain => some { b with entries := [] }

end LogBuffer

/-- What was accepted since the last drain, with `before` in front. -/
def sinceDrain (accepts : LogEntry → Bool) (before : List LogEntry) : List LogOp → List LogEntry
  | [] => before
  | .log entry :: ops => sinceDrain accepts (if accepts entry then before ++ [entry] else before) ops
  | .drain :: ops => sinceDrain accepts [] ops

/-- A character ends where a message that is too long is cut. -/
def Cuttable (message : List Char) : Prop :=
  (encode message).length ≤ 256 ∨ ∃ start, start <+: message ∧ (encode start).length = 253

/-- The condition on a call: if its message is accepted and too long, it can be cut. -/
def LogOp.Fits (accepts : LogEntry → Bool) : LogOp → Prop
  | .log entry => accepts entry → Cuttable entry.message
  | .drain => True

/-- The entry is stored with its message, or with a beginning of it and dots, in at most 256 bytes. -/
def Stored (entry stored : LogEntry) : Prop :=
  stored = { entry with message := stored.message } ∧ (encode stored.message).length ≤ 256 ∧
    (stored.message = entry.message ∨ ∃ start, start <+: entry.message ∧ stored.message = start ++ ['.', '.', '.'])

theorem isSome_truncate (message : List Char) : (truncate message).isSome ↔ Cuttable message := by
  rw [truncate, Cuttable]
  split
  · rw [Option.isSome_map, Option.isSome_iff_exists, or_iff_right (by omega)]
    refine ⟨fun ⟨start, cut⟩ => ⟨start, sliceTo_spec cut⟩, fun ⟨start, begins, length⟩ => ⟨start, ?_⟩⟩
    rw [← length, sliceTo_encode begins]
  · exact iff_of_true rfl (Or.inl (by omega))

theorem stored_of_truncate {entry : LogEntry} {message : List Char} (cut : truncate entry.message = some message) :
    Stored entry { entry with message } := by
  rw [truncate] at cut
  split at cut
  · obtain ⟨start, found, rfl⟩ := Option.map_eq_some_iff.mp cut
    obtain ⟨begins, length⟩ := sliceTo_spec found
    refine ⟨rfl, ?_, Or.inr ⟨start, begins, rfl⟩⟩
    rw [encode_append, length_append, length]
    decide
  · cases cut
    exact ⟨rfl, Nat.le_of_not_lt ‹_›, Or.inl rfl⟩

theorem push_last {b : LogBuffer} {logged : List LogEntry} (last : b.entries = logged.drop (logged.length - 128))
    (entry : LogEntry) :
    (b.push entry).entries = (logged ++ [entry]).drop ((logged ++ [entry]).length - 128) := by
  have size := congrArg length last
  rw [length_drop] at size
  rw [length_append, length_singleton, drop_append_of_le_length (by omega), LogBuffer.push]
  split
  · rw [last, tail_drop, show logged.length + 1 - 128 = logged.length - 128 + 1 by omega]
  · rw [last, show logged.length + 1 - 128 = logged.length - 128 by omega]

theorem run_iff {b : LogBuffer} {before logged : List LogEntry} (ops : List LogOp)
    (stored : Forall₂ Stored before logged)
    (last : b.entries = logged.drop (logged.length - 128)) :
    (∃ b' logged, runSteps LogBuffer.exec ops b = some b' ∧ Forall₂ Stored (sinceDrain b.accepts before ops) logged ∧
      b'.entries = logged.drop (logged.length - 128)) ↔
    ∀ op ∈ ops, op.Fits b.accepts := by
  induction ops generalizing b before logged with
  | nil => exact iff_of_true ⟨b, logged, rfl, stored, last⟩ nofun
  | cons op ops ih =>
    rw [forall_mem_cons]
    cases op with
    | drain => exact (ih (b := { b with entries := [] }) .nil rfl).trans (and_iff_right trivial).symm
    | log entry =>
      rw [runSteps, LogBuffer.exec, sinceDrain]
      by_cases accepted : b.accepts entry
      · have cuttable := isSome_truncate entry.message
        rw [if_pos accepted, if_pos accepted]
        cases cut : truncate entry.message with
        | none =>
          rw [cut] at cuttable
          refine iff_of_false nofun fun ⟨first, _⟩ => ?_
          cases cuttable.mpr (first accepted)
        | some message =>
          rw [cut] at cuttable
          refine (ih (rel_append stored (.cons (stored_of_truncate cut) .nil)) (push_last last _)).trans ?_
          exact (and_iff_right fun _ => cuttable.mp rfl).symm
      · rw [if_neg accepted, if_neg accepted]
        exact (ih stored last).trans (and_iff_right fun accepts => absurd accepts accepted).symm

/-- **The buffer holds the last entries** exactly when every message that is too long can be cut. -/
theorem log_holds_last_iff (levelFilter : Nat) (enabled : Bool) (ops : List LogOp) :
    let b : LogBuffer := ⟨[], 0, levelFilter, enabled⟩
    (∃ b' logged, runSteps LogBuffer.exec ops b = some b' ∧ Forall₂ Stored (sinceDrain b.accepts [] ops) logged ∧
      b'.entries = logged.drop (logged.length - 128)) ↔
    ∀ op ∈ ops, op.Fits b.accepts :=
  run_iff ops .nil rfl

/-- A message of 257 bytes with a character of two bytes across the place where it is cut. -/
theorem log_panics : runSteps LogBuffer.exec
    [.log ⟨0, .error, [], replicate 252 'a' ++ 'é' :: replicate 3 'a', 0⟩] ⟨[], 0, 6, true⟩ = none := by
  decide +kernel

end HavyOs.Log
