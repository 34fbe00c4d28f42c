import HavyOs.Lib.Ring
import HavyOs.Lib.Run

/-!
# Pipes

`Pipe` of `cpu/ipc.rs`, a call at a time, against a bounded queue of bytes with two ends. The waiters, which no call
looks at, are left out.
-/

namespace HavyOs.Ipc

open Lib List

def pipeBufferSize : Nat := 8192

instance : NeZero pipeBufferSize := ⟨by decide⟩

abbrev PipeBuffer := Ring UInt8 pipeBufferSize

def PipeBuffer.write (b : PipeBuffer) (data : List UInt8) : Nat × PipeBuffer :=
  let toWrite := min data.length (pipeBufferSize - b.count)
  (toWrite, (data.take toWrite).foldl Ring.push b)

/-- The bytes stored in a buffer of `length` bytes. -/
def PipeBuffer.read (b : PipeBuffer) (length : Nat) : List UInt8 × PipeBuffer := Ring.popMany (min length b.count) b

structure Pipe where
  buffer : PipeBuffer
  readerActive : Bool
  writerActive : Bool

def Pipe.new : Pipe := ⟨⟨fun _ => 0, 0, 0, 0⟩, true, true⟩

inductive PipeCall where
  | write (data : List UInt8)
  | read (length : Nat)
  | closeWrite
  | closeRead

inductive PipeAnswer where
  | wrote (count : Nat)
  | bytes (data : List UInt8)
  | failed (error : String)
  | closed

def Pipe.call (p : Pipe) : PipeCall → PipeAnswer × Pipe
  | .write data =>
    if !p.readerActive then (.failed "Broken pipe (no reader)", p)
    else
      let (written, buffer) := PipeBuffer.write p.buffer data
      (.wrote written, { p with buffer })
  | .read length =>
    let (bytes, buffer) := PipeBuffer.read p.buffer length
    (if bytes.length = 0 ∧ !p.writerActive then .failed "EOF" else .bytes bytes, { p with buffer })
  | .closeWrite => (.closed, { p with writerActive := false })
  | .closeRead => (.closed, { p with readerActive := false })

/-- What a pipe is for. -/
structure ByteQueue where
  bytes : List UInt8
  readerActive : Bool
  writerActive : Bool

def ByteQueue.call (q : ByteQueue) : PipeCall → PipeAnswer × ByteQueue
  | .write data =>
    let fits := data.take (pipeBufferSize - q.bytes.length)
    if q.readerActive then (.wrote fits.length, { q with bytes := q.bytes ++ fits })
    else (.failed "Broken pipe (no reader)", q)
  | .read length =>
    (if (length = 0 ∨ q.bytes = []) ∧ !q.writerActive then .failed "EOF" else .bytes (q.bytes.take length),
      { q with bytes := q.bytes.drop length })
  | .closeWrite => (.closed, { q with writerActive := false })
  | .closeRead => (.closed, { q with readerActive := false })

/-- The pipe stands for the queue. -/
structure Pipe.Refines (p : Pipe) (q : ByteQueue) : Prop where
  bytes : p.buffer.Holds q.bytes
  reader : p.readerActive = q.readerActive
  writer : p.writerActive = q.writerActive

theorem PipeBuffer.write_spec {b : PipeBuffer} {q : List UInt8} (h : b.Holds q) (data : List UInt8) :
    (PipeBuffer.write b data).1 = (data.take (pipeBufferSize - q.length)).length ∧
      (PipeBuffer.write b data).2.Holds (q ++ data.take (pipeBufferSize - q.length)) := by
  have fits := h.fits
  have same : data.take (data.take (pipeBufferSize - q.length)).length = data.take (pipeBufferSize - q.length) := by
    simp
  rw [PipeBuffer.write, h.count, Nat.min_comm, ← length_take, same]
  exact ⟨rfl, h.pushAll _ (by rw [length_take]; omega)⟩

theorem PipeBuffer.read_spec {b : PipeBuffer} {q : List UInt8} (h : b.Holds q) (length : Nat) :
    (PipeBuffer.read b length).1 = q.take length ∧ (PipeBuffer.read b length).2.Holds (q.drop length) := by
  have spec := h.popMany (Nat.min_le_right length q.length)
  rw [PipeBuffer.read, h.count]
  rcases Nat.le_total length q.length with less | more
  · rwa [Nat.min_eq_left less] at spec ⊢
  · rw [Nat.min_eq_right more, take_length, drop_length] at spec
    rwa [Nat.min_eq_right more, take_of_length_le more, drop_eq_nil_of_le more]

theorem Pipe.Refines.call {p : Pipe} {q : ByteQueue} (h : p.Refines q) (op : PipeCall) :
    (p.call op).1 = (q.call op).1 ∧ (p.call op).2.Refines (q.call op).2 := by
  obtain ⟨buffer, _, _⟩ := p
  obtain ⟨held, rfl, rfl⟩ := h
  cases op with
  | write data =>
    obtain ⟨written, rest⟩ := PipeBuffer.write_spec held data
    cases active : q.readerActive with
    | true => simpa [Pipe.call, ByteQueue.call, active, written] using ⟨rest, rfl, rfl⟩
    | false => simpa [Pipe.call, ByteQueue.call, active] using ⟨held, active.symm, rfl⟩
  | read length =>
    obtain ⟨taken, rest⟩ := PipeBuffer.read_spec held length
    exact ⟨by simp [Pipe.call, ByteQueue.call, taken], rest, rfl, rfl⟩
  | closeWrite => exact ⟨rfl, held, rfl, rfl⟩
  | closeRead => exact ⟨rfl, held, rfl, rfl⟩

/-- **A pipe is a bounded queue.** Every sequence of calls is answered as the queue answers it: the bytes come out in
the order in which they were accepted, a write takes as many as fit, and the end of the file is reported when the
writer has closed and nothing is left, or nothing was asked for. -/
theorem pipe_refines_queue (calls : List PipeCall) :
    answers Pipe.call .new calls = answers ByteQueue.call ⟨[], true, true⟩ calls := by
  have empty : Pipe.new.Refines ⟨[], true, true⟩ :=
    ⟨⟨Nat.zero_le _, rfl, rfl, fun _ small => absurd small (by simp)⟩, rfl, rfl⟩
  exact answers_eq (fun _ _ op h (_ : True) => h.call op) calls empty fun _ _ => trivial

end HavyOs.Ipc
