import HavyOs.Lib.Run
import Mathlib.Data.List.Basic
import Mathlib.Data.Nat.Bitwise

/-!
# The reader-writer lock

`RwLock` of `lock/mod.rs`, one atomic access at a time. A call is followed from its first access
until its guard is dropped: a reader counts itself with a compare-and-swap on the word it has
loaded, a writer sets the writer bit in the same way and then waits until the count of readers is
gone. The counters of the spin loops, which only debug builds look at, are left out.
-/

namespace HavyOs.Lock

open Lib List

def writerBit : UInt32 := (1 : UInt32) <<< 31

def readerMask : UInt32 := ~~~writerBit

def maxReaders : UInt32 := readerMask

/-- The functions that acquire the lock. -/
inductive Call where
  | read
  | tryRead
  | write
  | tryWrite
deriving DecidableEq, Repr

/-- Where a call is: what its next access to the word is, and which guard it has returned. -/
inductive Phase where
  | readLoad
  | readSwap (state : UInt32)
  | tryReadLoad
  | tryReadSwap (state : UInt32)
  /-- `write`, at the load of the first loop. -/
  | writeLoad
  /-- `write`, at the exchange of the first loop. -/
  | writeSwap (state : UInt32)
  /-- `write`, at the load of the second loop: the writer bit is its own. -/
  | claimed
  | tryWriteSwap
  | reading
  | writing
  /-- The guard is dropped, or `None` was returned. -/
  | finished
  | panicked
deriving DecidableEq, Repr

def Call.start : Call → Phase
  | .read => .readLoad
  | .tryRead => .tryReadLoad
  | .write => .writeLoad
  | .tryWrite => .tryWriteSwap

variable (word : UInt32)

/-- `compare_exchange`; the weak one may also fail when the word is as expected. -/
def compareExchange (expected new : UInt32) (fails : Bool) : Option UInt32 :=
  if word = expected ∧ fails = false then some new else none

/-- The next access of a call to the word, where `fails` lets a weak exchange fail. -/
def Phase.next (fails : Bool) : Phase → UInt32 × Phase
  | .readLoad =>
    if word &&& writerBit = 0 then
      if word &&& readerMask ≥ maxReaders then (word, .panicked) else (word, .readSwap word)
    else (word, .readLoad)
  | .readSwap state =>
    match compareExchange word state (state + 1) fails with
    | some new => (new, .reading)
    | none => (word, .readLoad)
  | .tryReadLoad =>
    if word &&& writerBit = 0 ∧ word &&& readerMask < maxReaders then (word, .tryReadSwap word) else (word, .finished)
  | .tryReadSwap state =>
    match compareExchange word state (state + 1) fails with
    | some new => (new, .reading)
    | none => (word, .finished)
  | .writeLoad => if word &&& writerBit = 0 then (word, .writeSwap word) else (word, .writeLoad)
  | .writeSwap state =>
    match compareExchange word state (state ||| writerBit) fails with
    | some new => (new, .claimed)
    | none => (word, .writeLoad)
  | .claimed => if word ≠ writerBit then (word, .claimed) else (word, .writing)
  | .tryWriteSwap =>
    match compareExchange word 0 writerBit false with
    | some new => (new, .writing)
    | none => (word, .finished)
  | .reading => (word - 1, .finished)
  | .writing => (word &&& ~~~writerBit, .finished)
  | .finished => (word, .finished)
  | .panicked => (word, .panicked)

/-- The word of the lock, and the calls that any harts have made on it. -/
structure RwLock where
  state : UInt32
  calls : List Phase
deriving Repr

def RwLock.new : RwLock := ⟨0, []⟩

/-- A hart makes a call, or a call makes its next access. -/
inductive LockOp where
  | call (function : Call)
  | access (i : Nat) (fails : Bool)
deriving Repr

variable (l : RwLock)

def RwLock.exec : LockOp → RwLock
  | .call function => { l with calls := l.calls ++ [function.start] }
  | .access i fails =>
    match l.calls[i]? with
    | none => l
    | some phase => ⟨(phase.next l.state fails).1, l.calls.set i (phase.next l.state fails).2⟩

def lockStep (op : LockOp) (l' : RwLock) : Prop := l.exec op = l'

/-! ## The word -/

theorem no_writer_iff : word &&& writerBit = 0 ↔ word.toNat < 2 ^ 31 := by
  rw [← UInt32.toNat_inj, UInt32.toNat_and, show writerBit.toNat = 2 ^ 31 from rfl, Nat.and_two_pow]
  constructor
  · intro clear
    by_contra large
    have small := word.toNat_lt
    have bit := Nat.testBit_two_pow_add_eq (word.toNat - 2 ^ 31) 31
    have rest : (word.toNat - 2 ^ 31).testBit 31 = false := Nat.testBit_lt_two_pow (by omega)
    rw [Nat.add_sub_of_le (Nat.le_of_not_lt large), rest] at bit
    simp [bit] at clear
  · intro small
    simp [Nat.testBit_lt_two_pow small]

theorem readers_of_word : (word &&& readerMask).toNat = word.toNat % 2 ^ 31 := by
  rw [UInt32.toNat_and, show readerMask.toNat = 2 ^ 31 - 1 from rfl, Nat.and_two_pow_sub_one_eq_mod]

variable {word : UInt32}

theorem tested_word (clear : word &&& writerBit = 0) (few : word &&& readerMask < maxReaders) :
    word.toNat < 2 ^ 31 - 1 := by
  have small := (no_writer_iff word).mp clear
  rw [UInt32.lt_iff_toNat_lt, readers_of_word, show maxReaders.toNat = 2 ^ 31 - 1 from rfl] at few
  omega

theorem count_word (room : word.toNat < 2 ^ 31 - 1) : (word + 1).toNat = word.toNat + 1 := by
  simp
  omega

/-! ## The accounting -/

/-- The call has claimed the writer bit or holds the write guard. -/
def Phase.claims : Phase → Bool
  | .claimed => true
  | .writing => true
  | _ => false

/-- The word a call would exchange for one with one reader more. -/
def Phase.counts (state : UInt32) (phase : Phase) : Prop := phase = .readSwap state ∨ phase = .tryReadSwap state

def RwLock.readers : Nat := l.calls.countP (· == .reading)

/-- The calls that own the writer bit. -/
def RwLock.writers : Nat := l.calls.countP Phase.claims

/-- The word is what the calls make it. -/
structure Accounted (l : RwLock) : Prop where
  word : l.state.toNat = 2 ^ 31 * l.writers + l.readers
  one : l.writers ≤ 1
  room : l.readers < 2 ^ 31
  alone : .writing ∈ l.calls → l.readers = 0
  tested : ∀ phase ∈ l.calls, ∀ state, phase.counts state → state.toNat < 2 ^ 31 - 1
  unclaimed : ∀ state, .writeSwap state ∈ l.calls → state.toNat < 2 ^ 31

theorem accounted_new : Accounted .new := by
  refine ⟨rfl, Nat.zero_le 1, by decide, fun member => ?_, fun phase member => ?_, fun state member => ?_⟩ <;>
    exact absurd member not_mem_nil

theorem countP_moved {calls : List Phase} {i : Nat} {old new : Phase} (at_i : calls[i]? = some old) (p : Phase → Bool) :
    (calls.set i new).countP p + (p old).toNat = calls.countP p + (p new).toNat := by
  obtain ⟨small, same⟩ := List.getElem?_eq_some_iff.mp at_i
  have positive : p old = true → 0 < calls.countP p := by
    intro holds
    rw [countP_pos_iff]
    exact ⟨old, mem_of_getElem? at_i, holds⟩
  rw [countP_set small, same]
  cases before : p old <;> cases after : p new <;> simp <;> have := positive before <;> omega

namespace Accounted

variable {l : RwLock} {i : Nat} {old new : Phase}

variable (h : Accounted l)

include h

variable (at_i : l.calls[i]? = some old)

include at_i

theorem moved {word : UInt32}
    (follows : word.toNat + 2 ^ 31 * old.claims.toNat + (old == .reading).toNat =
      l.state.toNat + 2 ^ 31 * new.claims.toNat + (new == .reading).toNat)
    (room : new = .reading → l.state.toNat < 2 ^ 31 - 1 := by simp) (alone : new = .writing →
    word.toNat = 2 ^ 31 := by simp)
    (tested : ∀ state, new.counts state → state.toNat < 2 ^ 31 - 1 := by simp [Phase.counts])
    (unclaimed : ∀ state, new = .writeSwap state → state.toNat < 2 ^ 31 := by simp) : Accounted ⟨word,
    l.calls.set i new⟩ := by
  have writers : (l.calls.set i new).countP Phase.claims + _ = _ := countP_moved at_i Phase.claims
  have readers : (l.calls.set i new).countP (· == .reading) + _ = _ := countP_moved at_i (· == .reading)
  have before := h.word
  have fits := word.toNat_lt
  unfold RwLock.writers RwLock.readers at before
  have counted : word.toNat =
      2 ^ 31 * (l.calls.set i new).countP Phase.claims + (l.calls.set i new).countP (· == .reading) := by
    omega
  have few : l.readers < 2 ^ 31 := h.room
  unfold RwLock.readers at few
  constructor
  · exact counted
  · change (l.calls.set i new).countP Phase.claims ≤ 1
    omega
  · change (l.calls.set i new).countP (· == .reading) < 2 ^ 31
    by_cases counts : new = .reading
    · have := room counts
      subst counts
      simp only [beq_self_eq_true, Bool.toNat_true] at readers
      omega
    · rw [beq_false_of_ne counts] at readers
      simp only [Bool.toNat_false] at readers
      omega
  · intro member
    change (l.calls.set i new).countP (· == .reading) = 0
    have claims : 0 < (l.calls.set i new).countP Phase.claims := countP_pos_iff.mpr ⟨_, member, rfl⟩
    rcases mem_or_eq_of_mem_set member with another | same
    · -- a reader that counts itself has seen no writer, so this one is no reader
      have none : l.calls.countP (· == .reading) = 0 := h.alone another
      have owned : 0 < l.calls.countP Phase.claims := countP_pos_iff.mpr ⟨_, another, rfl⟩
      by_cases counts : new = .reading
      · have := room counts
        omega
      · rw [beq_false_of_ne counts] at readers
        simp only [Bool.toNat_false] at readers
        omega
    · have := alone same.symm
      omega
  · intro phase member
    rcases mem_or_eq_of_mem_set member with another | same
    · exact h.tested phase another
    · rw [same]
      exact tested
  · intro state member
    rcases mem_or_eq_of_mem_set member with another | same
    · exact h.unclaimed state another
    · exact unclaimed state same.symm

theorem idle (before : old.claims = false ∧ old ≠ .reading)
    (after : new.claims = false ∧ new ≠ .reading) (tested : ∀ state, new.counts state → state.toNat < 2 ^ 31 - 1)
    (unclaimed : ∀ state, new = .writeSwap state → state.toNat < 2 ^ 31) : Accounted ⟨l.state, l.calls.set i new⟩ := by
  refine h.moved at_i ?_ (fun same => absurd same after.2) (fun same => ?_) tested unclaimed
  · rw [before.1, after.1, beq_false_of_ne before.2, beq_false_of_ne after.2]
  · rw [same] at after
    exact absurd after.1 (by decide)

/-- A call that holds nothing goes back to its start, or ends. -/
theorem gaveUp (after : new ∈ [Phase.readLoad, .writeLoad, .finished, .panicked] := by simp)
    (before : old.claims = false ∧ old ≠ .reading := by simp [Phase.claims]) : Accounted ⟨l.state,
    l.calls.set i new⟩ := by
  simp only [mem_cons, not_mem_nil, or_false] at after
  apply h.idle at_i before
  · rcases after with rfl | rfl | rfl | rfl <;> exact ⟨rfl, by decide⟩
  · intro state counts
    rcases after with rfl | rfl | rfl | rfl <;> exact absurd counts (by simp [Phase.counts])
  · intro state swaps
    rcases after with rfl | rfl | rfl | rfl <;> cases swaps

theorem looked {state : UInt32} (after : new.counts state) (small : state.toNat < 2 ^ 31 - 1)
    (before : old.claims = false ∧ old ≠ .reading := by simp [Phase.claims]) : Accounted ⟨l.state,
    l.calls.set i new⟩ := by
  apply h.idle at_i before
  · rcases after with rfl | rfl <;> exact ⟨rfl, by simp⟩
  · intro other counts
    rcases after with rfl | rfl <;> (simp [Phase.counts] at counts; rw [← counts]; exact small)
  · intro other same
    rcases after with rfl | rfl <;> simp at same

theorem released {word : UInt32}
    (follows : word.toNat + 2 ^ 31 * old.claims.toNat + (old == .reading).toNat = l.state.toNat) :
    Accounted ⟨word, l.calls.set i .finished⟩ := h.moved at_i follows

omit at_i in
/-- A reader counts itself on the word it has tested. -/
theorem counted {state : UInt32} (counts : old.counts state) (at_i : l.calls[i]? = some old)
    (current : l.state = state) : Accounted ⟨state + 1, l.calls.set i .reading⟩ := by
  have small := h.tested old (mem_of_getElem? at_i) state counts
  have before : old.claims = false ∧ old ≠ .reading := by
    rcases counts with rfl | rfl <;> exact ⟨rfl, by simp⟩
  rw [← current] at small ⊢
  refine h.moved at_i ?_ fun _ => small
  rw [count_word small, before.1, beq_false_of_ne before.2]
  simp [Phase.claims]

theorem access (fails : Bool) : Accounted ⟨(old.next l.state fails).1, l.calls.set i (old.next l.state fails).2⟩ := by
  cases old with
  | readLoad =>
    rw [Phase.next]
    split
    · rename_i clear
      split_ifs with few
      · exact h.gaveUp at_i
      · exact h.looked at_i (.inl rfl) (tested_word clear (UInt32.not_le.mp few))
    · exact h.gaveUp at_i
  | readSwap state =>
    rw [Phase.next, compareExchange]
    split_ifs with swaps
    · exact h.counted (.inl rfl) at_i swaps.1
    · exact h.gaveUp at_i
  | tryReadLoad =>
    rw [Phase.next]
    split_ifs with free
    · exact h.looked at_i (.inr rfl) (tested_word free.1 free.2)
    · exact h.gaveUp at_i
  | tryReadSwap state =>
    rw [Phase.next, compareExchange]
    split_ifs with swaps
    · exact h.counted (.inr rfl) at_i swaps.1
    · exact h.gaveUp at_i
  | writeLoad =>
    rw [Phase.next]
    split_ifs with clear
    · refine h.idle at_i ⟨rfl, by simp⟩ ⟨rfl, by simp⟩ (by simp [Phase.counts]) fun state same => ?_
      cases same
      exact (no_writer_iff _).mp clear
    · exact h.gaveUp at_i
  | writeSwap state =>
    rw [Phase.next, compareExchange]
    split_ifs with swaps
    · have clear := h.unclaimed state (mem_of_getElem? at_i)
      refine h.moved at_i ?_
      change (state ||| writerBit).toNat + 2 ^ 31 * 0 + 0 = l.state.toNat + 2 ^ 31 * 1 + 0
      rw [UInt32.toNat_or, show writerBit.toNat = 2 ^ 31 * 1 from rfl, Nat.or_comm, ← Nat.two_pow_add_eq_or_of_lt clear,
        swaps.1]
      omega
    · exact h.gaveUp at_i
  | claimed =>
    rw [Phase.next]
    split_ifs with alone
    · exact h.moved at_i rfl
    · refine h.moved at_i rfl (by simp) fun _ => ?_
      rw [not_not.mp alone]
      rfl
  | tryWriteSwap =>
    rw [Phase.next, compareExchange]
    split_ifs with free
    · refine h.moved at_i ?_ (by simp) fun _ => rfl
      rw [free.1]
      rfl
    · exact h.gaveUp at_i
  | reading =>
    have positive : 0 < l.readers := countP_pos_iff.mpr ⟨_, mem_of_getElem? at_i, rfl⟩
    have word := h.word
    have dropped : (l.state - 1).toNat = l.state.toNat - 1 :=
      UInt32.toNat_sub_of_le l.state 1 (UInt32.le_iff_toNat_le.mpr (by rw [word]; simp; omega))
    refine h.released at_i ?_
    change (l.state - 1).toNat + 2 ^ 31 * 0 + 1 = _
    omega
  | writing =>
    have member := mem_of_getElem? at_i
    have owned : 0 < l.writers := countP_pos_iff.mpr ⟨_, member, rfl⟩
    have one := h.one
    have alone := h.alone member
    have word := h.word
    have dropped : (l.state &&& ~~~writerBit).toNat = l.state.toNat % 2 ^ 31 := readers_of_word l.state
    refine h.released at_i ?_
    change (l.state &&& ~~~writerBit).toNat + 2 ^ 31 * 1 + 0 = _
    omega
  | finished => exact h.gaveUp at_i (by simp [Phase.next])
  | panicked => exact h.gaveUp at_i (by simp [Phase.next])

end Accounted

theorem accounted_step {l : RwLock} {op : LockOp} {l' : RwLock} (h : Accounted l) (taken : lockStep l op l') :
    Accounted l' := by
  subst taken
  cases op with
  | call function =>
    have holds : function.start.claims = false ∧ (function.start == .reading) = false := by
      cases function <;> exact ⟨rfl, rfl⟩
    have swaps : ∀ state, ¬ function.start.counts state ∧ function.start ≠ .writeSwap state := by
      cases function <;> simp [Call.start, Phase.counts]
    have readers : (l.exec (.call function)).readers = l.readers := by simp [RwLock.exec, RwLock.readers, holds.2]
    have writers : (l.exec (.call function)).writers = l.writers := by simp [RwLock.exec, RwLock.writers, holds.1]
    refine ⟨?_, ?_, ?_, fun member => ?_, fun phase member state counts => ?_, fun state member => ?_⟩
    · rw [readers, writers]
      exact h.word
    · rw [writers]
      exact h.one
    · rw [readers]
      exact h.room
    · rcases mem_append.mp member with old | new
      · rw [readers]
        exact h.alone old
      · rw [← mem_singleton.mp new] at holds
        exact absurd holds.1 (by decide)
    · rcases mem_append.mp member with old | new
      · exact h.tested phase old state counts
      · rw [mem_singleton.mp new] at counts
        exact absurd counts (swaps state).1
    · rcases mem_append.mp member with old | new
      · exact h.unclaimed state old
      · exact absurd (mem_singleton.mp new).symm (swaps state).2
  | access i fails =>
    rw [RwLock.exec]
    split
    · exact h
    · rename_i phase at_i
      exact h.access at_i fails

/-- **Exclusion and accounting.** In every interleaving of the accesses of any number of calls the word is the writer
bit, if some call holds the write guard or has claimed the bit and waits for the readers, plus the number of live read
guards; a write guard is the only guard; and where there is neither a guard nor a claim the word is 0. -/
theorem rwlock_accounting {ops : List LockOp} {l : RwLock} (run : Run lockStep .new ops l) :
    l.state.toNat = (if ∃ phase ∈ l.calls, phase = .writing ∨ phase = .claimed then 2 ^ 31 else 0) +
      l.calls.count .reading ∧
    (∀ i j : Nat, l.calls[i]? = some .writing → l.calls[j]? = some .writing ∨ l.calls[j]? = some .reading → j = i) ∧
    ((∀ phase ∈ l.calls, phase ≠ .reading ∧ phase ≠ .writing ∧ phase ≠ .claimed) → l.state = 0) := by
  have h : Accounted l := run.invariant (fun _ _ _ => accounted_step) accounted_new
  have owned : (∃ phase ∈ l.calls, phase = .writing ∨ phase = .claimed) ↔ 0 < l.writers := by
    unfold RwLock.writers
    rw [countP_pos_iff]
    constructor
    · rintro ⟨phase, member, rfl | rfl⟩
      · exact ⟨_, member, rfl⟩
      · exact ⟨_, member, rfl⟩
    · rintro ⟨phase, member, claims⟩
      refine ⟨phase, member, ?_⟩
      cases phase <;> simp [Phase.claims] at claims ⊢
  have word := h.word
  have one := h.one
  have total : l.state.toNat =
      (if ∃ phase ∈ l.calls, phase = .writing ∨ phase = .claimed then 2 ^ 31 else 0) + l.calls.count .reading := by
    change _ = _ + l.readers
    split_ifs with some
    · have := owned.mp some
      omega
    · have := mt owned.mpr some
      omega
  refine ⟨total, fun i j writes other => ?_, fun none => ?_⟩
  · rcases other with other | reads
    · -- without the first of the two writers no call would own the bit
      by_contra apart
      have moved : (l.calls.set i .finished).countP Phase.claims + _ = _ := countP_moved writes Phase.claims
      have still : (l.calls.set i .finished)[j]? = some .writing := by
        rw [getElem?_set_ne (Ne.symm apart)]
        exact other
      have positive : 0 < (l.calls.set i .finished).countP Phase.claims :=
        countP_pos_iff.mpr ⟨_, mem_of_getElem? still, rfl⟩
      change _ + 1 = l.writers + 0 at moved
      omega
    · have none := h.alone (mem_of_getElem? writes)
      have positive : 0 < l.readers := countP_pos_iff.mpr ⟨_, mem_of_getElem? reads, rfl⟩
      omega
  · have unread : l.calls.count .reading = 0 := count_eq_zero.mpr fun member => (none _ member).1 rfl
    have unowned : ¬ ∃ phase ∈ l.calls, phase = .writing ∨ phase = .claimed := by
      rintro ⟨phase, member, owns⟩
      exact owns.elim (none phase member).2.1 (none phase member).2.2
    rw [if_neg unowned, unread] at total
    exact UInt32.toNat_inj.mp total

/-- A reader is inside when a writer claims the bit; a second reader is kept out, and the writer gets its guard when
the first has left. -/
def handover : List LockOp :=
  [.call .read, .access 0 false, .access 0 false, .call .write, .access 1 false, .access 1 false, .call .tryRead,
    .access 2 false, .access 1 false, .access 0 false, .access 1 false]

theorem rwlock_accounting_handover : ∃ l, Run lockStep .new handover l ∧
    l.calls = [.finished, .writing, .finished] ∧ l.state.toNat = 2 ^ 31 := by
  have run : Run lockStep .new handover (handover.foldl RwLock.exec .new) :=
    .cons rfl (.cons rfl (.cons rfl (.cons rfl (.cons rfl (.cons rfl (.cons rfl (.cons rfl (.cons rfl (.cons rfl
      (.cons rfl (.nil _)))))))))))
  have calls : (handover.foldl RwLock.exec .new).calls = [.finished, .writing, .finished] := by decide
  refine ⟨_, run, calls, ?_⟩
  rw [(rwlock_accounting run).1, calls]
  decide

end HavyOs.Lock
