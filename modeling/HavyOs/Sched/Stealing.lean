import HavyOs.Lib.Ledger
import HavyOs.Lib.Lists
import HavyOs.Sched.SharedDeque

/-!
# Every element is taken once

The shared deque against the books of a double-ended queue. In the books an element is pushed
when the owner stores `bottom`, and stolen when the thief swaps `top`. The owner pops the last
element when it swaps `top`, and any other one already when it loads `top` after it took `bottom`
back: a thief that is to take the element it goes for has to load `top` after that, and then
finds `bottom` behind it.

Between the two stores of `pop` to `bottom` the queue may reach one further than `bottom`, which
is the `slack` of the phase. A thief that is past its look at `bottom` knows something only as
long as `top` is what it loaded: then the queue is not empty, and the cell it reads, in whichever
buffer, has the front of the queue.
-/

namespace HavyOs.Sched

open Lib OwnerPhase Function List
open WorkStealingDeque (Roomy get_put_self get_put_other grow_get)

variable {α : Type}

/-! ## What holds between the steps -/

/-- How much further than `bottom` the queue reaches. -/
def OwnerPhase.slack : OwnerPhase α → Int
  | .popTop _ | .popSwap _ _ | .popReturn _ _ => 1
  | .popBuffer bottom top | .popGet bottom top _ => if top = bottom then 1 else 0
  | _ => 0

theorem OwnerPhase.slack_range (phase : OwnerPhase α) : 0 ≤ phase.slack ∧ phase.slack ≤ 1 := by
  unfold slack
  repeat' split
  all_goals decide

/-- The element of a `push` in progress. -/
def OwnerPhase.pushing : OwnerPhase α → List α
  | .pushTop value _ | .pushBuffer value _ _ | .pushInit value _ _ | .pushGrow value _ _ _ | .pushPut value _ _
  | .pushBottom value _ => [value]
  | _ => []

theorem OwnerPhase.pushing_idle : (idle : OwnerPhase α).pushing = [] := rfl

variable {phase : ThiefPhase α}

namespace DequeMemory

/-- The buffer at the pointer has the queue, and a cell to spare. -/
structure Backed (m : DequeMemory α) (queue : List α) (pointer : Nat) : Prop where
  known : pointer < m.next
  roomy : Roomy (m.heap pointer) (queue.length + 1)
  cells : ∀ i, i < queue.length → (m.heap pointer).get (m.top + i) = queue[i]?

/-- `push` loaded these indices, and they are no more apart than the buffer allows. -/
structure Loaded (m : DequeMemory α) (bottom top : Int) : Prop where
  owned : bottom = m.bottom
  older : top ≤ m.top
  nonneg : 0 ≤ top
  apart : ∀ pointer, m.buffer = some pointer → bottom - top + 1 ≤ (m.heap pointer).capacity
  unbacked : m.buffer = none → bottom ≤ top

variable (m : DequeMemory α)

/-- `pop` loaded these indices: it goes for the last element, or already holds another one. -/
def Taking (held : List α) (bottom top : Int) : Prop :=
  bottom = m.bottom ∧
    ((top = bottom ∧ top ≤ m.top ∧ held = []) ∨
      (top < bottom ∧ ∃ x, held = [x] ∧ ∀ pointer, m.buffer = some pointer → (m.heap pointer).get bottom = some x))

def moveTop : DequeMemory α := { m with top := m.top + 1 }

@[simp] theorem moveTop_top : m.moveTop.top = m.top + 1 := rfl

@[simp] theorem moveTop_heap : m.moveTop.heap = m.heap := rfl

/-- What the owner knows in a phase; `held` is what it took and did not return yet. -/
def OwnerAt (queue held : List α) : OwnerPhase α → Prop
  | .idle => held = []
  | .pushTop _ bottom => held = [] ∧ bottom = m.bottom
  | .pushBuffer _ bottom top | .pushInit _ bottom top => held = [] ∧ m.Loaded bottom top
  | .pushGrow _ bottom top pointer => held = [] ∧ m.Loaded bottom top ∧ m.buffer = some pointer
  | .pushPut _ bottom pointer =>
    held = [] ∧ bottom = m.bottom ∧ m.buffer = some pointer ∧ queue.length + 2 ≤ (m.heap pointer).capacity
  | .pushBottom value bottom =>
    held = [] ∧ bottom = m.bottom ∧ ∃ pointer, m.buffer = some pointer ∧
      queue.length + 2 ≤ (m.heap pointer).capacity ∧ (m.heap pointer).get bottom = some value
  | .popBottom bottom => held = [] ∧ bottom = m.bottom - 1
  | .popTop bottom => held = [] ∧ bottom = m.bottom
  | .popBuffer bottom top => m.Taking held bottom top ∧ m.buffer ≠ none
  | .popGet bottom top pointer => m.Taking held bottom top ∧ m.buffer = some pointer
  | .popSwap top value => held = [] ∧ top = m.bottom ∧ top ≤ m.top ∧ (m.top = top → value = queue.head?)
  | .popReturn bottom result => bottom = m.bottom + 1 ∧ bottom = m.top ∧ held.map some = result.toList

/-- What a thief knows in a phase. -/
def ThiefAt (queue : List α) : ThiefPhase α → Prop
  | .idle => True
  | .stealBottom top => top ≤ m.top
  | .stealBuffer top => top ≤ m.top ∧ (m.top = top → queue ≠ [])
  | .stealGet top pointer =>
    (pointer < m.next ∧ top ≤ m.top) ∧ (m.top = top → queue ≠ [] ∧ (m.heap pointer).get top = queue.head?)
  | .stealSwap top value => top ≤ m.top ∧ (m.top = top → queue ≠ [] ∧ value = queue.head?)

/-! ## Thieves -/

/-- What a thief knows stays known while `top`, the front of the queue and its cell in all buffers stay. -/
theorem ThiefAt.later {m m' : DequeMemory α} {queue queue' : List α}
    (h : m.ThiefAt queue phase) (top : m.top ≤ m'.top) (next : m.next ≤ m'.next)
    (same : m'.top = m.top → queue ≠ [] → queue'.head? = queue.head? ∧
      ∀ pointer, pointer < m.next → (m'.heap pointer).get m.top = (m.heap pointer).get m.top) :
    m'.ThiefAt queue' phase := by
  have front : m'.top = m.top → queue ≠ [] → queue' ≠ [] := by
    intro still nonempty
    have first := (same still nonempty).1
    rintro rfl
    exact nonempty (head?_eq_none_iff.mp first.symm)
  cases phase with
  | idle => trivial
  | stealBottom t => exact Int.le_trans h top
  | stealBuffer t =>
    refine ⟨Int.le_trans h.1 top, fun now => ?_⟩
    have := h.1
    exact front (by omega) (h.2 (by omega))
  | stealGet t pointer =>
    have older := h.1.2
    refine ⟨⟨Nat.lt_of_lt_of_le h.1.1 next, Int.le_trans older top⟩, fun now => ?_⟩
    have still : m'.top = m.top := by omega
    have was : m.top = t := by omega
    obtain ⟨nonempty, found⟩ := h.2 was
    obtain ⟨first, cells⟩ := same still nonempty
    refine ⟨front still nonempty, ?_⟩
    rw [first, ← found, ← was]
    exact cells pointer h.1.1
  | stealSwap t value =>
    have older := h.1
    refine ⟨Int.le_trans older top, fun now => ?_⟩
    have still : m'.top = m.top := by omega
    obtain ⟨nonempty, found⟩ := h.2 (by omega)
    exact ⟨front still nonempty, found.trans (same still nonempty).1.symm⟩

/-- A thief knows nothing once `top` moved on. -/
theorem ThiefAt.passed {m m' : DequeMemory α} {queue queue' : List α}
    (h : m.ThiefAt queue phase) (top : m.top < m'.top) (next : m.next ≤ m'.next) : m'.ThiefAt queue' phase :=
  h.later (Int.le_of_lt top) next fun still => absurd still (by omega)

end DequeMemory

/-! ## The books -/

namespace SharedDeque

open DequeMemory (moveTop_top moveTop_heap)

/-- The deque is kept as the books say. -/
structure Kept (s : SharedDeque α) (l : Ledger α) (held : List α) : Prop where
  pushed : s.pushed = l.pushed ++ s.owner.pushing
  stolen : s.stolen = l.stolen.map some
  popped : s.popped ++ held.map some = l.popped.map some
  nonneg : 0 ≤ s.top
  range : s.bottom + s.owner.slack = s.top + l.queue.length
  bounded : s.top + l.queue.length ≤ l.pushed.length
  unbacked : s.buffer = none → l.queue = []
  backed : ∀ pointer, s.buffer = some pointer → s.Backed l.queue pointer
  owner : s.OwnerAt l.queue held s.owner
  thieves : ∀ thief, s.ThiefAt l.queue (s.thieves thief)

theorem new_kept : (new : SharedDeque α).Kept Ledger.new [] where
  pushed := rfl
  stolen := rfl
  popped := rfl
  nonneg := Int.le_refl 0
  range := rfl
  bounded := Int.le_refl 0
  unbacked _ := rfl
  backed _ none := nomatch none
  owner := rfl
  thieves _ := trivial

variable {s : SharedDeque α} {l : Ledger α} {held : List α} {pointer thief : Nat} {value : α} {bottom : Int}

section

variable (h : s.Kept l held)

include h

theorem Kept.front (buffer : s.buffer = some pointer) (nonempty : l.queue ≠ []) :
    (s.heap pointer).get s.top = l.queue.head? := by
  have cell := (h.backed pointer buffer).cells 0 (length_pos_iff.mpr nonempty)
  rw [Int.natCast_zero, Int.add_zero] at cell
  rw [cell, head?_eq_getElem?]

omit h in
/-- What all thieves know, when one of them goes on. -/
theorem thieves_update {m : DequeMemory α} {queue : List α} {thieves : Nat → ThiefPhase α}
    (others : ∀ other, m.ThiefAt queue (thieves other)) (known : m.ThiefAt queue phase)
    (other : Nat) : m.ThiefAt queue (update thieves thief phase other) := by
  by_cases this : other = thief
  · rw [this, update_self]
    exact known
  · rw [update_of_ne this]
    exact others other

theorem Kept.setThief (known : s.ThiefAt l.queue phase) : (s.setThief thief phase).Kept l held :=
  { h with thieves := thieves_update h.thieves known }

/-- What is known of the owner and of the range in a phase. -/
theorem Kept.at_phase {phase : OwnerPhase α} (here : s.owner = phase) :
    s.OwnerAt l.queue held phase ∧ s.bottom + phase.slack = s.top + l.queue.length := here ▸ ⟨h.owner, h.range⟩

theorem Kept.pushed_at {old phase : OwnerPhase α} (here : s.owner = old)
    (pushing : phase.pushing = old.pushing) : s.pushed = l.pushed ++ phase.pushing := by
  rw [pushing, ← here]
  exact h.pushed

theorem Kept.setOwner {old phase : OwnerPhase α} (here : s.owner = old) (slack : phase.slack = old.slack)
    (pushing : phase.pushing = old.pushing) (known : s.OwnerAt l.queue held phase) :
    (s.setOwner phase).Kept l held := by
  refine { h with pushed := ?_, range := ?_, owner := known }
  · exact h.pushed_at here pushing
  · change s.bottom + phase.slack = _
    rw [slack]
    exact (h.at_phase here).2

/-- The queue without its front, when `top` moved past it. -/
theorem Kept.backed_tail (buffer : s.buffer = some pointer)
    (nonempty : l.queue ≠ []) : s.moveTop.Backed l.queue.tail pointer := by
  obtain ⟨known, roomy, cells⟩ := h.backed pointer buffer
  have length := length_pos_iff.mpr nonempty
  have room := roomy.room
  refine ⟨known, ⟨roomy.power, ?_⟩, fun i small => ?_⟩
  · rw [moveTop_heap, length_tail]
    omega
  · rw [length_tail] at small
    rw [moveTop_top, getElem?_tail, ← cells (i + 1) (by omega)]
    congr 1
    omega

/-- What the owner knows when a thief took the front of the queue. -/
theorem Kept.owner_stolen (nonempty : l.queue ≠ []) : s.moveTop.OwnerAt l.queue.tail held s.owner := by
  obtain ⟨known, range⟩ := h.at_phase rfl
  have length := length_pos_iff.mpr nonempty
  have shorter : l.queue.tail.length = l.queue.length - 1 := length_tail
  have ahead : s.top ≤ s.moveTop.top := Int.le_add_one (Int.le_refl _)
  have loaded : ∀ {bottom top : Int}, s.Loaded bottom top → s.moveTop.Loaded bottom top :=
    fun was => { was with older := Int.le_trans was.older ahead }
  have taking : ∀ {bottom top : Int}, s.Taking held bottom top → s.moveTop.Taking held bottom top := by
    rintro bottom top ⟨own, ⟨last, older, none⟩ | other⟩
    · exact ⟨own, .inl ⟨last, Int.le_trans older ahead, none⟩⟩
    · exact ⟨own, .inr other⟩
  generalize s.owner = phase at known range
  cases phase with
  | idle | pushTop | popBottom | popTop => exact known
  | pushBuffer | pushInit => exact ⟨known.1, loaded known.2⟩
  | pushGrow => exact ⟨known.1, loaded known.2.1, known.2.2⟩
  | pushPut =>
    obtain ⟨none, own, buffer, room⟩ := known
    exact ⟨none, own, buffer, by rw [moveTop_heap]; omega⟩
  | pushBottom =>
    obtain ⟨none, own, pointer, buffer, room, written⟩ := known
    exact ⟨none, own, pointer, buffer, by rw [moveTop_heap]; omega, written⟩
  | popBuffer | popGet => exact ⟨taking known.1, known.2⟩
  | popSwap =>
    obtain ⟨none, own, older, -⟩ := known
    refine ⟨none, own, Int.le_trans older ahead, fun still => ?_⟩
    rw [moveTop_top] at still
    omega
  | popReturn =>
    obtain ⟨own, _, -⟩ := known
    simp only [slack] at range
    omega

/-- A thief takes the front of the queue. -/
theorem Kept.stolen_front {value : Option α} (nonempty : l.queue ≠ [])
    (first : value = l.queue.head?) :
    Kept { s.setThief thief .idle with top := s.top + 1, stolen := s.stolen ++ [value] } l.steal held := by
  have length := length_pos_iff.mpr nonempty
  have shorter : l.queue.tail.length = l.queue.length - 1 := length_tail
  have range := h.range
  have bounded := h.bounded
  exact
    { h with
      stolen := by
        obtain ⟨x, found⟩ := Option.isSome_iff_exists.mp (isSome_head?.mpr nonempty)
        simp [Ledger.steal, h.stolen, first, found]
      nonneg := Int.le_trans h.nonneg (Int.le_add_one (Int.le_refl _))
      range := by
        change s.bottom + s.owner.slack = s.top + 1 + l.queue.tail.length
        omega
      bounded := by
        change s.top + 1 + l.queue.tail.length ≤ l.pushed.length
        omega
      unbacked := fun none => absurd (h.unbacked none) nonempty
      backed := fun pointer buffer => h.backed_tail buffer nonempty
      owner := h.owner_stolen nonempty
      thieves := thieves_update
        (fun other => (h.thieves other).passed (Int.lt_add_one_iff.mpr (Int.le_refl _)) (Nat.le_refl _)) trivial }

theorem Kept.thiefStep (thief : Nat) : ∃ l', (s.thiefStep thief).Kept l' held := by
  have known := h.thieves thief
  unfold SharedDeque.thiefStep
  generalize s.thieves thief = phase at known
  cases phase with
  | idle => exact ⟨l, h⟩
  | stealBottom top =>
    dsimp only
    split
    · exact ⟨l, h.setThief trivial⟩
    · refine ⟨l, h.setThief ⟨known, fun still empty => ?_⟩⟩
      have range := h.range
      have slack := s.owner.slack_range
      rw [empty, length_nil] at range
      omega
  | stealBuffer top =>
    cases buffer : s.buffer with
    | none => exact ⟨l, h.setThief trivial⟩
    | some pointer =>
      refine ⟨l, h.setThief ⟨⟨(h.backed pointer buffer).known, known.1⟩, fun still => ⟨known.2 still, ?_⟩⟩⟩
      rw [← still]
      exact h.front buffer (known.2 still)
  | stealGet top pointer => exact ⟨l, h.setThief ⟨known.1.2, known.2⟩⟩
  | stealSwap top value =>
    dsimp only
    split_ifs with still
    · obtain ⟨nonempty, first⟩ := known.2 still
      rw [← still]
      exact ⟨l.steal, h.stolen_front nonempty first⟩
    · exact ⟨l, h.setThief trivial⟩

/-! ## The owner -/

/-- What the thieves know is about buffers they can know, at the front of the queue. -/
theorem Kept.thieves_frame {m : DequeMemory α} (top : m.top = s.top) (next : s.next ≤ m.next)
    (front : l.queue ≠ [] → ∀ pointer, pointer < s.next → (m.heap pointer).get s.top = (s.heap pointer).get s.top)
    (thief : Nat) : m.ThiefAt l.queue (s.thieves thief) :=
  (h.thieves thief).later (Int.le_of_eq top.symm) next fun _ nonempty => ⟨rfl, front nonempty⟩

theorem Kept.loaded (slack : s.owner.slack = 0) : s.Loaded s.bottom s.top := by
  have range := h.range
  refine ⟨rfl, Int.le_refl _, h.nonneg, fun pointer buffer => ?_, fun none => ?_⟩
  · have room := (h.backed pointer buffer).roomy.room
    omega
  · rw [h.unbacked none, length_nil] at range
    omega

omit h in
theorem heap_setBuffer (s : SharedDeque α) (pointer : Nat) (buffer : Buffer α) :
    (s.setBuffer pointer buffer).heap pointer = buffer := update_self ..

omit h in
theorem heap_setBuffer_of_ne (s : SharedDeque α) {other : Nat} (different : other ≠ pointer) (buffer : Buffer α) :
    (s.setBuffer pointer buffer).heap other = s.heap other := update_of_ne different _ _

/-- A new buffer that has the queue is published. -/
theorem Kept.publish {buffer : Buffer α} {phase : OwnerPhase α} (roomy : Roomy buffer (l.queue.length + 1))
    (cells : ∀ i, i < l.queue.length → buffer.get (s.top + i) = l.queue[i]?) {old : OwnerPhase α} (here : s.owner = old)
    (slack : phase.slack = old.slack) (pushing : phase.pushing = old.pushing)
    (known : (s.publish buffer).OwnerAt l.queue held phase) : ((s.publish buffer).setOwner phase).Kept l held := by
  have fresh : (s.publish buffer).heap s.next = buffer := s.heap_setBuffer s.next buffer
  exact
    { h with
      pushed := h.pushed_at here pushing
      range := by
        change s.bottom + phase.slack = _
        rw [slack]
        exact (h.at_phase here).2
      unbacked := nofun
      backed := by
        rintro pointer ⟨⟩
        refine ⟨Nat.lt_succ_self _, ?_, ?_⟩
        · change Roomy ((s.publish buffer).heap s.next) _
          rw [fresh]
          exact roomy
        · change ∀ i, i < l.queue.length → ((s.publish buffer).heap s.next).get (s.top + i) = _
          rw [fresh]
          exact cells
      owner := known
      thieves := by
        refine h.thieves_frame rfl (Nat.le_succ _) fun _ pointer older => ?_
        change ((s.setBuffer s.next buffer).heap pointer).get s.top = _
        rw [heap_setBuffer_of_ne s (Nat.ne_of_lt older)] }

/-- `ensure_buffer` publishes the first buffer. -/
theorem Kept.init {top : Int} (phase : s.owner = .pushInit value bottom top)
    (none : s.buffer = none) :
    ((s.publish (Buffer.new initialCapacity)).setOwner (.pushGrow value bottom top s.next)).Kept l held := by
  obtain ⟨⟨empty, loaded⟩, -⟩ := h.at_phase phase
  have nothing := h.unbacked none
  have roomy : Roomy (Buffer.new initialCapacity : Buffer α) 32 := ⟨⟨5, rfl⟩, Nat.le_refl _⟩
  refine h.publish ⟨roomy.power, ?_⟩ ?_ phase rfl rfl ⟨empty, { loaded with apart := ?_, unbacked := ?_ }, rfl⟩
  · rw [nothing]
    exact (by decide : 1 ≤ initialCapacity)
  · rw [nothing]
    exact fun i small => absurd small (Nat.not_lt_zero i)
  · rintro _ ⟨⟩
    change _ ≤ (((s.setBuffer s.next (Buffer.new initialCapacity)).heap s.next).capacity : Int)
    have ordered := loaded.unbacked none
    have size : (Buffer.new initialCapacity : Buffer α).capacity = 32 := rfl
    rw [heap_setBuffer]
    omega
  · exact nofun

/-- `push` replaces the buffer by a larger one if it is almost full. -/
theorem Kept.grow {top : Int}
    (phase : s.owner = .pushGrow value bottom top pointer) :
    ((s.publish ((s.heap pointer).grow bottom top)).setOwner (.pushPut value bottom s.next)).Kept l held := by
  obtain ⟨⟨empty, loaded, buffer⟩, range⟩ := h.at_phase phase
  obtain ⟨-, roomy, cells⟩ := h.backed pointer buffer
  have grown := roomy.grow bottom top
  have room := grown.room
  have owned := loaded.owned
  have older := loaded.older
  have apart := loaded.apart pointer buffer
  simp only [slack] at range
  refine h.publish ⟨grown.power, by omega⟩ (fun i inside => ?_) phase rfl rfl ⟨empty, owned, rfl, ?_⟩
  · have found := cells i inside
    rw [getElem?_eq_getElem inside] at found ⊢
    have full : Roomy (s.heap pointer) (s.heap pointer).capacity := ⟨roomy.power, Nat.le_refl _⟩
    exact grow_get loaded.nonneg full (by omega) (by omega) (by omega) found
  · change _ ≤ ((s.setBuffer s.next _).heap s.next).capacity
    rw [heap_setBuffer]
    omega

theorem Kept.put (phase : s.owner = .pushPut value bottom pointer) :
    ((s.setBuffer pointer ((s.heap pointer).put bottom value)).setOwner (.pushBottom value bottom)).Kept l held := by
  obtain ⟨⟨empty, owned, buffer, room⟩, range⟩ := h.at_phase phase
  obtain ⟨older, roomy, cells⟩ := h.backed pointer buffer
  simp only [slack] at range
  have behind : bottom = s.top + (l.queue.length : Nat) := by omega
  have spare : Roomy (s.heap pointer) (l.queue.length + 2) := ⟨roomy.power, room⟩
  have kept : ∀ i, i < l.queue.length →
      ((s.heap pointer).put bottom value).get (s.top + i) = (s.heap pointer).get (s.top + i) := by
    intro i inside
    rw [behind]
    exact get_put_other _ _ (spare.cell_ne h.nonneg (by omega) (by omega) (by omega))
  exact
    { h with
      pushed := h.pushed_at phase rfl
      range := by
        change s.bottom + 0 = s.top + _
        omega
      backed := by
        intro other found
        obtain rfl : pointer = other := Option.some.inj (buffer.symm.trans found)
        refine ⟨older, ?_, fun i inside => ?_⟩
        · change Roomy ((s.setBuffer pointer _).heap pointer) _
          rw [heap_setBuffer]
          exact roomy.put _ _
        · change ((s.setBuffer pointer _).heap pointer).get (s.top + i) = _
          rw [heap_setBuffer, kept i inside]
          exact cells i inside
      owner := by
        refine ⟨empty, owned, pointer, buffer, ?_, ?_⟩
        · change _ ≤ ((s.setBuffer pointer _).heap pointer).capacity
          rw [heap_setBuffer]
          exact room
        · change ((s.setBuffer pointer _).heap pointer).get _ = _
          rw [heap_setBuffer]
          exact get_put_self _ _ _
      thieves := by
        refine h.thieves_frame rfl (Nat.le_refl _) fun nonempty other _ => ?_
        change ((s.setBuffer pointer _).heap other).get s.top = _
        by_cases this : other = pointer
        · have front := kept 0 (length_pos_iff.mpr nonempty)
          rw [Int.natCast_zero, Int.add_zero] at front
          rw [this, heap_setBuffer, front]
        · rw [heap_setBuffer_of_ne s this] }

/-- `push` stores `bottom`: the element is in the queue. -/
theorem Kept.pushed_last (phase : s.owner = .pushBottom value bottom) :
    Kept { s with bottom := bottom + 1, owner := .idle } (l.push value) held := by
  have bounded := h.bounded
  obtain ⟨⟨empty, _, pointer, buffer, _, written⟩, range⟩ := h.at_phase phase
  simp only [slack] at range
  have longer : (l.queue ++ [value]).length = l.queue.length + 1 := length_append
  have more : (l.pushed ++ [value]).length = l.pushed.length + 1 := length_append
  exact
    { h with
      pushed := by
        rw [h.pushed, phase]
        exact (append_nil _).symm
      range := by
        change bottom + 1 + 0 = s.top + ((l.queue ++ [value]).length : Nat)
        omega
      bounded := by
        change s.top + ((l.queue ++ [value]).length : Nat) ≤ ((l.pushed ++ [value]).length : Nat)
        omega
      unbacked := fun none => nomatch buffer.symm.trans none
      backed := by
        intro other found
        obtain rfl : pointer = other := Option.some.inj (buffer.symm.trans found)
        obtain ⟨older, roomy, cells⟩ := h.backed pointer buffer
        refine ⟨older, ⟨roomy.power, ?_⟩, fun i inside => ?_⟩
        · change (l.queue ++ [value]).length + 1 ≤ (s.heap pointer).capacity
          omega
        · change (s.heap pointer).get (s.top + i) = (l.queue ++ [value])[i]?
          change i < (l.queue ++ [value]).length at inside
          by_cases last : i = l.queue.length
          · have index : s.top + (i : Int) = bottom := by omega
            rw [index, written, last, getElem?_concat_length]
          · rw [getElem?_append_left (by omega)]
            exact cells i (by omega)
      owner := empty
      thieves := by
        intro thief
        refine (h.thieves thief).later (Int.le_refl _) (Nat.le_refl _) fun _ nonempty => ⟨?_, fun _ _ => rfl⟩
        exact head?_append_of_ne_nil _ nonempty }

/-- `pop` takes `bottom` back. -/
theorem Kept.takeBack (phase : s.owner = .popBottom bottom) :
    Kept { s with bottom := bottom, owner := .popTop bottom } l held := by
  obtain ⟨⟨empty, _⟩, range⟩ := h.at_phase phase
  simp only [slack] at range
  exact
    { h with
      pushed := h.pushed_at phase rfl
      range := by
        change bottom + 1 = s.top + _
        omega
      backed := fun pointer buffer => { h.backed pointer buffer with }
      owner := ⟨empty, rfl⟩ }

omit h in
/-- The element at the back is popped in the books, and held by the owner. -/
theorem Kept.popped_more (h : s.Kept l []) {x : α} (last : l.queue.getLast? = some x) :
    s.popped ++ [x].map some = l.pop.popped.map some := by
  have before := h.popped
  rw [map_nil, append_nil] at before
  change s.popped ++ _ = (l.popped ++ l.queue.getLast?.toList).map some
  rw [before, last, map_append]
  rfl

/-- `pop` finds more than one element: the last one is its own from here on. -/
theorem Kept.popped_last (phase : s.owner = .popTop bottom) (several : s.top < bottom) :
    ∃ x, (s.setOwner (.popBuffer bottom s.top)).Kept l.pop [x] := by
  have bounded := h.bounded
  obtain ⟨⟨rfl, owned⟩, range⟩ := h.at_phase phase
  simp only [slack] at range
  have nonempty : l.queue ≠ [] := by
    rintro empty
    rw [empty, length_nil] at range
    omega
  obtain ⟨x, last⟩ : ∃ x, l.queue.getLast? = some x := ⟨_, getLast?_eq_some_getLast nonempty⟩
  have shorter : l.queue.dropLast.length = l.queue.length - 1 := length_dropLast
  refine ⟨x, ?_⟩
  exact
    { h with
      pushed := h.pushed_at phase rfl
      popped := h.popped_more last
      range := by
        change s.bottom + (if s.top = bottom then 1 else 0) = s.top + (l.queue.dropLast.length : Nat)
        omega
      bounded := by
        change s.top + (l.queue.dropLast.length : Nat) ≤ l.pushed.length
        omega
      unbacked := fun none => absurd (h.unbacked none) nonempty
      backed := by
        intro pointer buffer
        obtain ⟨older, roomy, cells⟩ := h.backed pointer buffer
        have room := roomy.room
        refine ⟨older, ⟨roomy.power, ?_⟩, fun i inside => ?_⟩
        · change l.queue.dropLast.length + 1 ≤ (s.heap pointer).capacity
          omega
        · change i < l.queue.dropLast.length at inside
          change (s.heap pointer).get (s.top + i) = l.queue.dropLast[i]?
          rw [cells i (by omega), getElem?_dropLast, if_pos (by omega)]
      owner := by
        refine ⟨⟨owned, .inr ⟨several, x, rfl, fun pointer buffer => ?_⟩⟩, fun none =>
          absurd (h.unbacked none) nonempty⟩
        have cell := (h.backed pointer buffer).cells (l.queue.length - 1) (by omega)
        have index : s.top + ((l.queue.length - 1 : Nat) : Int) = bottom := by omega
        rw [index] at cell
        rw [← last, getLast?_eq_getElem?]
        exact cell
      thieves := by
        intro thief
        refine (h.thieves thief).later (Int.le_refl _) (Nat.le_refl _) fun _ _ => ⟨?_, fun _ _ => rfl⟩
        change l.queue.dropLast.head? = l.queue.head?
        rw [head?_eq_getElem?, head?_eq_getElem?, getElem?_dropLast, if_pos (by omega)] }

/-- `pop` swaps `top`: the only element is its own. -/
theorem Kept.popped_only {value : Option α} (phase : s.owner = .popSwap s.top value) :
    ∃ x, Kept { s with top := s.top + 1, owner := .popReturn (s.top + 1) (some value) } l.pop [x] := by
  have bounded := h.bounded
  have nonneg := h.nonneg
  obtain ⟨⟨rfl, owned, -, first⟩, range⟩ := h.at_phase phase
  simp only [slack] at range
  obtain ⟨x, only⟩ : ∃ x, l.queue = [x] := length_eq_one_iff.mp (by omega)
  have front : value = some x := by
    rw [first rfl, only]
    rfl
  have gone : l.queue.dropLast = [] := by rw [only]; rfl
  refine ⟨x, ?_⟩
  exact
    { h with
      pushed := h.pushed_at phase rfl
      popped := h.popped_more (by rw [only]; rfl)
      nonneg := by
        change 0 ≤ s.top + 1
        omega
      range := by
        change s.bottom + 1 = s.top + 1 + (l.queue.dropLast.length : Nat)
        rw [gone, length_nil]
        omega
      bounded := by
        change s.top + 1 + (l.queue.dropLast.length : Nat) ≤ l.pushed.length
        rw [gone, length_nil]
        omega
      unbacked := fun _ => gone
      backed := by
        intro pointer buffer
        obtain ⟨older, roomy, _⟩ := h.backed pointer buffer
        have room := roomy.room
        change DequeMemory.Backed _ l.queue.dropLast pointer
        rw [gone]
        refine ⟨older, ⟨roomy.power, ?_⟩, fun i inside => absurd inside (Nat.not_lt_zero i)⟩
        exact Nat.le_trans (Nat.succ_le_succ (Nat.zero_le _)) room
      owner := ⟨by rw [owned], rfl, by rw [front]; rfl⟩
      thieves := fun thief => (h.thieves thief).passed (Int.lt_add_one_iff.mpr (Int.le_refl _)) (Nat.le_refl _) }

/-- `pop` stores `bottom` and returns what it took. -/
theorem Kept.returned {result : Option (Option α)}
    (phase : s.owner = .popReturn bottom result) :
    Kept { s with bottom := bottom, owner := .idle, popped := s.popped ++ result.toList } l [] := by
  obtain ⟨⟨_, _, same⟩, range⟩ := h.at_phase phase
  simp only [slack] at range
  exact
    { h with
      pushed := h.pushed_at phase rfl
      popped := by
        rw [map_nil, append_nil, ← same]
        exact h.popped
      range := by
        change bottom + 0 = s.top + _
        omega
      backed := fun pointer buffer => { h.backed pointer buffer with }
      owner := rfl }

omit h in
/-- `pop` returns an element that was its own. -/
theorem Kept.returned_own {x : α} (h : s.Kept l [x]) (slack : s.owner.slack = 0) (none : s.owner.pushing = []) :
    Kept { s with owner := .idle, popped := s.popped ++ [some x] } l [] := by
  have range := h.range
  exact
    { h with
      pushed := by
        change s.pushed = l.pushed ++ []
        rw [h.pushed, none]
      popped := (append_nil _).trans h.popped
      range := by
        change s.bottom + 0 = s.top + _
        omega
      owner := rfl }

theorem Kept.ownerStep : ∃ l' held', s.ownerStep.Kept l' held' := by
  obtain ⟨known, range⟩ := h.at_phase rfl
  unfold SharedDeque.ownerStep
  generalize phase : s.owner = p at known range
  cases p with
  | idle => exact ⟨l, held, h⟩
  | pushTop value bottom =>
    refine ⟨l, held, h.setOwner phase rfl rfl ⟨known.1, ?_⟩⟩
    rw [known.2]
    exact h.loaded (by rw [phase]; rfl)
  | pushBuffer value bottom top =>
    cases buffer : s.buffer with
    | none => exact ⟨l, held, h.setOwner phase rfl rfl known⟩
    | some pointer => exact ⟨l, held, h.setOwner phase rfl rfl ⟨known.1, known.2, buffer⟩⟩
  | pushInit value bottom top =>
    cases buffer : s.buffer with
    | none => exact ⟨l, held, h.init phase buffer⟩
    | some pointer => exact ⟨l, held, h.setOwner phase rfl rfl ⟨known.1, known.2, buffer⟩⟩
  | pushGrow value bottom top pointer =>
    dsimp only
    split
    · exact ⟨l, held, h.grow phase⟩
    · obtain ⟨empty, loaded, buffer⟩ := known
      have owned := loaded.owned
      have older := loaded.older
      simp only [slack] at range
      exact ⟨l, held, h.setOwner phase rfl rfl ⟨empty, owned, buffer, by omega⟩⟩
  | pushPut value bottom pointer => exact ⟨l, held, h.put phase⟩
  | pushBottom value bottom => exact ⟨l.push value, held, h.pushed_last phase⟩
  | popBottom bottom => exact ⟨l, held, h.takeBack phase⟩
  | popTop bottom =>
    obtain ⟨empty, owned⟩ := known
    simp only [slack] at range
    dsimp only
    split_ifs with found
    · by_cases last : s.top = bottom
      · have taking : s.Taking held bottom s.top := ⟨owned, .inl ⟨last, Int.le_refl _, empty⟩⟩
        refine ⟨l, held, h.setOwner phase (if_pos last) rfl ⟨taking, fun none => ?_⟩⟩
        rw [h.unbacked none, length_nil] at range
        omega
      · obtain ⟨x, kept⟩ := h.popped_last phase (by omega)
        exact ⟨l.pop, [x], kept⟩
    · refine ⟨l, held, h.setOwner phase rfl rfl ⟨by omega, rfl, ?_⟩⟩
      rw [empty]
      rfl
  | popBuffer bottom top =>
    cases buffer : s.buffer with
    | none => exact absurd buffer known.2
    | some pointer => exact ⟨l, held, h.setOwner phase rfl rfl ⟨known.1, buffer⟩⟩
  | popGet bottom top pointer =>
    obtain ⟨⟨owned, ⟨last, older, empty⟩ | ⟨several, x, rfl, cell⟩⟩, buffer⟩ := known
    · dsimp only
      rw [if_pos last]
      simp only [slack] at range
      refine ⟨l, held, h.setOwner phase (if_pos last).symm rfl ⟨empty, last.trans owned, older, fun still => ?_⟩⟩
      rw [← last, ← still]
      refine h.front buffer fun none => ?_
      rw [none, length_nil] at range
      omega
    · dsimp only
      rw [if_neg (Int.ne_of_lt several), cell pointer buffer]
      refine ⟨l, [], h.returned_own ?_ (by rw [phase]; rfl)⟩
      rw [phase]
      exact if_neg (Int.ne_of_lt several)
  | popSwap top value =>
    obtain ⟨empty, owned, older, _⟩ := known
    simp only [slack] at range
    dsimp only
    split_ifs with still
    · subst still
      obtain ⟨x, kept⟩ := h.popped_only phase
      exact ⟨l.pop, [x], kept⟩
    · refine ⟨l, held, h.setOwner phase rfl rfl ⟨by rw [owned], by omega, ?_⟩⟩
      rw [empty]
      rfl
  | popReturn bottom result => exact ⟨l, [], h.returned phase⟩

/-! ## Runs -/

/-- `push` is called. -/
theorem Kept.called (value : α) (idle : s.owner = .idle) :
    Kept { s with owner := .pushTop value s.bottom, pushed := s.pushed ++ [value] } l held :=
  { h with
    pushed := by
      change s.pushed ++ [value] = l.pushed ++ [value]
      rw [h.pushed, idle, pushing_idle, append_nil]
    range := (h.at_phase idle).2
    owner := ⟨(h.at_phase idle).1, rfl⟩ }

theorem Kept.step (op : SharedOp α) : ∃ l' held', (s.step op).Kept l' held' := by
  cases op with
  | push value =>
    simp only [SharedDeque.step]
    cases phase : s.owner with
    | idle => exact ⟨l, held, h.called value phase⟩
    | _ => exact ⟨l, held, h⟩
  | pop =>
    simp only [SharedDeque.step]
    cases phase : s.owner with
    | idle => exact ⟨l, held, h.setOwner phase rfl rfl ⟨(h.at_phase phase).1, rfl⟩⟩
    | _ => exact ⟨l, held, h⟩
  | owner => exact h.ownerStep
  | steal thief =>
    simp only [SharedDeque.step]
    cases s.thieves thief with
    | idle => exact ⟨l, held, h.setThief (Int.le_refl _)⟩
    | _ => exact ⟨l, held, h⟩
  | thief thief =>
    obtain ⟨l', kept⟩ := h.thiefStep thief
    exact ⟨l', held, kept⟩

omit h in
theorem run_kept (ops : List (SharedOp α)) : ∃ l held, (run ops).Kept l held :=
  foldlRecOn (motive := fun s => ∃ l held, s.Kept l held) ops step ⟨Ledger.new, [], new_kept⟩
    fun _ ⟨_, _, kept⟩ op _ => kept.step op

/-- While the owner is in no call, the slots are the queue. -/
theorem Kept.slots_eq (idle : s.owner = .idle) : s.slots = l.queue.map some := by
  have range := (h.at_phase idle).2
  simp only [slack] at range
  have size : s.len = l.queue.length := by
    unfold len
    split <;> omega
  rw [slots, size]
  apply ext_getElem?
  intro i
  by_cases inside : i < l.queue.length
  · cases buffer : s.buffer with
    | none =>
      rw [h.unbacked buffer] at inside
      exact absurd inside (Nat.not_lt_zero i)
    | some pointer =>
      have cell := (h.backed pointer buffer).cells i inside
      simp [inside, cell]
  · simp [inside]

end

end SharedDeque

/-! ## Returning -/

/-- How many steps the owner has left in its call, at most. -/
def OwnerPhase.left : OwnerPhase α → Nat
  | .idle => 0
  | .pushBottom _ _ | .popReturn _ _ => 1
  | .pushPut _ _ _ | .popSwap _ _ => 2
  | .pushGrow _ _ _ _ | .popGet _ _ _ => 3
  | .pushInit _ _ _ | .popBuffer _ _ => 4
  | .pushBuffer _ _ _ | .popTop _ => 5
  | .pushTop _ _ | .popBottom _ => 6

def ThiefPhase.left : ThiefPhase α → Nat
  | .idle => 0
  | .stealSwap _ _ => 1
  | .stealGet _ _ => 2
  | .stealBuffer _ => 3
  | .stealBottom _ => 4

theorem OwnerPhase.left_range (phase : OwnerPhase α) : phase.left ≤ 6 ∧ (phase.left = 0 → phase = .idle) := by
  cases phase <;> simp [left]

theorem ThiefPhase.left_range (phase : ThiefPhase α) : phase.left ≤ 4 ∧ (phase.left = 0 → phase = .idle) := by
  cases phase <;> simp [left]

namespace SharedDeque

theorem left_ownerStep (s : SharedDeque α) (busy : s.owner.left ≠ 0) : s.ownerStep.owner.left + 1 ≤ s.owner.left := by
  unfold ownerStep
  generalize s.owner = phase at busy ⊢
  cases phase with
  | idle => exact absurd rfl busy
  | _ =>
    dsimp only
    repeat' split
    all_goals simp [OwnerPhase.left, setOwner]

theorem owner_thiefStep (s : SharedDeque α) (thief : Nat) : (s.thiefStep thief).owner = s.owner := by
  unfold thiefStep
  repeat' split
  all_goals rfl

theorem thieves_ownerStep (s : SharedDeque α) : s.ownerStep.thieves = s.thieves := by
  unfold ownerStep
  repeat' split
  all_goals rfl

/-- The owner comes closer to the end of its call by its own steps, and no other step takes it away from there. -/
theorem left_owner_step (s : SharedDeque α) (op : SharedOp α) (busy : s.owner.left ≠ 0) :
    (s.step op).owner.left + (if isOwner op then 1 else 0) ≤ s.owner.left := by
  cases op with
  | owner => exact left_ownerStep s busy
  | push value | pop =>
    simp only [step]
    split
    · rename_i idle
      rw [idle] at busy
      exact absurd rfl busy
    · exact Nat.le_refl _
  | steal thief =>
    simp only [step]
    split <;> exact Nat.le_refl _
  | thief thief => exact Nat.le_of_eq (congrArg OwnerPhase.left (owner_thiefStep s thief))

theorem left_thiefStep (s : SharedDeque α) (thief : Nat) (busy : (s.thieves thief).left ≠ 0) :
    ((s.thiefStep thief).thieves thief).left + 1 ≤ (s.thieves thief).left := by
  unfold thiefStep
  cases phase : s.thieves thief with
  | idle =>
    rw [phase] at busy
    exact absurd rfl busy
  | _ =>
    dsimp only
    repeat' split
    all_goals simp [ThiefPhase.left, setThief]

theorem thieves_thiefStep (s : SharedDeque α) {thief other : Nat} (apart : thief ≠ other) :
    (s.thiefStep other).thieves thief = s.thieves thief := by
  unfold thiefStep
  repeat' split
  all_goals simp [setThief, update_of_ne apart]

theorem left_thief_step (thief : Nat) (s : SharedDeque α) (op : SharedOp α) (busy : (s.thieves thief).left ≠ 0) :
    ((s.step op).thieves thief).left + (if isThief thief op then 1 else 0) ≤ (s.thieves thief).left := by
  cases op with
  | thief other =>
    by_cases same : thief = other
    · subst same
      simpa [isThief, step] using left_thiefStep s thief busy
    · simp [step, thieves_thiefStep s same, isThief, Ne.symm same]
  | steal other =>
    simp only [step]
    split
    · rename_i idle
      by_cases same : thief = other
      · rw [same, idle] at busy
        exact absurd rfl busy
      · simp [setThief, update_of_ne same, isThief]
    · exact Nat.le_refl _
  | push value | pop =>
    simp only [step]
    split <;> exact Nat.le_refl _
  | owner => exact Nat.le_of_eq (congrArg (fun thieves => (thieves thief).left) (thieves_ownerStep s))

/-- **The shared deque.** However the calls of the owner and of the thieves interleave, each pushed element is returned
at most once and nothing else is, the thieves return elements in the order of the pushes, and while the owner is in no
call what was not returned is in the slots from `top` to `bottom`. The indices stay within the number of pushes. Every
call returns: six steps of the owner end its call and four of a thief its own, whatever the others do meanwhile. -/
theorem shared_deque_linear (ops : List (SharedOp α)) : let s := run ops
    (s.popped ++ s.stolen).Subperm (s.pushed.map some) ∧
      s.stolen.Sublist (s.pushed.map some) ∧
      (s.owner = .idle → (s.popped ++ s.stolen ++ s.slots).Perm (s.pushed.map some)) ∧
      (0 ≤ s.top ∧ s.top ≤ s.pushed.length) ∧ (-1 ≤ s.bottom ∧ s.bottom ≤ s.pushed.length) ∧
      (∀ later, 6 ≤ countP isOwner later → ∃ n, (run (ops ++ later.take n)).owner = .idle) ∧
      ∀ thief later, 4 ≤ countP (isThief thief) later → ∃ n, (run (ops ++ later.take n)).thieves thief = .idle := by
  intro s
  obtain ⟨l, held, kept⟩ : ∃ l held, s.Kept l held := run_kept ops
  have range := kept.range
  have bounded := kept.bounded
  have nonneg := kept.nonneg
  have called : (l.pushed.map some).Sublist (s.pushed.map some) := by
    rw [kept.pushed]
    exact (sublist_append_left _ _).map some
  have count : l.pushed.length ≤ s.pushed.length := by simpa using called.length_le
  rw [kept.stolen]
  refine ⟨?_, (((sublist_append_left _ _).trans l.order).map some).trans called, fun idle => ?_, ⟨nonneg, by omega⟩, ?_,
    fun later enough => ?_, fun thief later enough => ?_⟩
  · -- what the owner holds is in the books, and not returned yet
    have returned : s.popped.Sublist (l.popped.map some) := by
      rw [← kept.popped]
      exact sublist_append_left _ _
    have taken := l.taken.map (Option.some_injective α)
    rw [map_append] at taken
    exact ((returned.append_right _).subperm.trans taken).trans called.subperm
  · have known := kept.owner
    have popped := kept.popped
    rw [idle] at known
    rw [known, map_nil, append_nil] at popped
    rw [popped, kept.slots_eq idle, kept.pushed, idle, pushing_idle, append_nil, ← map_append, ← map_append]
    exact l.rest.map some
  · have slack := s.owner.slack_range
    omega
  · have bound := s.owner.left_range.1
    obtain ⟨n, done⟩ := exists_take_foldl_eq_zero later left_owner_step (s := s) (by omega)
    exact ⟨n, by rw [run, foldl_append]; exact (OwnerPhase.left_range _).2 done⟩
  · have bound := (s.thieves thief).left_range.1
    obtain ⟨n, done⟩ := exists_take_foldl_eq_zero later (left_thief_step thief) (s := s) (by omega)
    exact ⟨n, by rw [run, foldl_append]; exact (ThiefPhase.left_range _).2 done⟩

-- a thief that read the only element swaps `top` before the owner does
example :
    let s := run (flatten [[.push 7], replicate 6 .owner, [.steal 0], replicate 3 (.thief 0),
      [.pop], replicate 4 .owner, [.thief 0], replicate 2 .owner])
    s.stolen = [some 7] ∧ s.popped = [] ∧ s.slots = [] := by
  decide

end SharedDeque

end HavyOs.Sched
