import HavyOs.Fs.Traffic

/-!
# Writing a file

`write_file` takes fresh blocks from the bitmap, links them into a chain and puts the
entry into the directory, all through the cache. `Taken` is what the loop leaves of the
rest whether it ends or runs out of blocks; `Grown` adds that the new chain holds the
data. The old chain of an overwritten file is left alone.
-/

namespace HavyOs.Fs

open HavyOs.Lib CacheMem Function List FsMem

/-- The state in which the filesystem is called: the cache is coherent, the device has no
errors, and the sectors in front of the data area are marked. -/
structure Ready (m : FsMem) : Prop where
  coherent : m.mem.Coherent
  reliable : m.dev.Reliable
  reserved : ∀ k, k < secDataStart → marked m.fs.bitmapCache k = true

def blocksFor (length : Nat) : Nat := (length + 507) / 508

/-- The block in front of the chain, if there is one. -/
def before (prev : UInt32) : List Nat := if prev = 0 then [] else [prev.toNat]

def sectors (blocks : List UInt32) : List Nat := blocks.map UInt32.toNat

@[simp] theorem before_zero : before 0 = [] := rfl

variable {prev : UInt32} {s : Nat} {blocks : List UInt32} {m m' m₁ : FsMem}

theorem mem_before : s ∈ before prev ↔ prev ≠ 0 ∧ s = prev.toNat := by
  unfold before
  split <;> simp_all

theorem mem_sectors : s ∈ sectors blocks ↔ ∃ b ∈ blocks, b.toNat = s := by
  simp [sectors]

/-- The blocks `blocks` were free and are marked now. -/
structure Reserved (blocks : List UInt32) (fs fs' : FileSystemState) : Prop where
  fresh : ∀ b ∈ blocks, b.toNat < 4096 ∧ marked fs.bitmapCache b.toNat = false
  marks : ∀ k, marked fs'.bitmapCache k = true ↔ marked fs.bitmapCache k = true ∨ k ∈ sectors blocks
  free : freeCount fs'.bitmapCache + blocks.length = freeCount fs.bitmapCache
  dirty : fs'.bitmapDirty = (fs.bitmapDirty || !blocks.isEmpty)

/-- The blocks `blocks` were taken from the bitmap and written, and `prev` linked to them. -/
structure Taken (prev : UInt32) (blocks : List UInt32) (m m' : FsMem) : Prop extends Reserved blocks m.fs m'.fs where
  nodup : blocks.Nodup
  view : ∀ s, s ∉ before prev → s ∉ sectors blocks → m'.view s = m.view s
  traffic : Traffic (before prev ++ sectors blocks) (before prev ++ sectors blocks) m.mem m'.mem

/-- A block after it was linked to the chain `blocks`. -/
def linkTo (buf : Block) : List UInt32 → Block
  | [] => buf
  | next :: _ => patch buf 0 (toLeBytes next)

/-- The chain `blocks` holds `data`, and `prev` is linked to it. -/
structure Grown (data : List UInt8) (prev : UInt32) (blocks : List UInt32) (m m' : FsMem) : Prop
    extends Taken prev blocks m m' where
  count : blocks.length = blocksFor data.length
  linked : Linked m'.view (blocks.headD 0) blocks
  data : (contents m'.view blocks).take data.length = data
  link : prev ≠ 0 → m'.view prev.toNat = linkTo (m.view prev.toNat) blocks

theorem Taken.ready (h : Taken prev blocks m m') (ready : Ready m) : Ready m' :=
  ⟨h.traffic.coherent, h.traffic.reliable ready.reliable,
    fun k small => (h.marks k).mpr (.inl (ready.reserved k small))⟩

theorem Taken.inData (h : Taken prev blocks m m') (ready : Ready m)
    (member : s ∈ sectors blocks) : secDataStart ≤ s := by
  obtain ⟨b, inside, rfl⟩ := mem_sectors.mp member
  by_contra low
  have := ready.reserved b.toNat (by omega)
  rw [(h.fresh b inside).2] at this
  cases this

theorem Taken.nil (h : m.mem.Coherent) (prev : UInt32) : Taken prev [] m m := by
  refine ⟨⟨by simp, by simp [sectors], Nat.add_zero _, by simp⟩, by simp, fun _ _ _ => rfl, ?_⟩
  refine (Traffic.refl h).trans (Traffic.refl h) (fun _ _ => rfl) ?_ ?_ ?_ <;> simp

theorem Taken.cons {current : UInt32} {rest : List UInt32} {a b c : FsMem} (h : Taken prev [current] a b)
    (k : Taken current rest b c) : Taken prev (current :: rest) a c := by
  have head := h.fresh current (by simp)
  have split : ∀ s, s ∈ sectors (current :: rest) ↔ s = current.toNat ∨ s ∈ sectors rest := by simp [sectors]
  have one : ∀ s, s ∈ sectors [current] ↔ s = current.toNat := by simp [sectors]
  have taken : marked b.fs.bitmapCache current.toNat = true := (h.marks _).mpr (Or.inr ((one _).mpr rfl))
  have notLater : ∀ r ∈ rest, r ≠ current := by
    intro r member same
    have clear := (k.fresh r member).2
    rw [same, taken] at clear
    cases clear
  have view : ∀ s, s ∉ before prev ++ sectors (current :: rest) → b.view s = a.view s := by
    intro s outside
    simp only [mem_append, not_or, split] at outside
    exact h.view s outside.1 (by rw [one]; exact outside.2.1)
  refine ⟨⟨fun r member => ?_, fun s => ?_, ?_, ?_⟩, ?_, fun s notPrev notHere => ?_, ?_⟩
  · rcases mem_cons.mp member with rfl | later
    · exact head
    · refine ⟨(k.fresh r later).1, Bool.eq_false_iff.mpr fun marked => ?_⟩
      have := (h.marks r.toNat).mpr (Or.inl marked)
      rw [(k.fresh r later).2] at this
      cases this
  · rw [k.marks, h.marks, one, split, or_assoc]
  · have first := h.free
    have second := k.free
    simp only [length_cons, length_nil] at first ⊢
    omega
  · rw [k.dirty, h.dirty]
    simp
  · exact nodup_cons.mpr ⟨fun member => notLater current member rfl, k.nodup⟩
  · rw [split, not_or] at notHere
    have passed : s ∉ before current := fun member => notHere.1 (mem_before.mp member).2
    rw [k.view s passed notHere.2]
    exact view s (by simp only [mem_append, not_or, split]; exact ⟨notPrev, notHere⟩)
  · refine h.traffic.trans k.traffic view ?_ ?_ ?_
    all_goals
      intro s member
      simp only [mem_append, split, one, mem_before] at member ⊢
      tauto

/-- The block written in one round, whether it was linked further or not. -/
theorem chunk_block {bytes : List UInt8} (fits : bytes.length ≤ 508) (rest : List UInt32) :
    nextOf (linkTo (patch zeroBlock 4 bytes) rest) = rest.headD 0 ∧
      (payload (linkTo (patch zeroBlock 4 bytes) rest)).take bytes.length = bytes := by
  have data : (payload (patch zeroBlock 4 bytes)).take bytes.length = bytes := by
    have cut :
        (payload (patch zeroBlock 4 bytes)).take bytes.length = slice (patch zeroBlock 4 bytes) 4 bytes.length := by
      rw [payload, slice, take_take, Nat.min_eq_left fits, slice]
    rw [cut]
    exact slice_patch_self zeroBlock (by omega)
  cases rest with
  | nil =>
    refine ⟨?_, data⟩
    rw [linkTo, nextOf, slice_patch_apart zeroBlock (by decide) (Or.inl (by decide))]
    decide
  | cons next _ =>
    constructor
    · have whole :
        slice (patch (patch zeroBlock 4 bytes) 0 (toLeBytes next)) 0 (toLeBytes next).length = toLeBytes next :=
        slice_patch_self _ (by simp)
      rw [linkTo, nextOf, headD_cons]
      rw [toLeBytes_length] at whole
      rw [whole, fromLeBytes_toLeBytes]
    · rw [linkTo, payload, slice_patch_apart _ (by decide) (Or.inr (by simp))]
      exact data

/-- A round in front of a chain that was grown behind its block. -/
theorem Grown.prepend {remaining : List UInt8} {current : UInt32} {rest : List UInt32}
    (grown : Grown (remaining.drop (min remaining.length 508)) current rest m₁ m') (taken : Taken prev [current] m m₁)
    (nonzero : current ≠ 0)
    (here : m₁.view current.toNat = patch zeroBlock 4 (remaining.take (min remaining.length 508)))
    (linked : prev ≠ 0 → m₁.view prev.toNat = patch (m.view prev.toNat) 0 (toLeBytes current))
    (used : prev ≠ 0 → marked m.fs.bitmapCache prev.toNat = true) (more : remaining ≠ []) :
    Grown remaining prev (current :: rest) m m' := by
  have positive := length_pos_iff.mpr more
  have size : (remaining.take (min remaining.length 508)).length = min remaining.length 508 := by
    rw [length_take]
    omega
  have count := grown.count
  rw [length_drop, blocksFor] at count
  obtain ⟨next, data⟩ := chunk_block (by omega : (remaining.take (min remaining.length 508)).length ≤ 508) rest
  rw [← here, ← grown.link nonzero] at next data
  refine ⟨taken.cons grown.toTaken, ?_, ⟨rfl, nonzero, ?_⟩, ?_, fun inChain => ?_⟩
  · rw [length_cons, blocksFor]
    omega
  · rw [next]
    exact grown.linked
  · have split : contents m'.view (current :: rest) = payload (m'.view current.toNat) ++ contents m'.view rest := rfl
    have first :
        (payload (m'.view current.toNat)).take remaining.length = remaining.take (min remaining.length 508) := by
      rw [← data]
      apply take_eq_take_iff.mpr
      rw [payload_length]
      omega
    have second := grown.data
    rw [length_drop, show remaining.length - min remaining.length 508 = remaining.length - 508 by omega] at second
    rw [split, take_append, payload_length, first, second, take_append_drop]
  · -- neither the block of this round nor the later ones are the block before
    have marked₁ := (taken.marks prev.toNat).mpr (Or.inl (used inChain))
    have notHere : prev.toNat ∉ before current := by
      intro member
      have clear := (taken.fresh current (by simp)).2
      rw [← (mem_before.mp member).2, used inChain] at clear
      cases clear
    have notLater : prev.toNat ∉ sectors rest := by
      intro member
      obtain ⟨b, inside, same⟩ := mem_sectors.mp member
      have clear := (grown.fresh b inside).2
      rw [same, marked₁] at clear
      cases clear
    rw [grown.view _ notHere notLater, linked inChain]
    rfl

/-! ## The loop -/

namespace FileSystemState

theorem allocBlock_spec {m : FsMem} {E : String → FsMem → Prop} :
    wp allocBlock
      (fun result m' => match result with
        | none => m' = m ∧ freeCount m.fs.bitmapCache = 0
        | some b => b.toNat < 4096 ∧ marked m.fs.bitmapCache b.toNat = false ∧
            m' = m.marking b.toNat)
      E m := by
  simp only [allocBlock, wp_bind, wp_get]
  cases found : firstFree m.fs.bitmapCache with
  | none => exact ⟨rfl, firstFree_eq_none_iff.mp found⟩
  | some k =>
    obtain ⟨bound, clear, -⟩ := firstFree_some found
    have exact_k : (UInt32.ofNat k).toNat = k := by
      exact Nat.mod_eq_of_lt (by omega)
    simp only [wp_bind, wp_pure]
    rw [exact_k]
    exact ⟨bound, clear, rfl⟩

/-- Link and write of the block just allocated: the round takes `current`, which holds `buf`. -/
theorem appendBlock_spec {m : FsMem} (ready : Ready m) {prev current : UInt32}
    (used : prev ≠ 0 → marked m.fs.bitmapCache prev.toNat = true) (bound : current.toNat < 4096)
    (clear : marked m.fs.bitmapCache current.toNat = false) (buf : Block) {E : String → FsMem → Prop} :
    wp (appendBlock prev current buf)
      (fun _ m' => Taken prev [current] m m' ∧ m'.view current.toNat = buf ∧
        (prev ≠ 0 → m'.view prev.toNat = patch (m.view prev.toNat) 0 (toLeBytes current)))
      E (m.marking current.toNat) := by
  have start : m.mem.Coherent := ready.coherent
  -- what the two writes leave, from the view and the traffic of the first
  have finish : ∀ (m₁ : FsMem) (mem : CacheMem), m₁.fs = { (m.marking current.toNat).fs with cache := m₁.fs.cache } →
      (∀ s, s ∉ before prev → m₁.view s = m.view s) → mem.view = update m₁.view current.toNat buf →
      Traffic (before prev ++ sectors [current]) (before prev ++ sectors [current]) m.mem mem →
      Taken prev [current] m (m₁.setMem mem) := by
    intro m₁ mem bitmap other view traffic
    have marks : (m₁.setMem mem).fs.bitmapCache = mark m.fs.bitmapCache current.toNat := by
      rw [bitmapCache_setMem, bitmap]
      rfl
    refine ⟨⟨by simpa using ⟨bound, clear⟩, fun k => ?_, ?_, by rw [bitmapDirty_setMem, bitmap]; simp [marking]⟩,
      by simp, ?_, traffic⟩
    · rw [marks, marked_mark _ (by omega)]
      simp [sectors]
    · rw [marks]
      exact freeCount_mark (by omega) clear
    · intro s notPrev notHere
      have different : s ≠ current.toNat := by simpa [sectors] using notHere
      rw [FsMem.view, mem_setMem, view, update_of_ne different, other s notPrev]
  rw [appendBlock, wp_bind]
  by_cases first : prev = 0
  · subst first
    simp only [onCache, wp_zoom]
    apply wp_imp (BufferCache.write_reliable start ready.reliable current.toNat buf)
    rintro _ mem ⟨view, traffic⟩
    have taken := finish (m.marking current.toNat) mem rfl (fun _ _ => rfl) view (by
      refine (Traffic.refl start).trans traffic (fun _ _ => rfl) ?_ ?_ ?_ <;> simp [sectors])
    refine ⟨taken, ?_, fun absurd => (absurd rfl).elim⟩
    rw [FsMem.view, mem_setMem, view, update_self]
  · have nonzero : (prev != 0) = true := by simpa using first
    have here : before prev = [prev.toNat] := if_neg first
    have apart : prev.toNat ≠ current.toNat := by
      intro same
      have := used first
      rw [same, clear] at this
      cases this
    simp only [nonzero, if_true, linkBlockCached, onCache, wp_zoom]
    apply wp_imp (BufferCache.modifyBlock_spec start ready.reliable prev.toNat _)
    rintro _ mem₁ ⟨view₁, traffic₁⟩
    apply wp_imp (BufferCache.write_reliable traffic₁.coherent (traffic₁.reliable ready.reliable) current.toNat buf)
    rintro _ mem₂ ⟨view₂, traffic₂⟩
    have other : ∀ s, s ∉ before prev → ((m.marking current.toNat).setMem mem₁).view s = m.view s := by
      intro s notPrev
      have different : s ≠ prev.toNat := by simpa [here] using notPrev
      rw [FsMem.view, mem_setMem, view₁, update_of_ne different]
      rfl
    have taken := finish ((m.marking current.toNat).setMem mem₁) mem₂ rfl other view₂ (by
      refine traffic₁.trans traffic₂ (fun s outside => other s ?_) ?_ ?_ ?_ <;> simp_all [sectors])
    refine ⟨taken, ?_, fun _ => ?_⟩
    · rw [FsMem.view, mem_setMem, view₂, update_self]
    · rw [FsMem.view, mem_setMem, view₂, update_of_ne apart, view₁, update_self]
      rfl

/-- **The loop.** It ends with a chain that holds the data, or with every block taken. -/
theorem writeChain_spec (remaining : List UInt8) : ∀ {m : FsMem} (_ : Ready m) (head prev : UInt32)
    (_ : prev ≠ 0 → marked m.fs.bitmapCache prev.toNat = true),
    wp (writeChain remaining head prev)
      (fun head' m' => ∃ blocks, Grown remaining prev blocks m m' ∧ head' = if head = 0 then blocks.headD 0 else head)
      (fun e m' => e = "Disk full" ∧ freeCount m.fs.bitmapCache < blocksFor remaining.length ∧
        freeCount m'.fs.bitmapCache = 0 ∧ ∃ blocks, Taken prev blocks m m')
      m := by
  induction length : remaining.length using Nat.strong_induction_on generalizing remaining with
  | _ size ih =>
  intro m ready head prev used
  rw [writeChain]
  by_cases done : remaining = []
  · subst done
    refine ⟨[], ⟨Taken.nil ready.coherent prev, rfl, rfl, rfl, fun _ => rfl⟩, ?_⟩
    by_cases zero : head = 0 <;> simp
  · have positive := length_pos_iff.mpr done
    rw [dif_neg done, wp_bind]
    apply wp_imp allocBlock_spec
    intro result m₀ allocated
    cases result with
    | none =>
      obtain ⟨rfl, full⟩ := allocated
      refine ⟨rfl, ?_, full, [], Taken.nil ready.coherent prev⟩
      rw [blocksFor]
      omega
    | some current =>
      obtain ⟨bound, clear, rfl⟩ := allocated
      have nonzero : current ≠ 0 := by
        rintro rfl
        have := ready.reserved 0 (by decide)
        rw [show (0 : UInt32).toNat = 0 from rfl] at clear
        rw [clear] at this
        cases this
      rw [wp_bind]
      apply wp_imp (appendBlock_spec ready used bound clear _)
      rintro _ m₁ ⟨taken, here, linked⟩
      have shorter : (remaining.drop (min remaining.length 508)).length < size := by
        rw [length_drop]
        omega
      have ready₁ := taken.ready ready
      have used₁ : marked m₁.fs.bitmapCache current.toNat = true := (taken.marks _).mpr (Or.inr (by simp [sectors]))
      apply wp_mono (ih _ shorter _ rfl ready₁ _ current fun _ => used₁)
      · rintro head' m' ⟨rest, grown, rfl⟩
        refine ⟨current :: rest, grown.prepend taken nonzero here linked used done, ?_⟩
        by_cases zero : head = 0 <;> simp [zero, nonzero]
      · rintro e m' ⟨rfl, short, full, rest, more⟩
        refine ⟨rfl, ?_, full, current :: rest, taken.cons more⟩
        have free := taken.free
        rw [length_drop] at short
        simp only [blocksFor, length_singleton] at short free ⊢
        omega

end FileSystemState

/-! ## The whole call -/

/-- The place `write_file` selects on the device: the name's, or else the first free one. -/
def selectSlot (disk : Nat → Block) (name : String) : Option Slot :=
  (firstSlot (DirEntry.isNamed name) disk).or (firstSlot (fun e => !e.used) disk)

def newEntry (name : String) (length : Nat) (blocks : List UInt32) : DirEntry :=
  ⟨fixedName (asBytes name), UInt32.ofNat length, blocks.headD 0⟩

/-- Nothing but counters of the device and the cache changed. -/
structure Same (m m' : FsMem) : Prop where
  fs : m'.fs = m.fs
  dev : BlockDev.Untouched m.dev m'.dev

/-- A write that returned: `blocks` hold the data and the entry is at `slot`. -/
structure Written (name : String) (data : List UInt8) (slot : Slot) (blocks : List UInt32) (m m' : FsMem) : Prop
    extends Reserved blocks m.fs m'.fs where
  selected : selectSlot m.disk name = some slot
  count : blocks.length = blocksFor data.length
  inData : ∀ s ∈ sectors blocks, secDataStart ≤ s
  linked : Linked m'.view (newEntry name data.length blocks).head blocks
  holds : fileOf m'.view (newEntry name data.length blocks) blocks = data
  entry : entryOn m'.view slot = newEntry name data.length blocks
  entries : ∀ t, t ≠ slot → entryOn m'.view t = entryOn m.view t
  view : ∀ s, s ∉ sectors blocks → s ≠ slot.sector → m'.view s = m.view s
  traffic : Traffic (sectors blocks) (slot.sector :: sectors blocks) m.mem m'.mem

/-- A write that failed: there was no place, or the blocks ran out after some were taken. -/
inductive WriteFailed (name : String) (data : List UInt8) (m : FsMem) (error : String) (m' : FsMem) : Prop where
  | rootDirFull (message : error = "Root dir full") (none : selectSlot m.disk name = none) (same : Same m m')
  | diskFull (message : error = "Disk full") (slot : selectSlot m.disk name ≠ none)
      (short : freeCount m.fs.bitmapCache < blocksFor data.length) (full : freeCount m'.fs.bitmapCache = 0)
      (blocks : List UInt32) (taken : Taken 0 blocks m m')

theorem Same.traffic (h : Same m m') (coherent : m.mem.Coherent) : Traffic [] [] m.mem m'.mem :=
  Traffic.of_same coherent (congrArg FileSystemState.cache h.fs) h.dev.disk h.dev.fails

theorem Same.view (h : Same m m') : m'.view = m.view := by
  funext s
  have cache : m'.mem.cache = m.mem.cache := congrArg FileSystemState.cache h.fs
  have disk : m'.mem.dev.disk = m.mem.dev.disk := h.dev.disk
  simp [FsMem.view, CacheMem.view, cache, disk]

theorem Same.ready (h : Same m m') (ready : Ready m) : Ready m' := by
  refine ⟨(h.traffic ready.coherent).coherent, h.dev.reliable ready.reliable, ?_⟩
  rw [h.fs]
  exact ready.reserved

theorem Same.taken {m₂ : FsMem} (same : Same m m₁) (ready : Ready m)
    (h : Taken 0 blocks m₁ m₂) : Taken 0 blocks m m₂ := by
  refine ⟨same.fs ▸ h.toReserved, h.nodup, ?_, ?_⟩
  · rw [← same.view]
    exact h.view
  · refine (same.traffic ready.coherent).trans h.traffic (fun s _ => congrFun same.view s) ?_ ?_ ?_ <;> simp

theorem Grown.written {name : String} {data : List UInt8} {slot : Slot} {m₂ : FsMem}
    (grown : Grown data 0 blocks m₁ m₂) (ready : Ready m) (same : Same m m₁)
    (selected : selectSlot m.disk name = some slot) {mem : CacheMem}
    (view : mem.view = update m₂.mem.view slot.sector
      (putEntry (m₂.mem.view slot.sector) slot.index (newEntry name data.length blocks).bytes))
    (traffic : Traffic [] [slot.sector] m₂.mem mem) : Written name data slot blocks m (m₂.setMem mem) := by
  have taken := same.taken ready grown.toTaken
  have stored : (m₂.setMem mem).view = storeAt m₂.view slot (newEntry name data.length blocks).bytes := view
  have outside : ∀ s ∈ sectors blocks, s ≠ slot.sector := by
    intro s member same
    have low := taken.inData ready member
    have high := slot.sector_bounds
    simp only [secDataStart] at low
    omega
  have chain : ∀ b ∈ blocks, (m₂.setMem mem).view b.toNat = m₂.view b.toNat := by
    intro b member
    rw [stored]
    exact storeAt_other _ (outside _ (mem_sectors.mpr ⟨b, member, rfl⟩)) _
  have length : (newEntry name data.length blocks).size.toNat = data.length := by
    have count := grown.count
    have free := grown.free
    have total := freeCount_le m₁.fs.bitmapCache
    rw [blocksFor] at count
    exact Nat.mod_eq_of_lt (by omega)
  have before : ∀ s, s ∉ sectors blocks → m₂.view s = m.view s := fun s outside => taken.view s (by simp) outside
  refine ⟨⟨taken.fresh, taken.marks, taken.free, taken.dirty⟩, selected, grown.count, fun s => taken.inData ready,
    ?_, ?_, ?_,
    ?_, ?_, ?_⟩
  · exact grown.linked.frame chain
  · rw [fileOf_frame _ chain, fileOf, length]
    exact grown.data
  · rw [stored, entryOn_storeAt]
  · intro t other
    rw [stored, entryOn_storeAt_other _ other (DirEntry.bytes_length _), entryOn, entryOn, before]
    intro member
    have low := taken.inData ready member
    have high := t.sector_bounds
    simp only [secDataStart] at low
    omega
  · intro s notBlock notDir
    rw [stored, storeAt_other _ notDir, before s notBlock]
  · refine taken.traffic.trans traffic (fun s outside => before s outside) (by simp) (by simp) fun s member => ?_
    simpa [or_comm] using member

namespace FileSystemState

theorem onDevice_read {α : Type} {x : DevM α} {m : FsMem} {R : α → Prop} {E : String → FsMem → Prop}
    (h : wp x (fun a after => R a ∧ BlockDev.Untouched m.dev after) (fun _ _ => False) m.dev) :
    wp (onDevice x) (fun a m' => R a ∧ Same m m') E m := by
  rw [onDevice, wp_zoom]
  apply wp_mono h
  · rintro a dev ⟨result, untouched⟩
    exact ⟨result, rfl, untouched⟩
  · exact fun _ _ absurd => absurd.elim

theorem select_spec {m : FsMem} (ready : Ready m) (name : String) :
    wp (selectEntry name) (fun slot m' => selectSlot m.disk name = some slot ∧ Same m m')
      (fun e m' => e = "Root dir full" ∧ selectSlot m.disk name = none ∧ Same m m') m := by
  rw [selectEntry, wp_bind]
  apply wp_imp (onDevice_read (findEntryPos_spec ready.reliable name))
  rintro _ _ ⟨rfl, same⟩
  simp only [selectSlot, disk]
  cases firstSlot (DirEntry.isNamed name) m.dev.disk with
  | some slot => exact ⟨rfl, same⟩
  | none =>
    rw [wp_bind]
    apply wp_imp (onDevice_read (findFreeDirEntry_spec (same.ready ready).reliable))
    rintro _ m₂ ⟨rfl, again⟩
    have both : Same m m₂ := ⟨again.fs.trans same.fs, same.dev.trans again.dev⟩
    rw [same.dev.disk]
    cases firstSlot (fun e => !e.used) m.dev.disk with
    | some slot => exact ⟨rfl, both⟩
    | none => exact ⟨rfl, rfl, both⟩

/-- **`write_file`.** It stores the data in fresh blocks and the entry at the place selected
on the device, or fails for want of a place or of blocks. -/
theorem writeFile_spec {m : FsMem} (ready : Ready m) (name : String) (data : List UInt8) :
    wp (writeFile name data) (fun _ m' => ∃ slot blocks, Written name data slot blocks m m') (WriteFailed name data m)
      m := by
  rw [writeFile, wp_bind]
  apply wp_mono (select_spec ready name)
  · rintro slot m₁ ⟨selected, same⟩
    rw [wp_bind]
    apply wp_mono (writeChain_spec data (same.ready ready) 0 0 (by simp))
    · rintro _ m₂ ⟨blocks, grown, rfl⟩
      rw [onCache, wp_zoom]
      have ready₂ := grown.toTaken.ready (same.ready ready)
      apply wp_mono (BufferCache.modifyBlock_spec ready₂.coherent ready₂.reliable slot.sector _) _
        (fun _ _ failure => failure)
      rintro _ _ ⟨view, traffic⟩
      exact ⟨slot, blocks, grown.written ready same selected view traffic⟩
    · rintro e m₂ ⟨rfl, short, full, blocks, taken⟩
      rw [same.fs] at short
      exact .diskFull rfl (by rw [selected]; simp) short full blocks (same.taken ready taken)
  · rintro e m₁ ⟨rfl, none, same⟩
    exact .rootDirFull rfl none same

end FileSystemState

end HavyOs.Fs
