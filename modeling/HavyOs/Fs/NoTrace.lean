import HavyOs.Fs.FileMap

/-!
# Writes that fail

`write_file` marks the blocks of a file one by one and leaves them marked when it fails later: when
the blocks run out, when a dirty block that has to leave the cache is refused by the device, and
when the directory sector cannot be read. What decides is whether the cache can do without the
device once the lookup has found a place.
-/

namespace HavyOs.Fs

open HavyOs.Lib CacheMem FileSystemState BufferCache DirEntry BlockDev List
open UInt32 (ofNat)

/-! ## The cache without the device -/

variable (m : CacheMem) (sector : Nat)

namespace CacheMem

def touched : CacheMem :=
  match m.cache.blocks[sector]? with
  | some entry => m.ticked.put sector { entry with lastAccess := m.counter }
  | none => m.ticked

/-- The entry of `sector`, if there is one, changed by `f`. -/
def changed (f : CacheEntry → CacheEntry) : CacheMem :=
  match m.cache.blocks[sector]? with
  | some entry => m.put sector (f entry)
  | none => m

/-- The state behind `read_mut` of a cached sector, an assignment and `mark_dirty`. -/
def modified (f : Block → Block) : CacheMem :=
  ((m.addHit.touched sector).changed sector fun entry => { entry with data := f entry.data }).changed sector
    fun entry => { entry with dirty := true }

/-- The state behind the second half of `write`. -/
def stored (data : Block) : CacheMem :=
  match m.cache.blocks[sector]? with
  | some entry => (m.put sector { entry with data := data, dirty := true }).touched sector
  | none => m.ticked.put sector ⟨data, true, m.counter⟩

/-- A full cache without its oldest entry. -/
def evicted : CacheMem :=
  if cacheMaxBlocks ≤ m.size then
    match BufferCache.lruSector m.cache.blocks with
    | some oldest => m.drop oldest
    | none => m
  else m

/-- The cache can take `sector` in without the device: it holds the sector already, it is not full, or
its oldest entry is clean. -/
def Takes : Prop :=
  m.Cached sector ∨ m.size < cacheMaxBlocks ∨
    ∀ oldest, BufferCache.lruSector m.cache.blocks = some oldest → ¬ m.Dirty oldest

/-- The state after it has taken `sector` in. -/
def taken (data : Block) : CacheMem :=
  (if m.cache.blocks.contains sector then m else m.evicted).stored sector data

def withDev (dev : BlockDev) : CacheMem := { m with dev := dev }

/-- `f` neither looks at the device nor changes it. -/
def Alone (f : CacheMem → CacheMem) : Prop := ∀ m dev, f (m.withDev dev) = (f m).withDev dev

variable {m : CacheMem} {sector : Nat} {f g : CacheMem → CacheMem}

theorem Alone.dev (alone : Alone f) (m : CacheMem) : (f m).dev = m.dev := by
  have same : f m = (f m).withDev m.dev := alone m m.dev
  rw [same]
  rfl

theorem Alone.comp (first : Alone f) (second : Alone g) : Alone fun m => g (f m) := by
  intro m dev
  dsimp only
  rw [first m dev, second (f m) dev]

theorem alone_touched (sector : Nat) : Alone fun m => m.touched sector := by
  intro m dev
  simp only [touched, withDev]
  cases m.cache.blocks[sector]? <;> rfl

theorem alone_changed (sector : Nat) (h : CacheEntry → CacheEntry) : Alone fun m => m.changed sector h := by
  intro m dev
  simp only [changed, withDev]
  cases m.cache.blocks[sector]? <;> rfl

theorem alone_modified (sector : Nat) (h : Block → Block) : Alone fun m => m.modified sector h :=
  have hit : Alone addHit := fun _ _ => rfl
  ((hit.comp (alone_touched sector)).comp (alone_changed sector _)).comp (alone_changed sector _)

theorem alone_stored (sector : Nat) (data : Block) : Alone fun m => m.stored sector data := by
  intro m dev
  have entry : (m.withDev dev).cache.blocks[sector]? = m.cache.blocks[sector]? := rfl
  simp only [stored, entry]
  cases m.cache.blocks[sector]? with
  | none => rfl
  | some entry => exact alone_touched sector (m.put sector { entry with data := data, dirty := true }) dev

theorem alone_evicted : Alone evicted := by
  intro m dev
  have size : (m.withDev dev).size = m.size := rfl
  have oldest : lruSector (m.withDev dev).cache.blocks = lruSector m.cache.blocks := rfl
  rw [evicted, evicted, size, oldest]
  split
  · cases lruSector m.cache.blocks <;> rfl
  · rfl

theorem alone_taken (sector : Nat) (data : Block) : Alone fun m => m.taken sector data := by
  intro m dev
  have held : (m.withDev dev).cache.blocks.contains sector = m.cache.blocks.contains sector := rfl
  simp only [taken, held]
  split
  · exact alone_stored sector data m dev
  · exact (alone_evicted.comp (alone_stored sector data)) m dev

theorem stored_cached {data : Block} : (m.stored sector data).Cached sector := by
  unfold stored
  cases cached : m.cache.blocks[sector]? with
  | none => exact (put_cached _ _ _ _).mpr (Or.inl rfl)
  | some entry =>
    have present : (m.put sector { entry with data := data, dirty := true }).cache.blocks[sector]? =
        some { entry with data := data, dirty := true } := by
      rw [put_getElem?, if_pos rfl]
    dsimp only
    rw [touched, present]
    exact (put_cached _ _ _ _).mpr (Or.inl rfl)

end CacheMem

/-- From now on the device refuses every command. -/
def BlockDev.Dead (dev : BlockDev) : Prop := ∀ k, dev.issued ≤ k → dev.fails k = true

namespace BlockDev

variable {dev : BlockDev}

theorem readAttempts_refused (attempts : Nat) : ∀ {dev : BlockDev},
    (∀ k, dev.issued ≤ k → k < dev.issued + attempts → dev.fails k = true) →
    wp (readAttempts sector attempts) (fun _ _ => False)
      (fun _ after => after = { dev with issued := dev.issued + attempts }) dev := by
  induction attempts with
  | zero => exact fun _ => rfl
  | succ attempts ih =>
    intro dev refused
    rw [readAttempts, wp_tryCatch]
    simp only [readBlock, wp_bind, wp_get]
    rw [if_pos (refused dev.issued (Nat.le_refl _) (by omega))]
    have rest := @ih { dev with issued := dev.issued + 1 } fun k late early => by
      dsimp only at late early
      exact refused k (by omega) (by omega)
    apply wp_mono rest (fun _ _ absurd => absurd)
    rintro _ after rfl
    rw [Nat.add_assoc, Nat.add_comm 1]

end BlockDev

namespace BufferCache

variable {m : CacheMem} {sector : Nat}

theorem modifyBlock_cached (cached : m.Cached sector) (f : Block → Block) :
    modifyBlock sector f m = .ok () (m.modified sector f) := by
  obtain ⟨_, present⟩ := cached_iff.mp cached
  have loaded : readMut sector m = .ok ((m.addHit.touched sector).view sector) (m.addHit.touched sector) := by
    rw [readMut, get_bind, present]
    rfl
  rw [modifyBlock, bind_ok _ loaded]
  rfl

theorem makeRoom_clean (room : m.size < cacheMaxBlocks ∨ ∀ oldest, lruSector m.cache.blocks = some oldest →
    ¬ m.Dirty oldest) :
    makeRoom m = .ok () m.evicted := by
  unfold evicted
  by_cases full : cacheMaxBlocks ≤ m.size
  · have clean := room.resolve_left (Nat.not_lt.mpr full)
    have evicts : makeRoom m = evictLru m := by
      exact congrFun (if_pos full) m
    rw [evicts, if_pos full]
    cases oldest : lruSector m.cache.blocks with
    | none =>
      rw [evictLru, get_bind, oldest]
      rfl
    | some sector =>
      rw [evictLru, get_bind, oldest]
      dsimp only
      cases present : m.cache.blocks[sector]? with
      | none => rfl
      | some entry =>
        have notDirty : entry.dirty ≠ true := fun dirty => clean sector oldest ⟨entry, present, dirty⟩
        dsimp only
        rw [if_neg notDirty]
        rfl
  · rw [if_neg full]
    exact congrFun (if_neg full) m

theorem write_takes (takes : m.Takes sector) (data : Block) : write sector data m = .ok () (m.taken sector data) := by
  have rest : ∀ m₁ : CacheMem, overwrite sector data m₁ = .ok () (m₁.stored sector data) := by
    intro m₁
    rw [overwrite, get_bind, stored]
    cases m₁.cache.blocks[sector]? <;> rfl
  rw [write, get_bind, taken]
  by_cases held : m.cache.blocks.contains sector = true
  · rw [held]
    exact rest m
  · have absent : ¬ m.Cached sector := fun cached => held (Std.TreeMap.contains_iff_mem.mpr cached)
    rw [Bool.eq_false_iff.mpr held]
    exact (bind_ok _ (makeRoom_clean (takes.resolve_left absent))).trans (rest m.evicted)

theorem write_refused (dead : m.dev.Dead) (full : ¬ m.Takes sector) (data : Block) :
    wp (write sector data) (fun _ _ => False) (fun _ _ => True) m := by
  unfold Takes at full
  push Not at full
  obtain ⟨absent, large, _, found, _, present, dirty⟩ := full
  have missing : m.cache.blocks.contains sector = false := by
    rw [Bool.eq_false_iff]
    exact fun held => absent (Std.TreeMap.contains_iff_mem.mp held)
  have evicts : wp makeRoom (fun _ _ => False) (fun _ _ => True) m := by
    rw [makeRoom, wp_bind, wp_get, if_pos (show cacheMaxBlocks ≤ m.cache.blocks.size from large), evictLru, wp_bind,
      wp_get, found]
    simp only [present, dirty, if_true, wp_bind, onDev, wp_zoom]
    simp only [writeSector, wp_tryCatch, writeBlock, wp_bind, wp_get]
    rw [if_pos (dead m.dev.issued (Nat.le_refl _))]
    exact trivial
  rw [write, wp_bind, wp_get, missing]
  exact (wp_bind _ _).mpr (wp_mono evicts (fun _ _ absurd => absurd.elim) fun _ _ _ => trivial)

theorem modifyBlock_refused (dead : m.dev.Dead) (absent : ¬ m.Cached sector) (f : Block → Block) :
    wp (modifyBlock sector f) (fun _ _ => False) (fun _ _ => True) m := by
  have reads : wp (onDev (readSector sector)) (fun _ _ => False) (fun _ _ => True) m.addMiss := by
    rw [onDev, wp_zoom]
    exact wp_mono (readAttempts_refused sector 3 fun k late _ => dead k late) (fun _ _ absurd => absurd) fun _ _ _ =>
      trivial
  rw [modifyBlock, wp_bind, readMut, wp_bind, wp_get, not_cached_iff.mp absent]
  simp only [fill, wp_bind, wp_modify]
  exact wp_mono reads (fun _ _ absurd => absurd.elim) fun _ _ _ => trivial

end BufferCache

/-! ## The rest of a write -/

/-- The state after the block `prev`, if there is one, has been linked to `next`. -/
def CacheMem.linked (prev next : UInt32) : CacheMem :=
  if prev != 0 then m.modified prev.toNat fun buf => patch buf 0 (toLeBytes next) else m

variable (dir : Nat)

/-- With the free blocks `free` the cache takes in the blocks of a chain one after the other without
the device, and holds the sector `dir` when it is done. -/
def Absorbs : List Nat → List UInt8 → UInt32 → CacheMem → Prop
  | _, [], _, m => m.Cached dir
  | [], _ :: _, _, _ => False
  | k :: free, byte :: bytes, prev, m =>
    let linked := m.linked prev (ofNat k)
    linked.Takes k ∧ Absorbs free ((byte :: bytes).drop 508) (ofNat k)
      (linked.taken k (patch zeroBlock 4 ((byte :: bytes).take 508)))

theorem alone_linked (prev next : UInt32) : Alone fun m => m.linked prev next := by
  intro m dev
  simp only [linked]
  split
  · exact alone_modified _ _ m dev
  · rfl

theorem absorbs_withDev (dev : BlockDev) : ∀ (free : List Nat) (remaining : List UInt8) (prev : UInt32) (m : CacheMem),
    Absorbs dir free remaining prev (m.withDev dev) ↔ Absorbs dir free remaining prev m := by
  intro free
  induction free with
  | nil =>
    intro remaining prev m
    cases remaining <;> exact Iff.rfl
  | cons k free ih =>
    intro remaining prev m
    cases remaining with
    | nil => exact Iff.rfl
    | cons byte bytes =>
      have linked : (m.withDev dev).linked prev (ofNat k) = (m.linked prev (ofNat k)).withDev dev :=
        alone_linked prev _ m dev
      have taken := alone_taken k (patch zeroBlock 4 ((byte :: bytes).take 508)) (m.linked prev (ofNat k)) dev
      dsimp only at taken
      simp only [Absorbs]
      rw [linked, taken, ih]
      exact Iff.rfl

namespace FileSystemState

variable {m : FsMem} {prev current : UInt32} {α : Type} {dev : BlockDev} {k : Nat} {remaining : List UInt8}

theorem onCache_ok {x : CacheM α} {a : α} {mem : CacheMem} (run : x m.mem = .ok a mem) :
    onCache x m = .ok a (m.setMem mem) := zoom_ok run

theorem onDevice_ok {x : DevM α} {a : α} (run : x m.dev = .ok a dev) :
    onDevice x m = .ok a { m with dev := dev } := zoom_ok run

theorem link_cached (cached : prev ≠ 0 → m.mem.Cached prev.toNat) :
    (if prev != 0 then linkBlockCached prev current else pure ()) m =
    .ok () (m.setMem (m.mem.linked prev current)) := by
  unfold linked
  by_cases nonzero : prev != 0
  · rw [if_pos nonzero, if_pos nonzero]
    exact onCache_ok (modifyBlock_cached (cached (by simpa using nonzero)) _)
  · rw [if_neg nonzero, if_neg nonzero]
    rfl

theorem appendBlock_takes (cached : prev ≠ 0 → m.mem.Cached prev.toNat)
    (takes : (m.mem.linked prev current).Takes current.toNat) (buf : Block) :
    appendBlock prev current buf m = .ok () (m.setMem ((m.mem.linked prev current).taken current.toNat buf)) := by
  rw [appendBlock, bind_ok _ (link_cached cached)]
  exact onCache_ok (write_takes takes buf)

theorem appendBlock_refused (dead : m.dev.Dead) (cached : prev ≠ 0 → m.mem.Cached prev.toNat)
    (full : ¬ (m.mem.linked prev current).Takes current.toNat) (buf : Block) :
    wp (appendBlock prev current buf) (fun _ _ => False) (fun _ _ => True) m := by
  have still : (m.mem.linked prev current).dev.Dead := by
    rw [(alone_linked prev current).dev]
    exact dead
  rw [appendBlock, wp_bind, wp_run_ok (link_cached cached), onCache, wp_zoom]
  exact write_refused still full buf

/-- What is left of `write_file` once the lookup has found a place in the sector `dir`. -/
def writeRest (entry : UInt32 → Block → Block) (remaining : List UInt8) (head prev : UInt32) : FsM Unit := do
  let head ← writeChain remaining head prev
  onCache (BufferCache.modifyBlock dir (entry head))

section

variable (found : firstFree m.fs.bitmapCache = some k)

include found

omit found in
theorem allocBlock_full (full : firstFree m.fs.bitmapCache = none) : allocBlock m = .ok none m := by
  rw [allocBlock, get_bind, full]
  rfl

theorem writeChain_round (more : remaining ≠ [])
    (head prev : UInt32) :
    writeChain remaining head prev m =
      (appendBlock prev (ofNat k) (patch zeroBlock 4 (remaining.take 508)) >>= fun _ =>
        writeChain (remaining.drop 508) (if head == 0 then ofNat k else head) (ofNat k)) (m.marking k) := by
  have chunk : remaining.take (min remaining.length 508) = remaining.take 508 ∧
      remaining.drop (min remaining.length 508) = remaining.drop 508 := by
    by_cases long : 508 ≤ remaining.length
    · rw [Nat.min_eq_right long]
      exact ⟨rfl, rfl⟩
    · have short : remaining.length ≤ 508 := by omega
      rw [Nat.min_eq_left short, take_length, take_of_length_le short, drop_length, drop_of_length_le short]
      exact ⟨rfl, rfl⟩
  have first : allocBlock m = .ok (some (ofNat k)) (m.marking k) := by
    rw [allocBlock, get_bind, found]
    rfl
  rw [writeChain, dif_neg more, bind_ok _ first]
  dsimp only
  rw [chunk.1, chunk.2]

theorem writeRest_round (more : remaining ≠ [])
    (dir : Nat) (entry : UInt32 → Block → Block) (head prev : UInt32) :
    writeRest dir entry remaining head prev m =
      (appendBlock prev (ofNat k) (patch zeroBlock 4 (remaining.take 508)) >>= fun _ =>
        writeRest dir entry (remaining.drop 508) (if head == 0 then ofNat k else head) (ofNat k)) (m.marking k) := by
  have round := writeChain_round found more head prev
  simp only [writeRest, bind, EStateM.bind] at round ⊢
  rw [round]
  cases appendBlock prev (ofNat k) (patch zeroBlock 4 (remaining.take 508)) (m.marking k) <;> rfl

end

/-- **The rest of a write.** It returns on every device if the cache can do without it; on a device that
refuses everything it fails otherwise. -/
theorem writeRest_absorbs (entry : UInt32 → Block → Block) : ∀ (free : List Nat) (remaining : List UInt8)
    (head prev : UInt32) (m : FsMem), freeList m.fs.bitmapCache = free → (prev ≠ 0 → m.mem.Cached prev.toNat) →
    (Absorbs dir free remaining prev m.mem →
      wp (writeRest dir entry remaining head prev) (fun _ _ => True) (fun _ _ => False) m) ∧
    (m.dev.Dead → ¬ Absorbs dir free remaining prev m.mem →
      wp (writeRest dir entry remaining head prev) (fun _ _ => False) (fun _ _ => True) m) := by
  intro free
  have finished : ∀ (free : List Nat) (head prev : UInt32) (m : FsMem),
      (Absorbs dir free [] prev m.mem → wp (writeRest dir entry [] head prev) (fun _ _ => True) (fun _ _ => False) m) ∧
      (m.dev.Dead → ¬ Absorbs dir free [] prev m.mem →
        wp (writeRest dir entry [] head prev) (fun _ _ => False) (fun _ _ => True) m) := by
    intro free head prev m
    rw [writeRest, writeChain, dif_pos rfl, wp_bind, wp_pure, wp_bind, wp_pure, Absorbs]
    refine ⟨fun cached => ?_, fun dead absent => ?_⟩
    · rw [wp_run_ok (onCache_ok (modifyBlock_cached cached _))]
      exact trivial
    · rw [onCache, wp_zoom]
      exact modifyBlock_refused dead absent _
  induction free with
  | nil =>
    intro remaining head prev m empty cached
    cases remaining with
    | nil => exact finished [] head prev m
    | cons byte bytes =>
      have full : firstFree m.fs.bitmapCache = none := by
        cases first : firstFree m.fs.bitmapCache with
        | none => rfl
        | some k =>
          rw [freeList_of_firstFree first] at empty
          cases empty
      refine ⟨fun absurd => absurd.elim, fun _ _ => ?_⟩
      rw [writeRest, writeChain, dif_neg (cons_ne_nil _ _), wp_bind, wp_bind, wp_run_ok (allocBlock_full full)]
      exact trivial
  | cons k free ih =>
    intro remaining head prev m blocks cached
    cases remaining with
    | nil => exact finished _ head prev m
    | cons byte bytes =>
      have first : firstFree m.fs.bitmapCache = some k := by
        cases first : firstFree m.fs.bitmapCache with
        | none =>
          rw [freeList_of_full first] at blocks
          cases blocks
        | some j =>
          rw [freeList_of_firstFree first] at blocks
          rw [(cons.inj blocks).1]
      have left : freeList (mark m.fs.bitmapCache k) = free := by
        rw [freeList_of_firstFree first] at blocks
        exact (cons.inj blocks).2
      have number : (ofNat k).toNat = k := by
        have bound := (firstFree_some first).1
        exact Nat.mod_eq_of_lt (by omega)
      have round := writeRest_round first (cons_ne_nil byte bytes) dir entry head prev
      rw [wp_run_eq round, wp_run_eq round, wp_bind, wp_bind, Absorbs]
      set linked := m.mem.linked prev (ofNat k)
      by_cases takes : linked.Takes k
      · rw [← number] at takes
        have run := appendBlock_takes (m := m.marking k) cached takes (patch zeroBlock 4 ((byte :: bytes).take 508))
        rw [number] at run
        have dev : (linked.taken k (patch zeroBlock 4 ((byte :: bytes).take 508))).dev = m.dev :=
          ((alone_linked prev _).comp (alone_taken k _)).dev m.mem
        rw [wp_run_ok run, wp_run_ok run]
        obtain ⟨returns, fails⟩ := ih ((byte :: bytes).drop 508) (if head == 0 then ofNat k else head) (ofNat k)
          ((m.marking k).setMem (linked.taken k (patch zeroBlock 4 ((byte :: bytes).take 508)))) left fun _ => by
            rw [number]
            exact stored_cached
        refine ⟨fun absorbs => returns absorbs.2, fun dead not => fails ?_ fun rest => not ⟨number ▸ takes, rest⟩⟩
        exact (show (linked.taken k _).dev.Dead from dev ▸ dead)
      · refine ⟨fun absorbs => absurd absorbs.1 takes, fun dead _ => ?_⟩
        rw [← number] at takes
        exact wp_mono (appendBlock_refused (m := m.marking k) dead cached takes _) (fun _ _ absurd => absurd.elim)
          fun _ _ _ => trivial

theorem onCache_marked (k : Nat) (x : CacheM α) : Keeps (fun m => marked m.fs.bitmapCache k = true) (onCache x) := by
  intro m start
  rw [onCache, wp_zoom]
  exact wp_of_forall (fun _ _ => start) fun _ _ => start

theorem appendBlock_marked (k : Nat) (prev current : UInt32) (buf : Block) :
    Keeps (fun m => marked m.fs.bitmapCache k = true) (appendBlock prev current buf) := by
  refine Keeps.bind ?_ fun _ => onCache_marked k _
  split
  · exact onCache_marked k _
  · exact Keeps.pure _

theorem writeChain_marked (k : Nat) (remaining : List UInt8) (head prev : UInt32) :
    Keeps (fun m => marked m.fs.bitmapCache k = true) (writeChain remaining head prev) := by
  fun_induction writeChain remaining head prev with
  | case1 => exact Keeps.pure _
  | case2 remaining head prev more ih =>
    intro m start
    rw [wp_bind]
    apply wp_imp allocBlock_spec
    intro result m₁ taken
    cases result with
    | none =>
      obtain ⟨rfl, -⟩ := taken
      exact start
    | some current =>
      obtain ⟨_, -, rfl⟩ := taken
      have still : marked (mark m.fs.bitmapCache current.toNat) k = true := by
        rw [marked_mark _ (by omega), start, Bool.true_or]
      exact ((appendBlock_marked k prev current _).bind fun _ => ih current) (m.marking current.toNat) still

theorem writeRest_marks (found : firstFree m.fs.bitmapCache = some k) (more : remaining ≠ [])
    (dir : Nat) (entry : UInt32 → Block → Block) (head prev : UInt32) :
    wp (writeRest dir entry remaining head prev) (fun _ m' => marked m'.fs.bitmapCache k = true)
      (fun _ m' => marked m'.fs.bitmapCache k = true) m := by
  rw [wp_run_eq (writeRest_round found more dir entry head prev)]
  have now : marked (mark m.fs.bitmapCache k) k = true := by
    rw [marked_mark _ (firstFree_some found).1, decide_eq_true rfl, Bool.or_true]
  exact ((appendBlock_marked k prev _ _).bind fun _ => (writeChain_marked k _ _ _).bind fun _ => onCache_marked k _)
    (m.marking k) now

/-! ## Lookups and verdicts -/

variable (p : DirEntry → Bool) (disk : Nat → Block)

theorem firstSlot_eq_find :
    ((finRange secDirCount).flatMap fun i => (finRange entriesPerSector).map (Slot.mk i)).find?
      (fun slot => p (entryOn disk slot)) = firstSlot p disk := by
  rw [firstSlot, slots]

/-- Whatever the device answers, the place is the first of the name or the first free one. -/
theorem selectEntry_cases (name : String) (m : FsMem) :
    wp (selectEntry name)
      (fun slot m' => (firstSlot (isNamed name) m.disk = some slot ∨ firstSlot (fun e => !e.used) m.disk = some slot) ∧
        m'.fs = m.fs ∧ m'.counter = m.counter)
      (fun _ m' => m'.fs = m.fs) m := by
  rw [selectEntry, wp_bind, onDevice, wp_zoom]
  apply wp_imp (scan_cases _ _ m.dev)
  rintro found dev₁ ⟨outcome, untouched⟩
  cases found with
  | some slot =>
    rcases outcome with first | ⟨absurd, -⟩
    · rw [firstSlot_eq_find] at first
      exact ⟨Or.inl first.symm, rfl, rfl⟩
    · cases absurd
  | none =>
    rw [wp_bind, onDevice, wp_zoom]
    apply wp_imp (scan_cases _ _ dev₁)
    rintro found₂ _ ⟨outcome₂, -⟩
    cases found₂ with
    | none => exact rfl
    | some slot =>
      rcases outcome₂ with first | ⟨absurd, -⟩
      · have free := first.trans (firstSlot_eq_find (fun e => !e.used) dev₁.disk)
        rw [untouched.disk] at free
        exact ⟨Or.inr free.symm, rfl, rfl⟩
      · cases absurd

theorem readSector_answered (answered : dev.fails dev.issued = false) (sector : Nat) :
    readSector sector dev = .ok (dev.disk sector) { dev with issued := dev.issued + 1 } := by
  have spec : wp (readSector sector)
      (fun b after => b = dev.disk sector ∧ after = { dev with issued := dev.issued + 1 }) (fun _ _ => False) dev := by
    rw [readSector, readAttempts, wp_tryCatch]
    simp only [readBlock, wp_bind, wp_get, answered]
    exact ⟨rfl, rfl⟩
  obtain ⟨b, after, run, rfl, rfl⟩ := wp_returns spec
  exact run

theorem scan_refused (i : Fin secDirCount) (rest : List (Fin secDirCount))
    (refused : ∀ k, dev.issued ≤ k → k < dev.issued + 3 → dev.fails k = true) :
    scan p (i :: rest) dev = .ok none { dev with issued := dev.issued + 3 } := by
  have spec : wp (scan p (i :: rest)) (fun found after => found = none ∧ after = { dev with issued := dev.issued + 3 })
      (fun _ _ => False) dev := by
    rw [scan, wp_bind, wp_attempt]
    apply wp_mono (readAttempts_refused _ 3 refused) (fun _ _ absurd => absurd.elim)
    rintro _ after rfl
    exact ⟨rfl, rfl⟩
  obtain ⟨found, after, run, rfl, rfl⟩ := wp_returns spec
  exact run

theorem scan_answered (dirs : List (Fin secDirCount)) : ∃ count, ∀ fails issued,
    (∀ k, issued ≤ k → k < issued + count → fails k = false) →
    scan p dirs ⟨disk, fails, issued⟩ = .ok ((dirs.flatMap fun i => (finRange entriesPerSector).map (Slot.mk i)).find?
      fun slot => p (entryOn disk slot)) ⟨disk, fails, issued + count⟩ := by
  induction dirs with
  | nil => exact ⟨0, fun _ _ _ => rfl⟩
  | cons i rest ih =>
    obtain ⟨count, more⟩ := ih
    rw [flatMap_cons, find?_append, find?_map]
    have here : (fun slot => p (entryOn disk slot)) ∘ Slot.mk i = fun j => p (entryAt (disk (secDirStart + i.val)) j) :=
      rfl
    rw [here]
    have read : ∀ fails issued, fails issued = false →
      attempt (readSector (secDirStart + i.val)) ⟨disk, fails, issued⟩ =
        .ok (some (disk (secDirStart + i.val))) ⟨disk, fails, issued + 1⟩ := by
      intro fails issued answered
      simp only [attempt, tryCatch, tryCatchThe, MonadExceptOf.tryCatch, Functor.map]
      delta EStateM.tryCatch EStateM.map
      simp [@readSector_answered ⟨disk, fails, issued⟩ answered]
    cases search : (finRange entriesPerSector).find? fun j => p (entryAt (disk (secDirStart + i.val)) j) with
    | some j =>
      refine ⟨1, fun fails issued answered => ?_⟩
      rw [scan, bind_ok _ (read fails issued (answered issued (Nat.le_refl _) (by omega)))]
      dsimp only
      rw [search]
      rfl
    | none =>
      refine ⟨count + 1, fun fails issued answered => ?_⟩
      have later := more fails (issued + 1) fun k late early => answered k (by omega) (by omega)
      rw [scan, bind_ok _ (read fails issued (answered issued (Nat.le_refl _) (by omega)))]
      dsimp only
      rw [search]
      dsimp only
      rw [later, Nat.add_assoc, Nat.add_comm 1]
      rfl

/-- Verdicts under which a lookup finds one of the two places and everything behind it is refused. -/
theorem selectEntry_then_dead {name : String} {slot : Slot} (m : FsMem)
    (place : firstSlot (isNamed name) m.disk = some slot ∨ firstSlot (fun e => !e.used) m.disk = some slot) :
    ∃ fails issued,
      selectEntry name { m with dev := ⟨m.disk, fails, 0⟩ } = .ok slot { m with dev := ⟨m.disk, fails, issued⟩ } ∧
      Dead ⟨m.disk, fails, issued⟩ := by
  rcases place with named | free
  · obtain ⟨count, answered⟩ := scan_answered (isNamed name) m.disk (finRange secDirCount)
    refine ⟨fun k => decide (count ≤ k), count, ?_, fun k late => decide_eq_true late⟩
    have run := answered (fun k => decide (count ≤ k)) 0 fun k _ early => decide_eq_false (by omega)
    rw [firstSlot_eq_find, named, Nat.zero_add] at run
    have looked :
      onDevice (findEntryPos name) { m with dev := ⟨m.disk, fun k => decide (count ≤ k), 0⟩ } = _ := onDevice_ok run
    rw [selectEntry, bind_ok _ looked]
    rfl
  · obtain ⟨count, answered⟩ := scan_answered (fun e => !e.used) m.disk (finRange secDirCount)
    -- the first sector is refused to the lookup of the name, which then counts as missing
    let fails := fun k : Nat => decide (k < 3 ∨ 3 + count ≤ k)
    refine ⟨fails, 3 + count, ?_, fun k late => decide_eq_true (Or.inr late)⟩
    have missed : findEntryPos name ⟨m.disk, fails, 0⟩ = .ok none ⟨m.disk, fails, 3⟩ := by
      exact scan_refused _ _ _ fun k _ early => decide_eq_true (Or.inl (by simpa using early))
    have run := answered fails 3 fun k late early => decide_eq_false (by omega)
    rw [firstSlot_eq_find (fun e => !e.used), free] at run
    have first : onDevice (findEntryPos name) { m with dev := ⟨m.disk, fails, 0⟩ } = _ := onDevice_ok missed
    have second : onDevice findFreeDirEntry { m with dev := ⟨m.disk, fails, 3⟩ } = _ := onDevice_ok run
    rw [selectEntry, bind_ok _ first]
    dsimp only
    rw [bind_ok _ second]
    rfl

end FileSystemState

/-! ## No trace -/

/-- If the write fails, the allocated blocks and the statistics of the disk are those from before. -/
def NoTrace (m : FsMem) (name : String) (data : List UInt8) : Prop :=
  ∀ e m', FileSystemState.writeFile name data m = .error e m' →
    (∀ k, marked m'.fs.bitmapCache k = marked m.fs.bitmapCache k) ∧ m'.fs.diskStats = m.fs.diskStats

section Trace

open FileSystemState

theorem writeFile_no_trace {m : FsMem} {name : String} {data : List UInt8}
    (condition : data = [] ∨ firstFree m.fs.bitmapCache = none ∨
      ∀ slot, firstSlot (isNamed name) m.disk = some slot ∨ firstSlot (fun e => !e.used) m.disk = some slot →
        Absorbs slot.sector (freeList m.fs.bitmapCache) data 0 m.mem) :
    wp (writeFile name data) (fun _ _ => True) (fun _ m' => m'.fs.bitmapCache = m.fs.bitmapCache) m := by
  rw [writeFile, wp_bind]
  apply wp_mono (selectEntry_cases name m)
  · rintro slot m₁ ⟨place, fs, counter⟩
    change wp (writeRest slot.sector (fun head buf => putEntry buf slot.index
      (bytes ⟨fixedName (asBytes name), ofNat data.length, head⟩)) data 0 0) _ _ m₁
    by_cases empty : data = []
    · rw [empty, writeRest, writeChain, dif_pos rfl, wp_bind, wp_pure, onCache, wp_zoom]
      refine wp_of_forall (fun _ _ => trivial) fun _ _ => ?_
      rw [FsMem.bitmapCache_setMem, fs]
    rcases condition with nothing | full | absorbs
    · exact absurd nothing empty
    · have none : firstFree m₁.fs.bitmapCache = none := by
        rw [fs]
        exact full
      rw [writeRest, writeChain, dif_neg empty, wp_bind, wp_bind, wp_run_ok (allocBlock_full none)]
      exact congrArg bitmapCache fs
    · have mem : m₁.mem = m.mem.withDev m₁.dev := by
        rw [FsMem.mem, fs, counter]
        rfl
      have able := (absorbs_withDev _ m₁.dev _ _ _ _).mpr (absorbs slot place)
      rw [← mem, ← fs] at able
      obtain ⟨returns, -⟩ := writeRest_absorbs slot.sector (fun head buf => putEntry buf slot.index
        (bytes ⟨fixedName (asBytes name), ofNat data.length, head⟩)) _ data 0 0 m₁ rfl fun nonzero => absurd rfl nonzero
      exact wp_mono (returns able) (fun _ _ _ => trivial) fun _ _ absurd => absurd.elim
  · exact fun _ m' fs => congrArg bitmapCache fs

/-- **Failed writes leave no trace** on any device with these contents exactly when there is nothing to
allocate, or when, with the entry in the sector of either place the lookup can select, there are blocks
for the whole file, and the cache takes them in and has that sector without the device. -/
theorem no_trace_iff (m : FsMem) (name : String) (data : List UInt8) :
    (∀ dev : BlockDev, dev.disk = m.disk → NoTrace { m with dev := dev } name data) ↔
      data = [] ∨ firstFree m.fs.bitmapCache = none ∨
        ∀ slot, firstSlot (isNamed name) m.disk = some slot ∨ firstSlot (fun e => !e.used) m.disk = some slot →
          Absorbs slot.sector (freeList m.fs.bitmapCache) data 0 m.mem := by
  constructor
  · intro holds
    by_contra none
    push Not at none
    obtain ⟨more, free, slot, place, short⟩ := none
    obtain ⟨k, first⟩ := Option.ne_none_iff_exists'.mp free
    obtain ⟨fails, issued, selected, dead⟩ := selectEntry_then_dead m place
    set m₁ : FsMem := { m with dev := ⟨m.disk, fails, issued⟩ }
    let entry : UInt32 → Block → Block := fun head buf => putEntry buf slot.index
      (bytes ⟨fixedName (asBytes name), ofNat data.length, head⟩)
    have unable : ¬ Absorbs slot.sector (freeList m.fs.bitmapCache) data 0 m₁.mem :=
      fun absorbs => short ((absorbs_withDev _ ⟨m.disk, fails, issued⟩ _ _ _ m.mem).mp absorbs)
    obtain ⟨-, refused⟩ := writeRest_absorbs slot.sector entry _ data 0 0 m₁ rfl fun nonzero => absurd rfl nonzero
    obtain ⟨e, m', run, -⟩ := wp_fails (refused dead unable)
    have failed : writeFile name data { m with dev := ⟨m.disk, fails, 0⟩ } = .error e m' := by
      rw [writeFile, bind_ok _ selected]
      exact run
    have taken := wp_of_error (writeRest_marks (m := m₁) first more slot.sector entry 0 0) run
    have kept := (holds ⟨m.disk, fails, 0⟩ rfl e m' failed).1 k
    rw [taken] at kept
    exact absurd ((firstFree_some first).2.1.symm.trans kept.symm) Bool.false_ne_true
  · intro condition dev disk e m' failed
    have same := @writeFile_no_trace { m with dev := dev } name data (by
      rcases condition with empty | full | absorbs
      · exact Or.inl empty
      · exact Or.inr (Or.inl full)
      · refine Or.inr (Or.inr fun slot place => ?_)
        rw [FsMem.disk, disk] at place
        exact (absorbs_withDev _ dev _ _ _ m.mem).mpr (absorbs slot place))
    have bitmap := wp_of_error same failed
    exact ⟨fun k => by rw [bitmap], by rw [diskStats, bitmap]; rfl⟩

end Trace

/-- A file of one byte more than the empty image has room for: the write fails and leaves block 129,
and all others, taken. -/
theorem full_disk_leaves_blocks : ∃ m', writeFile "/a" (replicate 2015237 0) blankState = .error "Disk full" m' ∧
    marked blankState.fs.bitmapCache 129 = false ∧ marked m'.fs.bitmapCache 129 = true := by
  have ready := blankState_mounted.ready
  have room : freeCount blankState.fs.bitmapCache = 3967 := freeCount_blankBitmap
  have need : blocksFor (replicate 2015237 (0 : UInt8)).length = 3968 := by
    rw [length_replicate]
    decide
  have spec := writeFile_spec ready "/a" (replicate 2015237 0)
  cases run : writeFile "/a" (replicate 2015237 0) blankState with
  | ok _ m' =>
    obtain ⟨_, _, written⟩ := wp_of_ok spec run
    have free := written.free
    have count := written.count
    omega
  | error e m' =>
    have failed := wp_of_error spec run
    cases failed with
    | rootDirFull _ none _ =>
      rw [selectSlot_none] at none
      exact absurd (none.2.symm.trans blankImage_freeSlots) (by decide)
    | diskFull message _ _ full _ _ =>
      subst message
      refine ⟨m', rfl, ?_, firstFree_none (firstFree_eq_none_iff.mpr full) 129 (by decide)⟩
      have clear : marked blankBitmap 129 = false := by
        rw [blankBitmap, marked_markBelow _ _ (by decide)]
        decide
      exact clear

end HavyOs.Fs
