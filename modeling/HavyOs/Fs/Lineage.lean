import HavyOs.Fs.GlobalSfs

/-!
# The bitmap over the life of an image

What the kernel's calls leave of the sectors in front of the directory, on any device, also
one that refuses commands. The cache never holds one of them, so they change only when `sync`
writes the first bitmap sector; the bitmap in memory has every mark that the device has. This
holds after every call, inside `write_file` at every call of `alloc_block`, and across
reboots.
-/

namespace HavyOs.Fs

open HavyOs.Lib FileSystemState BufferCache BlockDev Keeps

/-! ## Sectors the cache spares -/

/-- The sectors in front of the directory are not cached, and the device has them as `disk` has. -/
structure CacheMem.Spares (disk : Nat → Block) (m : CacheMem) : Prop where
  uncached : ∀ s, s < secDirStart → m.cache.blocks[s]? = none
  disk : ∀ s, s < secDirStart → m.dev.disk s = disk s

variable (sector : Nat)

namespace CacheMem.Spares

variable {disk : Nat → Block} {m : CacheMem}

variable (h : Spares disk m)

include h

theorem of_same {m' : CacheMem} (blocks : m'.cache.blocks = m.cache.blocks)
    (dev : m'.dev.disk = m.dev.disk) : Spares disk m' := by
  constructor
  · rw [blocks]
    exact h.uncached
  · rw [dev]
    exact h.disk

/-- What is cached lies in the directory or behind it. -/
theorem high {sector : Nat} {entry : CacheEntry} (cached : m.cache.blocks[sector]? = some entry) :
    secDirStart ≤ sector := by
  by_contra low
  rw [h.uncached sector (by omega)] at cached
  cases cached

theorem put {sector : Nat} (high : secDirStart ≤ sector) (entry : CacheEntry) : Spares disk (m.put sector entry) := by
  refine ⟨fun s low => ?_, h.disk⟩
  rw [put_getElem?, if_neg (by omega)]
  exact h.uncached s low

theorem drop : Spares disk (m.drop sector) := by
  refine ⟨fun s low => ?_, h.disk⟩
  change (m.cache.blocks.erase sector)[s]? = none
  rw [erase_getElem?, h.uncached s low, ite_self]

theorem change (f : CacheEntry → CacheEntry) :
    Spares disk (match m.cache.blocks[sector]? with
      | some entry => m.put sector (f entry)
      | none => m) := by
  cases cached : m.cache.blocks[sector]? with
  | none => exact h
  | some entry => exact h.put (h.high cached) _

end CacheMem.Spares

namespace BufferCache

open CacheMem

variable {disk : Nat → Block}

theorem onDev_read_spares : Keeps (Spares disk) (onDev (readSector sector)) := by
  intro m start
  rw [onDev, wp_zoom]
  apply wp_mono (readSector_spec sector m.dev)
  · exact fun _ dev done => start.of_same rfl done.2.disk
  · exact fun _ dev failed => start.of_same rfl failed.2.1.disk

variable {sector : Nat}

/-- A write to the directory or behind it. -/
theorem onDev_write_spares (high : secDirStart ≤ sector) (data : Block) :
    Keeps (Spares disk) (onDev (writeSector sector data)) := by
  intro m start
  rw [onDev, wp_zoom]
  apply wp_mono (writeSector_spec sector data m.dev)
  · rintro _ dev ⟨written, -⟩
    refine ⟨start.uncached, fun s low => ?_⟩
    rw [written, Function.update_of_ne (by omega)]
    exact start.disk s low
  · exact fun _ dev failed => start.of_same rfl failed.2.1.disk

theorem tick_spares : Keeps (Spares disk) tick := fun _ start => start.of_same rfl rfl

theorem touch_spares (sector : Nat) : Keeps (Spares disk) (touch sector) :=
  tick_spares.bind fun now => modify fun _ start => start.change sector fun entry => { entry with lastAccess := now }

theorem insertNew_spares (high : secDirStart ≤ sector) (data : Block) (dirty : Bool) :
    Keeps (Spares disk) (insertNew sector data dirty) :=
  tick_spares.bind fun _ => modify fun _ start => start.put high _

theorem writeBack_spares {m : CacheMem} (start : Spares disk m) {entry : CacheEntry}
    (cached : m.cache.blocks[sector]? = some entry) : Keeps (Spares disk) (onDev (writeSector sector entry.data)) :=
  onDev_write_spares (start.high cached) entry.data

/-- Only what was cached is written back. -/
theorem evictLru_spares : Keeps (Spares disk) evictLru := by
  refine get_bind fun m start => ?_
  cases lruSector m.cache.blocks with
  | none => exact start
  | some sector =>
    have dropped : Keeps (Spares disk) (modify (drop · sector) : CacheM Unit) :=
      modify fun _ kept => kept.drop sector
    dsimp only
    split
    · rename_i entry cached
      split
      · refine bind (writeBack_spares start cached) (fun _ => bind (modify fun _ kept => ?_) fun _ => dropped) m start
        exact kept.of_same rfl rfl
      · exact dropped m start
    · exact dropped m start

theorem makeRoom_spares : Keeps (Spares disk) makeRoom := by
  refine get_bind fun m start => ?_
  split
  · exact evictLru_spares m start
  · exact start

section

variable (high : secDirStart ≤ sector)

include high

theorem fill_spares : Keeps (Spares disk) (fill sector) := by
  refine bind (modify fun _ start => start.of_same rfl rfl) fun _ => ?_
  refine (onDev_read_spares sector).bind fun data => makeRoom_spares.bind fun _ => ?_
  exact (insertNew_spares high data false).bind fun _ => pure data

theorem readMut_spares : Keeps (Spares disk) (readMut sector) := by
  have rest : Keeps (Spares disk) (do touch sector; let m ← get; pure (m.view sector) : CacheM Block) :=
    (touch_spares sector).bind fun _ => get_bind fun _ start => start
  refine get_bind fun m start => ?_
  split
  · exact (fill_spares high).bind (fun _ => rest) m start
  · exact bind (modify fun _ kept => kept.of_same rfl rfl) (fun _ => rest) m start

theorem modifyBlock_spares (f : Block → Block) : Keeps (Spares disk) (modifyBlock sector f) := by
  refine (readMut_spares high).bind fun _ => bind (modify fun _ start => ?_) fun _ => modify fun _ start => ?_
  · exact start.change sector fun entry => { entry with data := f entry.data }
  · exact start.change sector fun entry => { entry with dirty := true }

theorem write_spares (data : Block) : Keeps (Spares disk) (write sector data) := by
  have rest : Keeps (Spares disk) (overwrite sector data) := by
    refine get_bind fun m start => ?_
    split
    · exact touch_spares sector _ (start.put high _)
    · exact insertNew_spares high data true m start
  refine get_bind fun m start => ?_
  split
  · exact makeRoom_spares.bind (fun _ => rest) m start
  · exact rest m start

end

theorem flushEntry_spares (sector : Nat) : Keeps (Spares disk) (flushEntry sector) := by
  refine get_bind fun m start => ?_
  split
  · rename_i entry cached
    split
    · refine bind (writeBack_spares start cached) (fun _ => bind (modify fun m' kept => ?_) fun _ => pure _) m start
      exact (kept.put (start.high cached) { entry with dirty := false }).of_same rfl rfl
    · exact start
  · exact start

/-- The loop of `sync`, by induction on the sectors ahead. -/
theorem syncFrom_spares (ahead : List Nat) : ∀ count, Keeps (Spares disk) (syncFrom count ahead) := by
  induction ahead with
  | nil => exact fun count => pure count
  | cons sector rest ih => exact fun count => (flushEntry_spares sector).bind fun flushed => ih _

theorem sync_spares : Keeps (Spares disk) sync := get_bind fun m start => syncFrom_spares _ 0 m start

end BufferCache

/-! ## Reads of the device -/

namespace FileSystemState

variable {disk : Nat → Block}

/-- The device has the sectors of `disk`. -/
def Shows (disk : Nat → Block) (dev : BlockDev) : Prop := dev.disk = disk

/-- A read leaves the device as it is, also one that fails. -/
theorem readSector_shows : Keeps (Shows disk) (readSector sector) := by
  intro dev start
  apply wp_mono (readSector_spec sector dev)
  · exact fun _ _ done => done.2.disk.trans start
  · exact fun _ _ failed => failed.2.1.disk.trans start

theorem scan_shows (p : DirEntry → Bool) (dirs : List (Fin secDirCount)) : Keeps (Shows disk) (scan p dirs) := by
  induction dirs with
  | nil => exact pure _
  | cons i rest ih =>
    refine (readSector_shows _).attempt.bindOption (pure _) fun buf => ?_
    dsimp only
    split
    · exact pure _
    · exact ih

theorem findEntry_shows (name : String) : Keeps (Shows disk) (findEntry name) := by
  refine (scan_shows _ _).bindOption (pure _) fun slot => ?_
  exact (readSector_shows _).attempt.bindOption (pure _) fun _ => pure _

theorem readChain_shows (size : Nat) (next : UInt32) (data : List UInt8) :
    Keeps (Shows disk) (readChain size next data) := by
  fun_induction readChain size next data with
  | case1 next data more ih => exact (readSector_shows _).attempt.bindOption (pure _) ih
  | case2 next data done => exact pure _

theorem readFile_shows (name : String) : Keeps (Shows disk) (readFile name) :=
  (findEntry_shows name).bindOption (pure _) fun _ => readChain_shows _ _ _

end FileSystemState

/-! ## The lineage of an image -/

/-- The state comes from a mount of `image`: nothing in front of the directory has changed
but the first bitmap sector, whose marks the bitmap in memory has. -/
structure Lineage (image : Nat → Block) (m : FsMem) : Prop where
  uncached : ∀ s, s < secDirStart → m.fs.cache.blocks[s]? = none
  disk : ∀ s, s < secDirStart → s ≠ secMapStart → m.disk s = image s
  grown : ∀ k, marked (m.disk secMapStart) k = true → marked m.fs.bitmapCache k = true
  reserved : ∀ k, k < secDataStart → marked (m.disk secMapStart) k = true

namespace Lineage

variable {image : Nat → Block}

/-- Only the sectors in front of the directory and the bitmap in memory matter. -/
theorem frame {m m' : FsMem} (start : Lineage image m) (uncached : ∀ s, s < secDirStart → m'.fs.cache.blocks[s]? = none)
    (disk : ∀ s, s < secDirStart → m'.disk s = m.disk s)
    (marks : ∀ k, marked m.fs.bitmapCache k = true → marked m'.fs.bitmapCache k = true) : Lineage image m' := by
  have first : m'.disk secMapStart = m.disk secMapStart := disk secMapStart (by decide)
  refine ⟨uncached, fun s low other => (disk s low).trans (start.disk s low other), fun k => ?_, ?_⟩
  · rw [first]
    exact fun on => marks k (start.grown k on)
  · rw [first]
    exact start.reserved

/-- A cache access that spares the sectors in front keeps the lineage. -/
theorem onCache {α : Type} {x : CacheM α} (keeps : ∀ disk, Keeps (CacheMem.Spares disk) x) :
    Keeps (Lineage image) (onCache x) := by
  refine zoom (fun m _ => keeps m.disk) (fun m start => ⟨start.uncached, fun _ _ => rfl⟩) fun m mem start kept => ?_
  exact start.frame kept.uncached kept.disk fun _ on => on

theorem onDevice {α : Type} {x : DevM α} (keeps : ∀ disk, Keeps (FileSystemState.Shows disk) x) :
    Keeps (Lineage image) (onDevice x) := by
  refine zoom (fun m _ => keeps m.disk) (fun _ _ => rfl) fun m dev start shows => ?_
  exact start.frame start.uncached (fun s _ => congrFun shows s) fun _ on => on

theorem marking {m : FsMem} (start : Lineage image m) {k : Nat} (bound : k < 4096) : Lineage image (m.marking k) := by
  refine start.frame start.uncached (fun _ _ => rfl) fun j old => ?_
  rw [FsMem.marking, marked_mark _ (by omega), old, Bool.true_or]

/-- A block that is allocated lies behind the reserved ones. -/
theorem allocBlock {m : FsMem} (start : Lineage image m) {E : String → FsMem → Prop} :
    wp allocBlock (fun result m' => Lineage image m' ∧ ∀ b, result = some b → secDirStart ≤ b.toNat) E m := by
  apply wp_imp allocBlock_spec
  intro result m' taken
  cases result with
  | none =>
    obtain ⟨rfl, -⟩ := taken
    refine ⟨start, fun b some => ?_⟩
    cases some
  | some block =>
    obtain ⟨bound, clear, rfl⟩ := taken
    refine ⟨start.marking bound, fun b same => ?_⟩
    cases same
    by_contra low
    rw [start.grown _ (start.reserved _ (by simp only [secDataStart, secDirStart] at low ⊢; omega))] at clear
    cases clear

/-- The bitmap that is written has the marks the device had. -/
theorem syncBitmap : Keeps (Lineage image) syncBitmap := by
  refine get_bind fun m start => ?_
  split
  · rw [wp_bind, Fs.onDevice, wp_zoom]
    apply wp_mono (writeSector_spec secMapStart m.fs.bitmapCache m.dev)
    · rintro _ dev ⟨written, -⟩
      set m' : FsMem := { m with fs := { m.fs with bitmapDirty := false }, dev := dev }
      have first : m'.disk secMapStart = m.fs.bitmapCache := by
        change dev.disk secMapStart = _
        rw [written, Function.update_self]
      refine (⟨start.uncached, fun s low other => ?_, fun k on => ?_, fun k low => ?_⟩ : Lineage image m')
      · change dev.disk s = image s
        rw [written, Function.update_of_ne other]
        exact start.disk s low other
      · rwa [first] at on
      · rw [first]
        exact start.grown k (start.reserved k low)
    · rintro _ dev ⟨-, untouched, -⟩
      exact start.frame start.uncached (fun s _ => congrFun untouched.disk s) fun _ on => on
  · exact start

end Lineage

/-! ## Invariants of the calls -/

/-- An invariant that the steps of the calls keep: reads of the device, the cache calls on the
directory and the data area, the allocation of a block, and the two parts of `sync`. -/
structure Stable (I : FsMem → Prop) : Prop where
  device : ∀ {α : Type} {x : DevM α}, (∀ disk, Keeps (FileSystemState.Shows disk) x) → Keeps I (onDevice x)
  readMut : ∀ {sector : Nat}, secDirStart ≤ sector → Keeps I (onCache (BufferCache.readMut sector))
  modifyBlock : ∀ {sector : Nat}, secDirStart ≤ sector → ∀ f, Keeps I (onCache (BufferCache.modifyBlock sector f))
  write : ∀ {sector : Nat}, secDirStart ≤ sector → ∀ data, Keeps I (onCache (BufferCache.write sector data))
  flush : Keeps I (onCache BufferCache.sync)
  bitmap : Keeps I FileSystemState.syncBitmap
  allocate : ∀ {m : FsMem}, I m → wp FileSystemState.allocBlock
    (fun result m' => I m' ∧ ∀ b, result = some b → secDirStart ≤ b.toNat) (fun _ m' => I m') m

namespace Stable

variable {I : FsMem → Prop} (stable : Stable I)

include stable

/-- Both blocks lie behind the sectors that are spared. -/
theorem appendBlock {prev current : UInt32} (linked : prev ≠ 0 → secDirStart ≤ prev.toNat)
    (high : secDirStart ≤ current.toNat)
    (buf : Block) : Keeps I (appendBlock prev current buf) := by
  refine bind ?_ fun _ => stable.write high buf
  split
  · rename_i nonzero
    exact stable.modifyBlock (linked (by simpa using nonzero)) _
  · exact pure _

/-- The loop of `write_file`: every block it links comes from `allocBlock`. -/
theorem writeChain (remaining : List UInt8) : ∀ (head prev : UInt32), (prev ≠ 0 → secDirStart ≤ prev.toNat) →
    Keeps I (writeChain remaining head prev) := by
  intro head prev linked
  fun_induction FileSystemState.writeChain remaining head prev with
  | case1 => exact pure _
  | case2 head prev remaining more ih =>
    intro m start
    rw [wp_bind]
    apply wp_imp (stable.allocate start)
    rintro result m₁ ⟨kept, high⟩
    cases result with
    | none => exact kept
    | some current =>
      have high := high current rfl
      exact ((stable.appendBlock linked high _).bind fun _ => ih current fun _ => high) m₁ kept

theorem scan (p : DirEntry → Bool) (dirs : List (Fin secDirCount)) : Keeps I (onDevice (scan p dirs)) :=
  stable.device fun _ => scan_shows p dirs

theorem selectEntry (filename : String) : Keeps I (selectEntry filename) := by
  refine (stable.scan _ _).bindOption ?_ fun _ => pure _
  exact (stable.scan _ _).bindOption (throw _) fun _ => pure _

theorem modifySlot (slot : Slot) (f : Block → Block) : Keeps I (onCache (BufferCache.modifyBlock slot.sector f)) :=
  stable.modifyBlock slot.sector_bounds.1 f

theorem writeFile (filename : String) (data : List UInt8) : Keeps I (writeFile filename data) := by
  refine (stable.selectEntry filename).bind fun slot => ?_
  refine (stable.writeChain data 0 0 fun nonzero => absurd rfl nonzero).bind fun head => ?_
  exact stable.modifySlot slot _

theorem sync : Keeps I sync := stable.bitmap.bind fun _ => stable.flush

theorem listFrom (dirs : List (Fin secDirCount)) : ∀ empty, Keeps I (listFrom empty dirs) := by
  induction dirs with
  | nil => exact fun _ => pure _
  | cons i rest ih =>
    intro empty
    refine (stable.readMut (by omega)).attempt.bindOption (pure _) fun buf => ?_
    dsimp only
    split
    · split
      · exact pure _
      · exact ih _
    · exact (ih 0).bind fun _ => pure _

theorem mkdir (path : String) : Keeps I (mkdir path) :=
  (stable.scan _ _).bindOption (stable.writeFile _ _) fun _ => throw _

theorem checkChildren (path : String) : Keeps I (checkChildren path) := by
  rw [FileSystemState.checkChildren]
  split
  · refine (stable.listFrom _ 0).bind fun files => ?_
    split
    · exact pure _
    · exact throw _
  · exact pure _

theorem remove (path : String) : Keeps I (remove path) := by
  refine (stable.scan _ _).bindOption (throw _) fun slot => ?_
  refine (stable.checkChildren path).bind fun _ => (stable.modifySlot slot _).bind fun _ => ?_
  exact stable.flush.bind fun _ => pure _

theorem pathExists (path : String) : Keeps I (pathExists path) := by
  rw [FileSystemState.pathExists]
  split
  · exact pure _
  · refine (stable.scan _ _).bindOption ?_ fun _ => pure _
    dsimp only
    split
    · exact pure _
    · exact (stable.scan _ _).bindOption ((stable.listFrom _ 0).bind fun _ => pure _) fun _ => pure _

end Stable

/-! ## Reached states -/

/-- The calls of `FileSystemState`. -/
inductive FsCall where
  | readFile (path : String)
  | writeFile (path : String) (data : List UInt8)
  | listDir (path : String)
  | mkdir (path : String)
  | remove (path : String)
  | pathExists (path : String)
  | sync

def FsCall.exec : FsCall → FsM Unit
  | readFile path => do
    let _ ← onDevice (FileSystemState.readFile path)
  | writeFile path data => FileSystemState.writeFile path data
  | listDir path => do
    let _ ← FileSystemState.listDir path
  | mkdir path => FileSystemState.mkdir path
  | remove path => FileSystemState.remove path
  | pathExists path => do
    let _ ← FileSystemState.pathExists path
  | sync => do
    let _ ← FileSystemState.sync

variable {I : FsMem → Prop} {m : FsMem} {image : Nat → Block}

/-- **Every call keeps a stable invariant.** -/
theorem Stable.call (stable : Stable I) (call : FsCall) : Keeps I call.exec := by
  cases call with
  | readFile path => exact (stable.device fun _ => readFile_shows path).bind fun _ => pure _
  | writeFile path data => exact stable.writeFile path data
  | listDir path => exact (stable.listFrom _ 0).bind fun _ => pure _
  | mkdir path => exact stable.mkdir path
  | remove path => exact stable.remove path
  | pathExists path => exact (stable.pathExists path).bind fun _ => pure _
  | sync => exact stable.sync.bind fun _ => pure _

/-- The loop of `write_file`, started in `m` with `data`, is about to write `remaining` behind
the block `prev`. -/
inductive Writing (data : List UInt8) (m : FsMem) : List UInt8 → UInt32 → UInt32 → FsMem → Prop where
  | start : Writing data m data 0 0 m
  | round {remaining : List UInt8} {head prev current : UInt32} {m₁ m₂ m₃ : FsMem} :
      Writing data m remaining head prev m₁ → remaining ≠ [] → FileSystemState.allocBlock m₁ = .ok (some current) m₂ →
      FileSystemState.appendBlock prev current (patch zeroBlock 4 (remaining.take (min remaining.length 508))) m₂ =
      .ok () m₃ →
      Writing data m (remaining.drop (min remaining.length 508)) (if head == 0 then current else head) current m₃

/-- A filesystem in memory over a device that held `image` when it was first mounted: after a
mount, after any call, inside `write_file`, and after a reboot. -/
inductive Reached (image : Nat → Block) : FsMem → Prop where
  | mount {dev dev' : BlockDev} {fs : FileSystemState} {counter : Nat} : dev.disk = image →
      FileSystemState.init dev = .ok (some fs) dev' → Reached image ⟨fs, dev', counter⟩
  | call {m m' : FsMem} (call : FsCall) : Reached image m → Leaves call.exec m m' → Reached image m'
  | inside {m m₁ m' : FsMem} {filename : String} {data remaining : List UInt8} {slot : Slot} {head prev : UInt32} :
      Reached image m → FileSystemState.selectEntry filename m = .ok slot m₁ → Writing data m₁ remaining head prev m' →
      Reached image m'
  | reboot {m : FsMem} {dev dev' : BlockDev} {fs : FileSystemState} {counter : Nat} : Reached image m →
      dev.disk = m.disk →
      FileSystemState.init dev = .ok (some fs) dev' → Reached image ⟨fs, dev', counter⟩

/-- `init` only reads, and takes the bitmap from the device. -/
theorem FileSystemState.init_reads (dev : BlockDev) :
    wp init (fun result after => after.disk = dev.disk ∧ ∀ fs, result = some fs →
      fs = ⟨dev.disk secMapStart, false, new⟩) (fun _ _ => False) dev := by
  rw [init, wp_bind, wp_attempt]
  apply wp_mono (readSector_spec secSuper dev)
  · rintro _ dev₁ ⟨-, untouched⟩
    dsimp only
    split
    · refine ⟨untouched.disk, fun fs found => ?_⟩
      cases found
    · rw [wp_bind, wp_attempt]
      apply wp_mono (readSector_spec secMapStart dev₁)
      · rintro _ dev₂ ⟨rfl, later⟩
        refine ⟨later.disk.trans untouched.disk, fun fs found => ?_⟩
        rw [← Option.some.inj found, untouched.disk]
      · rintro _ dev₂ ⟨-, later, -⟩
        refine ⟨later.disk.trans untouched.disk, fun fs found => ?_⟩
        cases found
  · rintro _ dev₁ ⟨-, untouched, -⟩
    refine ⟨untouched.disk, fun fs found => ?_⟩
    cases found

/-- A mount starts a lineage. -/
theorem Lineage.of_init {dev dev' : BlockDev} {fs : FileSystemState} {counter : Nat}
    (init : init dev = .ok (some fs) dev')
    (disk : ∀ s, s < secDirStart → s ≠ secMapStart → dev.disk s = image s)
    (reserved : ∀ k, k < secDataStart → marked (dev.disk secMapStart) k = true) :
    Lineage image ⟨fs, dev', counter⟩ := by
  obtain ⟨same, reads⟩ := wp_of_ok (init_reads dev) init
  obtain rfl := reads fs rfl
  constructor
  · exact fun s _ => Std.TreeMap.getElem?_emptyc
  · intro s low other
    exact (congrFun same s).trans (disk s low other)
  · intro k on
    change marked (dev'.disk secMapStart) k = true at on
    rwa [same] at on
  · intro k low
    change marked (dev'.disk secMapStart) k = true
    rw [same]
    exact reserved k low

theorem Stable.writing (stable : Stable I) {data remaining : List UInt8} {head prev : UInt32} {m' : FsMem}
    (start : I m) (writing : Writing data m remaining head prev m') : I m' ∧ (prev ≠ 0 → secDirStart ≤ prev.toNat) := by
  induction writing with
  | start => exact ⟨start, fun nonzero => absurd rfl nonzero⟩
  | round before more allocated appended ih =>
    obtain ⟨kept, linked⟩ := ih
    obtain ⟨kept, high⟩ := wp_of_ok (stable.allocate kept) allocated
    have high := high _ rfl
    exact ⟨(stable.appendBlock linked high _).leaves kept (Or.inl ⟨_, appended⟩), fun _ => high⟩

/-- An invariant that the steps keep holds in every reached state when it holds after each mount. -/
theorem Reached.induct (stable : Stable I)
    (mounted : ∀ {dev dev' : BlockDev} {fs : FileSystemState} {counter : Nat}, dev.disk = image →
      init dev = .ok (some fs) dev' → I ⟨fs, dev', counter⟩)
    (again : ∀ {m : FsMem} {dev dev' : BlockDev} {fs : FileSystemState} {counter : Nat}, I m → dev.disk = m.disk →
      init dev = .ok (some fs) dev' → I ⟨fs, dev', counter⟩)
    (reached : Reached image m) : I m := by
  induction reached with
  | mount same init => exact mounted same init
  | call call _ left ih => exact (stable.call call).leaves ih left
  | inside _ selected writing ih =>
    have kept := wp_of_ok (stable.selectEntry _ _ ih) selected
    exact (stable.writing kept writing).1
  | reboot _ same init ih => exact again ih same init

/-! ## Coherence of reached states -/

/-- The lineage of the image and a coherent cache. -/
structure Sound (image : Nat → Block) (m : FsMem) : Prop where
  lineage : Lineage image m
  coherent : m.mem.Coherent

namespace Sound

variable {image : Nat → Block}

theorem keeps {α : Type} {x : FsM α} (lineage : Keeps (Lineage image) x)
    (coherent : ∀ m, Sound image m → wp x (fun _ m' => m'.mem.Coherent) (fun _ m' => m'.mem.Coherent) m) :
    Keeps (Sound image) x := by
  intro m start
  apply wp_mono (wp_and (lineage m start.lineage) (coherent m start))
  · exact fun _ _ both => ⟨both.1, both.2⟩
  · exact fun _ _ both => ⟨both.1, both.2⟩

theorem onCache {α : Type} {x : CacheM α} (spares : ∀ disk, Keeps (CacheMem.Spares disk) x)
    (coherent : Keeps CacheMem.Coherent x) : Keeps (Sound image) (Fs.onCache x) := by
  apply keeps (Lineage.onCache spares)
  intro m start
  rw [Fs.onCache, wp_zoom]
  exact coherent m.mem start.coherent

theorem coherent_of_disk {m m' : FsMem} (coherent : m.mem.Coherent) (cache : m'.fs.cache = m.fs.cache)
    (disk : ∀ s entry, m.fs.cache.blocks[s]? = some entry → m'.disk s = m.disk s) : m'.mem.Coherent := by
  constructor
  · have bounded := coherent.bounded
    simp only [FsMem.mem, cache] at ⊢
    exact bounded
  · intro s entry cached clean
    simp only [FsMem.mem, cache] at cached
    refine (coherent.clean s entry cached clean).trans ?_
    exact (disk s entry cached).symm

theorem onDevice {α : Type} {x : DevM α} (shows : ∀ disk, Keeps (FileSystemState.Shows disk) x) :
    Keeps (Sound image) (Fs.onDevice x) := by
  apply keeps (Lineage.onDevice shows)
  intro m start
  have same : ∀ dev : BlockDev, dev.disk = m.disk → (FsMem.mem { m with dev := dev }).Coherent := by
    intro dev disk
    exact coherent_of_disk start.coherent rfl fun s _ _ => congrFun disk s
  rw [Fs.onDevice, wp_zoom]
  exact wp_mono (shows m.disk m.dev rfl) (fun _ dev kept => same dev kept) fun _ dev kept => same dev kept

theorem modifyBlock_coherent (f : Block → Block) : Keeps CacheMem.Coherent (modifyBlock sector f) := by
  intro m start
  rw [modifyBlock, wp_bind]
  apply wp_mono (readMut_spec start sector)
  · rintro _ _ ⟨-, loaded⟩
    exact wp_mono (edit_mark_spec loaded.kept.coherent loaded.cached f) (fun _ _ done => done.1.coherent)
      fun _ _ failure => failure
  · exact fun _ _ refused => refused.2.1.coherent

/-- The first bitmap sector is not cached, so writing it leaves the cache coherent. -/
theorem syncBitmap : Keeps (Sound image) FileSystemState.syncBitmap := by
  apply keeps Lineage.syncBitmap
  intro m start
  rw [FileSystemState.syncBitmap, wp_bind, wp_get]
  split
  · rw [wp_bind, Fs.onDevice, wp_zoom]
    apply wp_mono (writeSector_spec secMapStart m.fs.bitmapCache m.dev)
    · rintro _ dev ⟨written, -⟩
      refine coherent_of_disk start.coherent rfl fun s entry cached => ?_
      have other : s ≠ secMapStart := by
        rintro rfl
        rw [start.lineage.uncached secMapStart (by decide)] at cached
        cases cached
      change dev.disk s = m.disk s
      rw [written, Function.update_of_ne other]
      rfl
    · rintro _ dev ⟨-, untouched, -⟩
      exact coherent_of_disk start.coherent rfl fun s _ _ => congrFun untouched.disk s
  · exact start.coherent

theorem allocBlock {m : FsMem} (start : Sound image m) :
    wp FileSystemState.allocBlock (fun result m' => Sound image m' ∧ ∀ b, result = some b → secDirStart ≤ b.toNat)
      (fun _ m' => Sound image m') m := by
  have lineage : wp FileSystemState.allocBlock _ (fun _ _ => False) m := start.lineage.allocBlock
  have taken : wp FileSystemState.allocBlock _ (fun _ _ => False) m := allocBlock_spec
  apply wp_mono (wp_and lineage taken)
  · rintro result m' ⟨⟨kept, high⟩, step⟩
    refine ⟨⟨kept, ?_⟩, high⟩
    cases result with
    | none => exact step.1 ▸ start.coherent
    | some block => exact step.2.2 ▸ start.coherent
  · exact fun _ _ never => never.1.elim

/-- **The steps of the calls keep both.** -/
theorem stable (image : Nat → Block) : Stable (Sound image) where
  device := onDevice
  readMut high := onCache (fun _ => readMut_spares high) fun _ start =>
    wp_mono (readMut_spec start _) (fun _ _ done => done.2.kept.coherent) fun _ _ refused => refused.2.1.coherent
  modifyBlock high f := onCache (fun _ => modifyBlock_spares high f) (modifyBlock_coherent _ f)
  write high data := onCache (fun _ => write_spares high data) fun _ start =>
    wp_mono (write_spec start _ data) (fun _ _ done => done.coherent) fun _ _ refused => refused.2.1.coherent
  flush := onCache (fun _ => sync_spares) fun _ start =>
    wp_mono (sync_spec start) (fun _ _ done => done.1.coherent) fun _ _ refused => refused.2.1.coherent
  bitmap := syncBitmap
  allocate := allocBlock

end Sound

theorem coherent_of_init {dev dev' : BlockDev} {fs : FileSystemState} {counter : Nat}
    (init : init dev = .ok (some fs) dev') : (FsMem.mem ⟨fs, dev', counter⟩).Coherent := by
  obtain ⟨-, reads⟩ := wp_of_ok (init_reads dev) init
  obtain rfl := reads fs rfl
  exact CacheMem.coherent_initial dev' counter

/-- **Every reached state has the lineage of its image and a coherent cache.** -/
theorem Reached.sound (reached : Reached image m)
    (reserved : ∀ k, k < secDataStart → marked (image secMapStart) k = true) : Sound image m := by
  apply reached.induct (Sound.stable image)
  · intro dev dev' fs counter same init
    refine ⟨Lineage.of_init init (fun s _ _ => congrFun same s) ?_, coherent_of_init init⟩
    rw [same]
    exact reserved
  · intro m dev dev' fs counter kept same init
    refine ⟨Lineage.of_init init (fun s low other => ?_) ?_, coherent_of_init init⟩
    · exact (congrFun same s).trans (kept.lineage.disk s low other)
    · rw [same]
      exact kept.lineage.reserved

theorem Reached.lineage (reached : Reached image m)
    (reserved : ∀ k, k < secDataStart → marked (image secMapStart) k = true) : Lineage image m :=
  (reached.sound reserved).lineage

end HavyOs.Fs
