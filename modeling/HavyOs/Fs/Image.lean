import HavyOs.Fs.Write

/-!
# Valid images and mounting

What `init` finds on the device. The bitmap is in sectors 1 to 64, one bit for each
sector of the disk; a valid image marks the sectors in front of the data area and
every block of every file, and no two entries share a name or a block. Only the first
bitmap sector is in memory, so the kernel allocates sectors below 4096 while the chains
of an image may run through sectors above.
-/

namespace HavyOs.Fs

open HavyOs.Lib FileSystemState

variable (disk : Nat → Block)

def bitOn (k : Nat) : Bool := marked (disk (secMapStart + k / 4096)) (k % 4096)

/-- Sector `k` lies in the data area and the bitmap on the disk marks it. -/
structure Allocated (disk : Nat → Block) (k : Nat) : Prop where
  inData : secDataStart ≤ k
  mapped : k < 64 * 4096
  bit : bitOn disk k = true

/-- `blocks` is the chain of `e` and is long enough for its size. -/
structure Chain (disk : Nat → Block) (e : DirEntry) (blocks : List UInt32) : Prop where
  linked : Linked disk e.head blocks
  covers : e.size.toNat ≤ 508 * blocks.length

/-- Every entry has a chain through blocks of `inUse`. -/
def Intact (inUse : Nat → Prop) : Prop :=
  ∀ slot, (entryOn disk slot).used = true →
    ∃ blocks, Chain disk (entryOn disk slot) blocks ∧ ∀ s ∈ sectors blocks, inUse s

def Distinct : Prop :=
  ∀ s t : Slot, (entryOn disk s).used = true → (entryOn disk t).used = true →
    (entryOn disk s).rawName = (entryOn disk t).rawName → s = t

structure ValidImage (disk : Nat → Block) : Prop where
  magic : fromLeBytes (slice (disk secSuper) 0 4) = Fs.magic
  reserved : ∀ k, k < secDataStart → bitOn disk k = true
  intact : Intact disk (Allocated disk)
  distinct : Distinct disk
  disjoint : ∀ (s t : Slot) (blocks blocks' : List UInt32), s ≠ t → (entryOn disk s).used = true →
    (entryOn disk t).used = true → Linked disk (entryOn disk s).head blocks →
    Linked disk (entryOn disk t).head blocks' →
    ∀ b ∈ blocks, b ∉ blocks'

variable {disk disk' : Nat → Block}

theorem Chain.frame {e : DirEntry} {blocks : List UInt32} (h : Chain disk e blocks)
    (agree : ∀ s ∈ sectors blocks, disk' s = disk s) : Chain disk' e blocks :=
  ⟨h.linked.frame fun b member => agree _ (mem_sectors.mpr ⟨b, member, rfl⟩), h.covers⟩

theorem Intact.frame {inUse inUse' : Nat → Prop} (h : Intact disk inUse)
    (entries : ∀ slot, entryOn disk' slot = entryOn disk slot) (agree : ∀ s, inUse s → disk' s = disk s)
    (mono : ∀ s, inUse s → inUse' s) : Intact disk' inUse' := by
  intro slot used
  rw [entries] at used ⊢
  obtain ⟨blocks, chain, inside⟩ := h slot used
  exact ⟨blocks, chain.frame fun s member => agree s (inside s member), fun s member => mono s (inside s member)⟩

/-- The blocks that are linked from an entry are in use. -/
theorem Intact.linked {inUse : Nat → Prop} (h : Intact disk inUse) {slot : Slot}
    (used : (entryOn disk slot).used = true) {blocks : List UInt32}
    (linked : Linked disk (entryOn disk slot).head blocks) {b : UInt32} (member : b ∈ blocks) : inUse b.toNat := by
  obtain ⟨_, chain, inside⟩ := h slot used
  rw [← chain.linked.unique linked] at member
  exact inside _ (mem_sectors.mpr ⟨b, member, rfl⟩)

theorem Distinct.frame (h : Distinct disk)
    (entries : ∀ slot, entryOn disk' slot = entryOn disk slot) : Distinct disk' := by
  intro s t
  simp only [entries]
  exact h s t

/-! ## An empty image -/

def blankBitmap : Block := markBelow zeroBlock secDataStart

/-- An image without files: a superblock, the bitmap, and zeroes. -/
def blankImage (sector : Nat) : Block :=
  if sector = secSuper then patch zeroBlock 0 (toLeBytes Fs.magic)
  else if sector = secMapStart then blankBitmap
  else zeroBlock

theorem blankImage_unused (slot : Slot) : (entryOn blankImage slot).used = false := by
  have bounds := slot.sector_bounds
  have zero : blankImage slot.sector = zeroBlock := by
    rw [blankImage, if_neg (by rw [secSuper]; omega), if_neg (by rw [secMapStart]; omega)]
  rw [entryOn, zero, DirEntry.used]
  simp [entryAt, zeroBlock]

theorem blankImage_valid : ValidImage blankImage := by
  have unused : ∀ {slot} {P : Prop}, (entryOn blankImage slot).used = true → P := by
    intro slot P used
    rw [blankImage_unused] at used
    cases used
  refine ⟨?_, fun k small => ?_, fun slot used => unused used, fun s t used => unused used,
    fun s t _ _ _ used => unused used⟩
  · have whole : slice (patch zeroBlock 0 (toLeBytes magic)) 0 (toLeBytes magic).length = toLeBytes magic :=
      slice_patch_self _ (by decide)
    rw [toLeBytes_length] at whole
    rw [blankImage, if_pos rfl, whole, fromLeBytes_toLeBytes]
  · have first : k / 4096 = 0 ∧ k % 4096 = k := by
      simp only [secDataStart] at small
      omega
    rw [bitOn, first.1, first.2, Nat.add_zero, blankImage, if_neg (by decide), if_pos rfl, blankBitmap,
      marked_markBelow _ _ (by decide)]
    simpa using Or.inr small

theorem freeCount_blankBitmap : freeCount blankBitmap = 3967 := by
  have total := @freeCount_markBelow_zero 512 129 (by decide)
  unfold blankBitmap zeroBlock secDataStart
  omega

/-! ## Mounting -/

/-- The state right after `init` on a valid image. -/
structure Mounted (m : FsMem) : Prop where
  valid : ValidImage m.disk
  reliable : m.dev.Reliable
  fs : m.fs = ⟨m.disk secMapStart, false, BufferCache.new⟩

/-- A device with a superblock is mounted with its first bitmap sector and an empty cache. -/
theorem FileSystemState.init_spec {dev : BlockDev} (reliable : dev.Reliable)
    (superblock : fromLeBytes (slice (dev.disk secSuper) 0 4) = Fs.magic) {E : String → BlockDev → Prop} :
    wp init (fun fs after => fs = some ⟨dev.disk secMapStart, false, BufferCache.new⟩ ∧ BlockDev.Untouched dev after)
      E dev := by
  rw [init, wp_bind, wp_attempt]
  apply wp_imp (BlockDev.readSector_reliable reliable _)
  rintro buf _ ⟨rfl, untouched⟩
  simp only [superblock, bne_self_eq_false, Bool.false_eq_true, if_false, wp_bind, wp_attempt]
  apply wp_imp (BlockDev.readSector_reliable (untouched.reliable reliable) _)
  rintro buf _ ⟨rfl, later⟩
  rw [untouched.disk]
  exact ⟨rfl, untouched.trans later⟩

theorem mounted_of_init {dev dev' : BlockDev} {fs : FileSystemState} (reliable : dev.Reliable)
    (valid : ValidImage dev.disk) (run : init dev = .ok (some fs) dev') (counter : Nat) :
    Mounted ⟨fs, dev', counter⟩ := by
  have spec := init_spec reliable valid.magic (E := fun _ _ => False)
  obtain ⟨same, untouched⟩ := wp_of_ok spec run
  refine ⟨?_, untouched.reliable reliable, ?_⟩
  · rw [FsMem.disk, untouched.disk]
    exact valid
  · rw [Option.some.inj same, FsMem.disk, untouched.disk]

/-- The sectors the filesystem in memory regards as taken. -/
def FsMem.inUse (m : FsMem) : Nat → Prop := Allocated (Function.update m.disk secMapStart m.fs.bitmapCache)

namespace Mounted

variable {m : FsMem}

variable (h : Mounted m)

include h

theorem mem : m.mem = CacheMem.initial m.dev m.counter := by
  rw [FsMem.mem, h.fs]
  rfl

theorem uncached (s : Nat) : ¬ m.mem.Cached s := by
  rw [h.mem]
  simp [CacheMem.Cached, CacheMem.initial, BufferCache.new]

theorem view : m.view = m.disk := by
  funext s
  exact CacheMem.view_of_uncached (CacheMem.not_cached_iff.mp (h.uncached s))

theorem clean : m.mem.Clean := by
  rintro s ⟨entry, cached, -⟩
  exact h.uncached s (CacheMem.cached_iff.mpr ⟨entry, cached⟩)

theorem bitmap : m.fs.bitmapCache = m.disk secMapStart := congrArg bitmapCache h.fs

theorem inUse : m.inUse = Allocated m.disk := by
  rw [FsMem.inUse, h.bitmap, Function.update_eq_self]

theorem ready : Ready m := by
  refine ⟨?_, h.reliable, fun k small => ?_⟩
  · rw [h.mem]
    exact CacheMem.coherent_initial _ _
  · have bit := h.valid.reserved k small
    simp only [secDataStart] at small
    rw [bitOn, show k / 4096 = 0 by omega, show k % 4096 = k by omega] at bit
    rw [h.bitmap]
    exact bit

end Mounted

end HavyOs.Fs
