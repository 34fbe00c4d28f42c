import HavyOs.Mkfs.Agreement
import HavyOs.Mkfs.Layout
import HavyOs.Fs.Lineage

/-!
# Allocation over the whole image

`alloc_block` against the image: what it returns should be free and inside the image, and it should
fail only when the bitmap on the disk has no free sector left. It scans the first bitmap sector,
which has a bit for each of 4096 sectors however many the superblock records.
-/

namespace HavyOs.Mkfs

open HavyOs.Lib HavyOs.Fs FileSystemState

/-- The number of sectors the superblock records. -/
def sectorCount (disk : Nat → Block) : Nat := (fromLeBytes (slice (disk Fs.secSuper) 4 4)).toNat

/-- Sector `s` has a bit in the bitmap on the disk, and it is clear. -/
def FreeOn (disk : Nat → Block) (s : Nat) : Prop := s < mapBits ∧ bitOn disk s = false

/-- `alloc_block` in the state `m` treats the image as a whole. -/
structure AllocCovers (m : FsMem) : Prop where
  inside : ∀ s m', FileSystemState.allocBlock m = .ok (some s) m' →
    marked m.fs.bitmapCache s.toNat = false ∧ FreeOn m.disk s.toNat ∧ s.toNat < sectorCount m.disk
  full : ∀ m', FileSystemState.allocBlock m = .ok none m' →
    ∀ s, Fs.secDataStart ≤ s → s < sectorCount m.disk → ¬ FreeOn m.disk s

/-! ## Superblock and bitmap of any image -/

/-- The superblock and the bitmap of an image, however many files there are. -/
structure Mapped (args : Args) (files : List SourceFile) (disk : Nat → Block) : Prop where
  superblock : disk 0 = patch zeroBlock 0 (toLeBytes magic ++ toLeBytes args.totalSectors.toUInt32)
  mapped : endOf files ≤ mapBits
  bits : ∀ {k}, k < mapBits → bitOn disk k = decide (k < endOf files)

theorem Added.superblock {idx : Nat} {file : SourceFile} {start : Nat} {s mid s' : Builder}
    (h : Added idx file start s mid s') (low : secDataStart ≤ start) : s'.file.disk 0 = s.file.disk 0 := by
  have behind : 512 ≤ entryOffset idx := by
    simp only [entryOffset, secDirStart, sectorSize, entriesPerSector]
    omega
  calc s'.file.disk 0 = mid.file.disk 0 := by
        unfold ImageFile.disk
        rw [h.entry.bytes, window_overwrite_apart _ (by omega)]
    _ = s.file.disk 0 := h.stored.frame 0 (Or.inl (by simp only [secDataStart] at low; omega))

theorem build_mapped (args : Args) (files : List SourceFile) (refuses : Nat → Bool) :
    wp (build args files) (fun _ s' => Mapped args files s'.file.disk) (fun _ _ => True) (start refuses) := by
  have rule := build_rule
    args refuses files (fun prepared => prepared.contains.superblock)
    fun before added => (added.superblock (Nat.le_add_right _ _)).trans before
  apply wp_mono rule _ (fun _ _ _ => trivial)
  rintro _ _ ⟨_, filled, superblock, put⟩
  exact ⟨(disk_of_bitmap put (Or.inl rfl)).trans superblock, filled.high, bitOn_filled put filled⟩

namespace Mapped

variable {args : Args} {files : List SourceFile} {image : Nat → Block}

theorem count (h : Mapped args files image) {disk : Nat → Block} (same : disk Fs.secSuper = image 0) :
    sectorCount disk = args.totalSectors.toUInt32.toNat := by
  have second := @slice_patch_inside UInt8 512 zeroBlock 0 4 4 (toLeBytes magic ++ toLeBytes args.totalSectors.toUInt32)
    (by simp) (by simp)
  rw [sectorCount, same, h.superblock, second, List.drop_left' (toLeBytes_length _),
    List.take_of_length_le (by simp), fromLeBytes_toLeBytes]

theorem reserved (h : Mapped args files image) {k : Nat} (small : k < Fs.secDataStart) :
    marked (image Fs.secMapStart) k = true := by
  have low : secDataStart ≤ endOf files := Nat.le_add_right _ _
  simp only [Fs.secDataStart, secDataStart] at small low
  have bit := h.bits (show k < mapBits by simp only [mapBits, secMapCount, sectorSize]; omega)
  rw [bitOn, show k / 4096 = 0 by omega, show k % 4096 = k by omega, Nat.add_zero] at bit
  rw [bit]
  exact decide_eq_true (by omega)

end Mapped

/-! ## The bitmap on the disk of a reached state -/

section State

variable {args : Args} {files : List SourceFile} {image : Nat → Block} {m : FsMem}

theorem bitOn_first {disk : Nat → Block} {s : Nat} (small : s < 4096) :
    bitOn disk s = marked (disk Fs.secMapStart) s := by
  rw [bitOn, show s / 4096 = 0 by omega, show s % 4096 = s by omega, Nat.add_zero]

theorem Mapped.bitOn_later (h : Mapped args files image) (lineage : Lineage image m) {s : Nat} (large : 4096 ≤ s)
    (mapped : s < mapBits) : bitOn m.disk s = decide (s < endOf files) := by
  have inside := mapped
  simp only [mapBits, secMapCount, sectorSize] at inside
  rw [← h.bits mapped, bitOn, bitOn, lineage.disk _ (by simp only [Fs.secMapStart, Fs.secDirStart]; omega) (by omega)]

theorem allocBlock_cases (m : FsMem) :
    (∃ k, k < 4096 ∧ marked m.fs.bitmapCache k = false ∧ (∀ j, j < k → marked m.fs.bitmapCache j = true) ∧
      allocBlock m = .ok (some (UInt32.ofNat k)) (m.marking k)) ∨
    ((∀ k, k < 4096 → marked m.fs.bitmapCache k = true) ∧ allocBlock m = .ok none m) := by
  cases found : firstFree m.fs.bitmapCache with
  | none =>
    refine Or.inr ⟨fun k small => firstFree_none found k small, ?_⟩
    simp only [allocBlock, bind, EStateM.bind, get, getThe, MonadStateOf.get]
    delta EStateM.get
    simp only [found]
    rfl
  | some k =>
    obtain ⟨bound, clear, before⟩ := firstFree_some found
    refine Or.inl ⟨k, bound, clear, before, ?_⟩
    simp only [allocBlock, bind, EStateM.bind, get, getThe, MonadStateOf.get]
    delta EStateM.get
    simp only [found]
    rfl

/-- A sector is free on the disk behind the first bitmap sector when the files of the image do
not reach it. -/
theorem Mapped.later_full_iff (h : Mapped args files image) (lineage : Lineage image m) (count : Nat) :
    (∀ s, 4096 ≤ s → s < count → ¬ FreeOn m.disk s) ↔ (4096 < count → min count mapBits ≤ endOf files) := by
  constructor
  · intro full large
    by_contra short
    have wide : 4096 < mapBits := by decide
    have last := full (min count mapBits - 1) (by omega) (by omega)
    apply last
    refine ⟨by omega, ?_⟩
    rw [h.bitOn_later lineage (by omega) (by omega)]
    exact decide_eq_false (by omega)
  · rintro _ s large _ ⟨mapped, clear⟩
    rw [h.bitOn_later lineage large mapped] at clear
    have := of_decide_eq_false clear
    omega

end State

/-- The image as far as `alloc_block` has to treat it right: a sector below the recorded count
has a clear bit in the bitmap in memory; or every bit there is set and on the device as well,
and the files of the image take all sectors behind the first 4096. -/
def InReach (count : Nat) (files : List SourceFile) (m : FsMem) : Prop :=
  (∃ s, s < 4096 ∧ s < count ∧ marked m.fs.bitmapCache s = false) ∨
  ((∀ s, s < 4096 → marked m.fs.bitmapCache s = true) ∧
    (∀ s, Fs.secDataStart ≤ s → s < 4096 → s < count → marked (m.disk Fs.secMapStart) s = true) ∧
    (4096 < count → min count mapBits ≤ endOf files))

theorem Mapped.covers_iff {args : Args} {files : List SourceFile} {image : Nat → Block} {m : FsMem}
    (mapped : Mapped args files image) (reached : Reached image m) :
    AllocCovers m ↔ InReach args.totalSectors.toUInt32.toNat files m := by
  have lineage := reached.lineage fun k small => mapped.reserved small
  have recorded := mapped.count (lineage.disk secSuper (by decide) (by decide))
  have later := mapped.later_full_iff lineage args.totalSectors.toUInt32.toNat
  rcases allocBlock_cases m with ⟨k, bound, clear, before, answer⟩ | ⟨set, answer⟩
  · have exact_k : (UInt32.ofNat k).toNat = k := by
      exact Nat.mod_eq_of_lt (by omega)
    constructor
    · intro covers
      have inside := (covers.inside _ _ answer).2.2
      rw [exact_k, recorded] at inside
      exact Or.inl ⟨k, bound, inside, clear⟩
    · rintro (⟨s, -, small, free⟩ | ⟨full, -⟩)
      · -- the scan returns the lowest clear bit
        have least : k ≤ s := by
          by_contra above
          rw [before s (by omega)] at free
          cases free
        refine ⟨fun b m' returns => ?_, fun m' returns => absurd (answer.symm.trans returns) (by simp)⟩
        rw [answer] at returns
        obtain rfl : UInt32.ofNat k = b := by injection returns with value; exact Option.some.inj value
        rw [exact_k]
        refine ⟨clear, ⟨Nat.lt_trans bound (by decide), ?_⟩, by omega⟩
        rw [bitOn_first bound]
        by_contra on
        rw [lineage.grown k (by simpa using on)] at clear
        cases clear
      · rw [full k bound] at clear
        cases clear
  · constructor
    · intro covers
      have full := covers.full m answer
      rw [recorded] at full
      refine Or.inr ⟨set, fun s inData small below => ?_, later.mp fun s large below => full s ?_ below⟩
      · by_contra off
        refine full s inData below ⟨Nat.lt_trans small (by decide), ?_⟩
        rw [bitOn_first small]
        simpa using off
      · simp only [Fs.secDataStart]
        omega
    · rintro (⟨s, small, -, free⟩ | ⟨-, first, rest⟩)
      · rw [set s small] at free
        cases free
      · refine ⟨fun b m' returns => absurd (answer.symm.trans returns) (by simp), fun m' _ s inData below => ?_⟩
        rw [recorded] at below
        by_cases small : s < 4096
        · rintro ⟨-, off⟩
          rw [bitOn_first small, first s inData small below] at off
          cases off
        · exact later.mpr rest s (by omega) below

/-- **`alloc_block` treats the image as a whole** exactly while the image is in its reach. -/
theorem alloc_covers_iff {args : Args} {host : Host} {refuses : Nat → Bool} {count : Nat} {image : Builder}
    (returned : main args host (start refuses) = .ok count image) :
    ∃ files, selected args host = .ok files ∧ ∀ m, Reached image.file.disk m →
      (AllocCovers m ↔ InReach args.totalSectors.toUInt32.toNat files m) := by
  obtain ⟨files, choice, built⟩ := main_returns returned
  have mapped := wp_of_ok (build_mapped args files refuses) built
  exact ⟨files, choice, fun m reached => mapped.covers_iff reached⟩

/-! ## Two images -/

theorem Mapped.mounts {args : Args} {files : List SourceFile} {image : Nat → Block} (mapped : Mapped args files image) :
    ∃ m, Reached image m ∧ m.disk = image ∧ m.fs.bitmapCache = image Fs.secMapStart := by
  have superblock : fromLeBytes (slice (image Fs.secSuper) 0 4) = magic := by
    rw [Fs.secSuper, mapped.superblock]
    exact superblock_magic _
  obtain ⟨_, dev', init, rfl, untouched⟩ := wp_returns (@init_spec ⟨image, fun _ => false, 0⟩
    (fun _ => rfl) superblock _)
  exact ⟨⟨_, dev', 0⟩, Reached.mount rfl init, untouched.disk, rfl⟩

theorem oneFile_mounted (size : UInt64) {data : List UInt8} (fits : endOf [("big", data)] ≤ mapBits) :
    ∃ count image m, mkfs size (oneFileHost data) = .ok count image ∧
      Mapped ⟨some ["src"], size⟩ [("big", data)] image.file.disk ∧ Reached image.file.disk m ∧
      m.disk = image.file.disk ∧ m.fs.bitmapCache = image.file.disk Fs.secMapStart := by
  obtain ⟨count, image, returned, -⟩ := oneFile_image size fits
  obtain ⟨files, choice, built⟩ := main_returns returned
  obtain rfl : [("big", data)] = files := Except.ok.inj choice
  have mapped := wp_of_ok (build_mapped _ _ fun _ => false) built
  obtain ⟨m, reached, disk, cache⟩ := mapped.mounts
  exact ⟨count, image, m, returned, mapped, reached, disk, cache⟩

/-- A small file in an image of one megabyte. -/
theorem alloc_covers_iff_small : ∃ count image m,
    mkfs 1 (oneFileHost [1]) = .ok count image ∧ Reached image.file.disk m ∧
      AllocCovers m := by
  obtain ⟨count, image, m, returned, mapped, reached, disk, cache⟩ := @oneFile_mounted 1 [1] (by decide)
  obtain ⟨_, _, covers⟩ := alloc_covers_iff returned
  refine ⟨count, image, m, returned, reached, (covers m reached).mpr (Or.inl ⟨130, by decide, by decide, ?_⟩)⟩
  rw [cache, ← bitOn_first (by decide), mapped.bits (by decide)]
  decide

/-- An image of four megabytes with a file that takes the sectors 129 to 4095. -/
theorem oneFile_unreached {data : List UInt8} (long : data.length = 3967 * 508) : ∃ count image m,
    mkfs 4 (oneFileHost data) = .ok count image ∧ Reached image.file.disk m ∧
      allocBlock m = .ok none m ∧ 4096 < sectorCount m.disk ∧ FreeOn m.disk 4096 := by
  have blocks : endOf [("big", data)] = 4096 := by rw [endOf, totalBlocks_singleton, long, blocksFor]
  obtain ⟨count, image, m, returned, mapped, reached, disk, cache⟩ := @oneFile_mounted 4 data (by rw [blocks]; decide)
  have first : ∀ k, k < 4096 → marked m.fs.bitmapCache k = true := by
    intro k small
    rw [cache, ← bitOn_first small, mapped.bits (Nat.lt_trans small (by decide)), blocks]
    exact decide_eq_true small
  have answer : allocBlock m = .ok none m := by
    rcases allocBlock_cases m with ⟨k, bound, clear, -⟩ | ⟨-, answer⟩
    · rw [first k bound] at clear
      cases clear
    · exact answer
  refine ⟨count, image, m, returned, reached, answer, ?_, by decide, ?_⟩
  · rw [mapped.count (congrFun disk secSuper)]
    decide
  · rw [disk, mapped.bits (by decide), blocks]
    decide

/-- Half of that image is free, and `alloc_block` returns nothing. -/
theorem alloc_misses_sector : ∃ count image m,
    mkfs 4 (oneFileHost (List.replicate (3967 * 508) 0)) = .ok count image ∧
      Reached image.file.disk m ∧ ¬ AllocCovers m := by
  obtain ⟨count, image, m, returned, reached, answer, inside, free⟩ := oneFile_unreached List.length_replicate
  exact ⟨count, image, m, returned, reached, fun covers => covers.full m answer 4096 (by decide) inside free⟩

end HavyOs.Mkfs
