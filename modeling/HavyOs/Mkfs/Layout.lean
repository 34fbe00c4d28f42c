import HavyOs.Mkfs.Passes

/-!
# `mkfs` and its layout

The directory index and the data sectors grow independently of each other and of the size asked for:
the index is never compared with the 448 places of the directory, and the bitmap covers 128
megabytes whatever the image. The log of an image says where every stretch was written.
-/

namespace HavyOs.Mkfs

open HavyOs.Lib HavyOs.Fs List

/-- The stretch belongs to a file or to its entry. -/
def Owner.ofFile : Owner → Bool
  | data _ => true
  | entry _ => true
  | superblock => false
  | bitmap => false

def Stretch.Apart (w v : Stretch) : Prop := w.start + w.length ≤ v.start ∨ v.start + v.length ≤ w.start

/-- Entries are written in the directory sectors, blocks behind them and in the image, and
what was written for a file or an entry is not overwritten later for another. -/
structure InsideLayout (totalSectors : Nat) (log : List Stretch) : Prop where
  entries : ∀ w ∈ log, ∀ i, w.owner = .entry i → 65 * 512 ≤ w.start ∧ w.start + w.length ≤ 129 * 512
  blocks : ∀ w ∈ log, ∀ i, w.owner = .data i → 129 * 512 ≤ w.start ∧ w.start + w.length ≤ totalSectors * 512
  kept : log.Pairwise fun later earlier => earlier.owner.ofFile = true → later.owner ≠ earlier.owner →
    later.Apart earlier

/-- Where the stretches of each owner lie when `files` are imported. -/
def Placed (files : List SourceFile) (w : Stretch) : Prop :=
  match w.owner with
  | .superblock => w.start + w.length ≤ 8
  | .bitmap => 512 ≤ w.start ∧ w.start + w.length ≤ 65 * 512
  | .entry i => i < files.length ∧ entryOffset i ≤ w.start ∧ w.start + w.length ≤ entryOffset i + 72
  | .data i => (i < files.length ∧ startOf files i < startOf files (i + 1)) ∧
      startOf files i * 512 ≤ w.start ∧ w.start + w.length ≤ startOf files (i + 1) * 512

/-- The log of the import of `files`. -/
structure Recorded (files : List SourceFile) (log : List Stretch) : Prop where
  placed : ∀ w ∈ log, Placed files w
  entries : ∀ i, i < files.length → ∃ w ∈ log, w.owner = .entry i ∧ w.start = entryOffset i ∧ 0 < w.length
  last : totalBlocks files ≠ 0 → ∃ w ∈ log, (∃ i, w.owner = .data i) ∧ w.start + w.length = endOf files * 512

variable {files : List SourceFile} {i : Nat}

theorem Placed.snoc {w : Stretch} (h : Placed files w) (file : SourceFile) : Placed (files ++ [file]) w := by
  unfold Placed at h ⊢
  cases owner : w.owner with
  | superblock => simpa only [owner] using h
  | bitmap => simpa only [owner] using h
  | entry i =>
    simp only [owner, length_append] at h ⊢
    exact ⟨by omega, h.2⟩
  | data i =>
    simp only [owner, length_append] at h ⊢
    rw [startOf_append files file (by omega), startOf_append files file (by omega)]
    exact ⟨⟨by omega, h.1.2⟩, h.2⟩

/-- **The import step.** Adding a file adds its blocks and its entry to the log. -/
theorem Recorded.add {file : SourceFile} {s mid s' : Builder} (h : Recorded files s.file.log)
    (added : Added files.length file (endOf files) s mid s') : Recorded (files ++ [file]) s'.file.log := by
  have length : (entryFor file (endOf files)).bytes.length = 72 := DirEntry.bytes_length _
  obtain ⟨entries, le⟩ := added.entry.logged
  rw [length] at le
  have newStart : startOf (files ++ [file]) files.length = endOf files := by
    rw [startOf_append files file (Nat.le_refl _), startOf_length files (Nat.le_refl _)]
  have newEnd : startOf (files ++ [file]) (files.length + 1) = endOf files + blocksFor file.2.length := by
    rw [startOf_length _ (by simp), endOf_snoc]
  -- the stretches of the blocks, none for an empty file
  obtain ⟨blocks, log, inside, ends⟩ : ∃ blocks : List Stretch, mid.file.log = blocks ++ s.file.log ∧
      (∀ w ∈ blocks, 0 < blocksFor file.2.length ∧ w.owner = .data files.length ∧ endOf files * 512 ≤ w.start ∧
        w.start + w.length ≤ (endOf files + blocksFor file.2.length) * 512) ∧
      (blocksFor file.2.length ≠ 0 →
      ∃ w ∈ blocks, w.start + w.length = (endOf files + blocksFor file.2.length) * 512) := by
    have logged := added.stored.logged
    split_ifs at logged with empty
    · rw [empty]
      exact ⟨[], logged, by simp, fun positive => absurd rfl positive⟩
    · obtain ⟨blocks, lb⟩ := logged
      have count := blocksFor_pos (length_pos_iff.mpr empty)
      exact ⟨blocks, lb.log, fun w member => ⟨by omega, lb.inside w member⟩, fun _ => lb.last⟩
  have whole : s'.file.log = entries ++ (blocks ++ s.file.log) := by rw [le.log, log]
  rw [whole]
  refine ⟨fun w member => ?_, fun i small => ?_, fun positive => ?_⟩
  · rcases mem_append.mp member with inEntries | later
    · obtain ⟨owner, lower, upper⟩ := le.inside w inEntries
      simp only [Placed, owner, length_append, length_singleton]
      exact ⟨by omega, lower, upper⟩
    · rcases mem_append.mp later with inBlocks | old
      · obtain ⟨positive, owner, lower, upper⟩ := inside w inBlocks
        simp only [Placed, owner, length_append, length_singleton]
        rw [newStart, newEnd]
        exact ⟨⟨by omega, by omega⟩, lower, upper⟩
      · exact (h.placed w old).snoc file
  · rw [length_append, length_singleton] at small
    by_cases new : i = files.length
    · obtain ⟨w, member, begins, positive⟩ := le.first
      exact ⟨w, by simp [member], by rw [new]; exact (le.inside w member).1, by rw [new]; exact begins, positive⟩
    · obtain ⟨w, member, rest⟩ := h.entries i (by omega)
      exact ⟨w, by simp [member], rest⟩
  · by_cases none : blocksFor file.2.length = 0
    · rw [totalBlocks_append, totalBlocks_singleton, none] at positive
      obtain ⟨w, member, owner, stop⟩ := h.last positive
      refine ⟨w, by simp [member], owner, ?_⟩
      rw [endOf_snoc, none]
      exact stop
    · obtain ⟨w, member, stop⟩ := ends none
      refine ⟨w, by simp [member], ⟨_, (inside w member).2.1⟩, ?_⟩
      rw [endOf_snoc]
      exact stop

theorem Recorded.bitmap {s s' : Builder} (h : Recorded files s.file.log)
    (put : Put .bitmap 512 s.bitmap.toList s s') : Recorded files s'.file.log := by
  have length : s.bitmap.toList.length = 32768 := Vector.length_toList
  obtain ⟨_, logged⟩ := put.logged
  rw [length] at logged
  rw [logged.log]
  refine ⟨fun w member => ?_, fun i small => ?_, fun positive => ?_⟩
  · rcases mem_append.mp member with new | old
    · obtain ⟨owner, lower, upper⟩ := logged.inside w new
      simp only [Placed, owner]
      exact ⟨lower, upper⟩
    · exact h.placed w old
  · obtain ⟨w, member, rest⟩ := h.entries i small
    exact ⟨w, by simp [member], rest⟩
  · obtain ⟨w, member, rest⟩ := h.last positive
    exact ⟨w, by simp [member], rest⟩

theorem build_recorded (args : Args) (files : List SourceFile) (refuses : Nat → Bool) :
    wp (build args files) (fun _ s' => Recorded files s'.file.log)
      (fun _ _ => Hindered refuses files) (start refuses) := by
  have rule := build_rule (J := fun done s => Recorded done s.file.log) args refuses files
    (fun {s₀} prepared => ?_) fun recorded added => recorded.add added
  · apply wp_imp rule
    rintro _ _ ⟨_, -, recorded, put⟩
    exact recorded.bitmap put
  · refine ⟨fun w member => ?_, fun i small => absurd small (Nat.not_lt_zero _), fun positive => absurd rfl positive⟩
    obtain ⟨owner, small⟩ := prepared.log w member
    simp only [Placed, owner]
    exact small

/-! ## The condition -/

theorem entryOffset_apart {j : Nat} (h : i ≠ j) :
    entryOffset i + 72 ≤ entryOffset j ∨ entryOffset j + 72 ≤ entryOffset i := by
  simp only [entryOffset, entriesPerSector, sectorSize, dirEntrySize]
  omega

theorem entryOffset_inside (small : i < 448) : 65 * 512 ≤ entryOffset i ∧ entryOffset i + 72 ≤ 129 * 512 := by
  simp only [entryOffset, secDirStart, entriesPerSector, sectorSize, dirEntrySize]
  omega

theorem entryOffset_outside (large : 448 ≤ i) : 129 * 512 ≤ entryOffset i := by
  simp only [entryOffset, secDirStart, entriesPerSector, sectorSize]
  omega

theorem Placed.apart (few : files.length ≤ 448) {w v : Stretch} (placed : Placed files w)
    (other : Placed files v) (different : w.owner ≠ v.owner) (file : v.owner.ofFile = true) : w.Apart v := by
  have dataLow : ∀ i, 129 * 512 ≤ startOf files i * 512 := fun i => Nat.mul_le_mul_right 512 (Nat.le_add_right 129 _)
  have dataNext : ∀ {i j}, i < j → startOf files (i + 1) * 512 ≤ startOf files j * 512 := fun lt =>
    Nat.mul_le_mul_right 512 (startOf_mono files lt)
  unfold Placed at placed other
  unfold Stretch.Apart
  cases ownerV : v.owner with
  | superblock => simp [Owner.ofFile, ownerV] at file
  | bitmap => simp [Owner.ofFile, ownerV] at file
  | entry j =>
    simp only [ownerV] at other different
    have inside := entryOffset_inside (show j < 448 by omega)
    cases ownerW : w.owner with
    | superblock => simp only [ownerW] at placed; omega
    | bitmap => simp only [ownerW] at placed; omega
    | entry i =>
      simp only [ownerW] at placed different
      have apart := entryOffset_apart (show i ≠ j from fun same => different (by rw [same]))
      omega
    | data i => simp only [ownerW] at placed; have := dataLow i; omega
  | data j =>
    simp only [ownerV] at other different
    have low := dataLow j
    cases ownerW : w.owner with
    | superblock => simp only [ownerW] at placed; omega
    | bitmap => simp only [ownerW] at placed; omega
    | entry i =>
      simp only [ownerW] at placed
      have inside := entryOffset_inside (show i < 448 by omega)
      omega
    | data i =>
      simp only [ownerW] at placed different
      rcases Nat.lt_trichotomy i j with lower | same | higher
      · have := dataNext lower
        omega
      · exact absurd (by rw [same]) different
      · have := dataNext higher
        omega

theorem Recorded.insideLayout_iff {log : List Stretch} (h : Recorded files log) (totalSectors : Nat) :
    InsideLayout totalSectors log ↔ files.length ≤ 448 ∧ (totalBlocks files = 0 ∨ endOf files ≤ totalSectors) := by
  constructor
  · intro layout
    constructor
    · by_contra many
      obtain ⟨w, member, owner, _, _⟩ := h.entries 448 (by omega)
      have inside := (layout.entries w member 448 owner).2
      have outside := entryOffset_outside (Nat.le_refl 448)
      omega
    · by_cases none : totalBlocks files = 0
      · exact Or.inl none
      · obtain ⟨w, member, ⟨i, owner⟩, _⟩ := h.last none
        have inside := (layout.blocks w member i owner).2
        exact Or.inr (by omega)
  · rintro ⟨few, fits⟩
    refine ⟨fun w member i owner => ?_, fun w member i owner => ?_, ?_⟩
    · have placed := h.placed w member
      simp only [Placed, owner] at placed
      have inside := entryOffset_inside (show i < 448 by omega)
      omega
    · have placed := h.placed w member
      simp only [Placed, owner] at placed
      have low : 129 ≤ startOf files i := Nat.le_add_right 129 _
      have high := startOf_le files (i + 1)
      rcases fits with none | fits
      · have all : endOf files = 129 := by rw [endOf, none]
        omega
      · omega
    · exact pairwise_of_forall_mem_list fun w inW v inV file different =>
        (h.placed w inW).apart few (h.placed v inV) different file

/-- **`mkfs` stays inside its layout** exactly when the passes select at most 448 files and the
blocks of the selected files, if there are any, end inside the image. -/
theorem mkfs_layout_iff {args : Args} {host : Host} {refuses : Nat → Bool} {count : Nat} {image : Builder}
    (returned : main args host (start refuses) = .ok count image) :
    ∃ files, selected args host = .ok files ∧
      (InsideLayout args.totalSectors.toNat image.file.log ↔
        files.length ≤ 448 ∧ (totalBlocks files = 0 ∨ endOf files ≤ args.totalSectors.toNat)) := by
  obtain ⟨files, choice, built⟩ := main_returns returned
  refine ⟨files, choice, ?_⟩
  exact (wp_of_ok (build_recorded args files refuses) built).insideLayout_iff _

/-- A run on the directory `src`, in which the image takes every write. -/
def mkfs (size : UInt64) (host : Host) : EStateM.Result Failure Builder Nat :=
  main ⟨some ["src"], size⟩ host (start fun _ => false)

/-- A host with the directory `src` and one file in it, and no build products. -/
def oneFileHost (data : List UInt8) : Host where
  pathExists path := path == ["src"]
  isDir path := path == ["src"]
  readDir _ := .ok [.ok ⟨some "big", false, true, .ok data⟩]

theorem oneFile_image (size : UInt64) {data : List UInt8} (fits : endOf [("big", data)] ≤ mapBits) :
    ∃ count image, mkfs size (oneFileHost data) = .ok count image ∧
      Recorded [("big", data)] image.file.log := by
  have choice : selected ⟨some ["src"], size⟩ (oneFileHost data) = .ok [("big", data)] := rfl
  have short : ∀ file ∈ [("big", data)], (asBytes file.1).length ≤ 64 :=
    forall_mem_singleton.mpr (show (asBytes "big").length ≤ 64 by decide)
  obtain ⟨image, built, recorded⟩ := build_returns (build_recorded ⟨some ["src"], size⟩ _) fits short
  refine ⟨1, image, ?_, recorded⟩
  rw [mkfs, main_selected choice, bind_ok _ built]
  rfl

/-- A small file in an image of one megabyte. -/
theorem mkfs_layout_iff_small : ∃ count image,
    mkfs 1 (oneFileHost [1]) = .ok count image ∧
    InsideLayout (Args.mk (some ["src"]) 1).totalSectors.toNat image.file.log := by
  obtain ⟨count, image, returned, -⟩ := @oneFile_image 1 [1] (by decide)
  obtain ⟨files, choice, layout⟩ := mkfs_layout_iff returned
  obtain rfl : [("big", [1])] = files := Except.ok.inj choice
  exact ⟨count, image, returned, layout.mpr ⟨by decide, Or.inr (by decide)⟩⟩

/-- `main` returns all the same, and blocks lie behind the last sector of the image. -/
theorem mkfs_leaves_layout : ∃ count image,
    mkfs 1 (oneFileHost (replicate 1000000 0)) = .ok count image ∧
    ¬ InsideLayout (Args.mk (some ["src"]) 1).totalSectors.toNat image.file.log := by
  have long : (replicate 1000000 (0 : UInt8)).length = 1000000 := length_replicate
  generalize replicate 1000000 (0 : UInt8) = data at long ⊢
  have blocks : totalBlocks [("big", data)] = 1969 := by rw [totalBlocks_singleton, long, blocksFor]
  obtain ⟨count, image, returned, recorded⟩ := @oneFile_image 1 data (by rw [endOf, blocks]; decide)
  refine ⟨count, image, returned, fun layout => ?_⟩
  have total : (Args.mk (some ["src"]) 1).totalSectors.toNat = 2048 := by decide
  have fits := ((recorded.insideLayout_iff _).mp layout).2
  rw [endOf, blocks] at fits
  exact absurd fits (by decide)

end HavyOs.Mkfs
