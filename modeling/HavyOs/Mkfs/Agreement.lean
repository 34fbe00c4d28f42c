import HavyOs.Mkfs.Passes
import HavyOs.Fs.Remount

/-!
# `mkfs` and the kernel agree on the format

The image that `mkfs` builds from at most 448 files is one the kernel mounts: the entry
with index `i` lies in the `i`-th place of the kernel's scan, the blocks of a file are
linked as `read_file` follows them, and the bitmap on the image marks them. `Contains`
is the invariant of the import that says so for the files imported so far.
-/

namespace HavyOs.Mkfs

open HavyOs.Lib HavyOs.Fs FileSystemState DirEntry List
open ImageFile (disk)

/-- A name that `mkfs` takes and the kernel can look up. -/
structure Importable (name : String) : Prop where
  nonempty : 1 ≤ (asBytes name).length
  fits : (asBytes name).length ≤ 63
  noNul : 0 ∉ asBytes name

theorem Importable.storable {name : String} (h : Importable name) : Storable name :=
  ⟨h.nonempty, Nat.le_succ_of_le h.fits, h.noNul⟩

theorem mem_run {start count : Nat} (small : start + count ≤ mapBits) {b : UInt32} (member : b ∈ run start count) :
    start ≤ b.toNat ∧ b.toNat < start + count := by
  obtain ⟨k, inside, rfl⟩ := mem_map.mp member
  rw [mem_range'_1] at inside
  simp only [mapBits, secMapCount, sectorSize] at small
  rw [UInt32.toNat_ofNat', Nat.mod_eq_of_lt (by omega)]
  exact inside

/-! ## The files in the image -/

theorem entryOffset_rank (slot : Slot) : entryOffset slot.rank = slot.sector * 512 + offsetOf slot.index := by
  have bound := slot.index.isLt
  simp only [Fs.entriesPerSector] at bound
  simp only [entryOffset, Slot.rank, Slot.sector, offsetOf]
  rw [show (slot.dir.val * 7 + slot.index.val) / 7 = slot.dir.val by omega,
    show (slot.dir.val * 7 + slot.index.val) % 7 = slot.index.val by omega]

variable {s s' : Builder} {k : Nat}

theorem disk_of_entry {owner : Owner} (slot : Slot) {e : DirEntry}
    (put : Put owner (entryOffset slot.rank) e.bytes s s') : s'.file.disk = storeAt s.file.disk slot e.bytes := by
  have fits := offsetOf_fits slot.index
  have length : e.bytes.length = 72 := e.bytes_length
  funext k
  unfold disk
  rw [put.bytes, entryOffset_rank]
  by_cases here : k = slot.sector
  · rw [here, window_overwrite, storeAt, Function.update_self, putEntry]
  · rw [storeAt_other _ here, window_overwrite_apart _ (by omega)]

theorem exists_rank {i : Nat} (small : i < 448) : ∃ slot : Slot, slot.rank = i := by
  refine ⟨⟨⟨i / 7, by simp only [secDirCount]; omega⟩, ⟨i % 7, Nat.mod_lt _ (by decide)⟩⟩, ?_⟩
  simp only [Slot.rank, Fs.entriesPerSector]
  omega

/-- The kernel reads its own magic number in the superblock. -/
theorem superblock_magic (total : UInt32) :
    fromLeBytes (slice (patch zeroBlock 0 (toLeBytes magic ++ toLeBytes total)) 0 4) = Fs.magic := by
  have first := @slice_patch_inside UInt8 512 zeroBlock 0 0 4 (toLeBytes magic ++ toLeBytes total)
    (by simp) (by simp)
  rw [first, drop_zero, take_left' (toLeBytes_length _)]
  rfl

/-- The image holds the superblock and `files`, at most as many as there are places. -/
structure Contains (args : Args) (files : List SourceFile) (disk : Nat → Block) : Prop where
  superblock : disk 0 = patch zeroBlock 0 (toLeBytes magic ++ toLeBytes args.totalSectors.toUInt32)
  entries : ∀ {slot : Slot} {file}, files[slot.rank]? = some file →
    entryOn disk slot = entryFor file (startOf files slot.rank)
  unused : ∀ slot : Slot, files.length ≤ slot.rank → (entryOn disk slot).used = false
  linked : ∀ {i file}, files[i]? = some file →
    Linked disk ((run (startOf files i) (blocksFor file.2.length)).headD 0)
    (run (startOf files i) (blocksFor file.2.length))
  holds : ∀ {i file}, files[i]? = some file →
    (contents disk (run (startOf files i) (blocksFor file.2.length))).take file.2.length = file.2

namespace Contains

variable {args : Args} {files : List SourceFile} {disk disk' : Nat → Block} {file : SourceFile}

theorem run_bounds {i : Nat} (found : files[i]? = some file) (fits : endOf files ≤ mapBits) {b : UInt32}
    (member : b ∈ run (startOf files i) (blocksFor file.2.length)) :
    (startOf files i ≤ b.toNat ∧ b.toNat < startOf files (i + 1)) ∧ secDataStart ≤ b.toNat ∧ b.toNat < endOf files := by
  have next := startOf_succ found
  have last := startOf_le files (i + 1)
  have low : secDataStart ≤ startOf files i := Nat.le_add_right _ _
  have bounds := mem_run (by omega) member
  omega

theorem run_agree (fits : endOf files ≤ mapBits) (data : ∀ k, secDataStart ≤ k → k < endOf files → disk' k = disk k)
    {i : Nat}
    (found : files[i]? = some file) :
    ∀ b ∈ run (startOf files i) (blocksFor file.2.length), disk' b.toNat = disk b.toNat := by
  intro b member
  obtain ⟨-, low, high⟩ := run_bounds found fits member
  exact data _ low high

theorem frame (h : Contains args files disk) (fits : endOf files ≤ mapBits) (super : disk' 0 = disk 0)
    (dirs : ∀ slot, entryOn disk' slot = entryOn disk slot)
    (data : ∀ k, secDataStart ≤ k → k < endOf files → disk' k = disk k) : Contains args files disk' := by
  refine ⟨super.trans h.superblock, fun found => ?_, fun slot behind => ?_, fun found => ?_, fun found => ?_⟩
  · rw [dirs]
    exact h.entries found
  · rw [dirs]
    exact h.unused slot behind
  · exact (h.linked found).frame (run_agree fits data found)
  · rw [contents_frame (run_agree fits data found)]
    exact h.holds found

/-- One file more, with its entry at the next place and its blocks behind the others. -/
theorem snoc (h : Contains args files disk) (fits : endOf files ≤ mapBits) {slot : Slot}
    (rank : slot.rank = files.length) (super : disk' 0 = disk 0)
    (others : ∀ t, t ≠ slot → entryOn disk' t = entryOn disk t)
    (entry : entryOn disk' slot = entryFor file (endOf files))
    (data : ∀ k, secDataStart ≤ k → k < endOf files → disk' k = disk k)
    (linked : Linked disk' ((run (endOf files) (blocksFor file.2.length)).headD 0)
    (run (endOf files) (blocksFor file.2.length)))
    (holds : (contents disk' (run (endOf files) (blocksFor file.2.length))).take file.2.length = file.2) :
    Contains args (files ++ [file]) disk' := by
  have lookup : ∀ {i found}, (files ++ [file])[i]? = some found →
      i = files.length ∧ found = file ∧ startOf (files ++ [file]) i = endOf files ∨
        i < files.length ∧ files[i]? = some found ∧ startOf (files ++ [file]) i = startOf files i := by
    intro i found present
    rcases Nat.lt_trichotomy i files.length with lower | same | _
    · rw [getElem?_append_left lower] at present
      exact Or.inr ⟨lower, present, startOf_append files file (Nat.le_of_lt lower)⟩
    · rw [same, getElem?_append_right (Nat.le_refl _), Nat.sub_self] at present
      refine Or.inl ⟨same, (Option.some.inj present).symm, ?_⟩
      rw [same, startOf_append files file (Nat.le_refl _), startOf_length files (Nat.le_refl _)]
    · rw [getElem?_eq_none (by simp; omega)] at present
      cases present
  refine ⟨super.trans h.superblock, fun {t found} present => ?_, fun t behind => ?_, fun {i found} present => ?_,
    fun {i found} present => ?_⟩
  · rcases lookup present with ⟨last, rfl, start⟩ | ⟨lower, older, start⟩
    · obtain rfl : t = slot := Slot.rank_inj (last.trans rank.symm)
      rw [start]
      exact entry
    · rw [start, others t (fun same => by rw [same] at lower; omega)]
      exact h.entries older
  · rw [length_append, length_singleton] at behind
    rw [others t (fun same => by rw [same] at behind; omega)]
    exact h.unused t (by omega)
  · rcases lookup present with ⟨-, rfl, start⟩ | ⟨-, older, start⟩
    · rw [start]
      exact linked
    · rw [start]
      exact (h.linked older).frame (run_agree fits data older)
  · rcases lookup present with ⟨-, rfl, start⟩ | ⟨-, older, start⟩
    · rw [start]
      exact holds
    · rw [start, contents_frame (run_agree fits data older)]
      exact h.holds older

/-- **The import step.** A file is added to an image with a place left. -/
theorem add {s mid s' : Builder} (h : Contains args files s.file.disk) (room : files.length < 448)
    (added : Added files.length file (endOf files) s mid s') : Contains args (files ++ [file]) s'.file.disk := by
  have low : secDataStart ≤ endOf files := Nat.le_add_right _ _
  have high := added.filled.high
  obtain ⟨slot, rank⟩ := exists_rank room
  have entry := added.entry
  rw [← rank] at entry
  have disk := disk_of_entry slot entry
  have bounds := slot.sector_bounds
  have apart : ∀ k, k ≠ slot.sector → s'.file.disk k = mid.file.disk k :=
    fun k other => by rw [disk, storeAt_other _ other]
  have agree : ∀ b ∈ run (endOf files) (blocksFor file.2.length), s'.file.disk b.toNat = mid.file.disk b.toNat := by
    intro b member
    have := mem_run (by omega) member
    exact apart _ (by simp only [secDataStart] at low; omega)
  have frame := added.stored.frame
  refine h.snoc (by omega) rank ?_ (fun t other => ?_) ?_ (fun k inData before => ?_) (added.stored.linked.frame agree)
    ?_
  · rw [apart 0 (by omega), frame 0 (Or.inl (by simp only [secDataStart] at low; omega))]
  · have boundsT := t.sector_bounds
    rw [disk, entryOn_storeAt_other _ other (bytes_length _), entryOn,
      frame _ (Or.inl (by simp only [secDataStart] at low; omega)), entryOn]
  · rw [disk, entryOn_storeAt]
  · rw [apart k (by simp only [secDataStart] at inData; omega), frame k (Or.inl before)]
  · rw [contents_frame agree]
    exact added.stored.holds

end Contains

/-! ## The finished image -/

section

variable (put : Put .bitmap 512 s.bitmap.toList s s')

include put

theorem bitOn_of_bitmap (mapped : k < mapBits) :
    bitOn s'.file.disk k = marked s.bitmap k := by
  have inside : k / 8 < secMapCount * sectorSize := by
    simp only [mapBits] at mapped
    omega
  have length : s.bitmap.toList.length = secMapCount * sectorSize := Vector.length_toList
  have byte : byteAt (s'.file.disk (Fs.secMapStart + k / 4096)) (k % 4096 / 8) = byteAt s.bitmap (k / 8) := by
    rw [byteAt, byteAt, Vector.getElem?_eq_getElem (by omega), Vector.getElem?_eq_getElem inside, Option.getD_some,
      Option.getD_some, disk, getElem_window, put.bytes,
      show (Fs.secMapStart + k / 4096) * 512 + k % 4096 / 8 = 512 + k / 8 by rw [Fs.secMapStart]; omega,
      overwrite_inside _ (by omega), Vector.getElem_toList]
  rw [bitOn, marked, byte, Nat.mod_mod_of_dvd k (by decide), marked]

theorem disk_of_bitmap (apart : k = 0 ∨ 65 ≤ k) :
    s'.file.disk k = s.file.disk k := by
  have length : s.bitmap.toList.length = 32768 := Vector.length_toList
  unfold disk
  rw [put.bytes, window_overwrite_apart _ (by omega)]

/-- What the finished image holds. -/
structure Built (args : Args) (files : List SourceFile) (disk : Nat → Block) :
    Prop extends Contains args files disk where
  mapped : endOf files ≤ mapBits
  bits : ∀ {k}, k < mapBits → bitOn disk k = decide (k < endOf files)

omit put in
theorem Prepared.contains {args : Args} {refuses : Nat → Bool} (h : Prepared args refuses s) :
    Contains args [] s.file.disk := by
  have zeroes : ∀ off, window (fun _ => (0 : UInt8)) off 512 = zeroBlock := by
    intro off
    apply Vector.ext
    intro i hi
    rw [getElem_window, zeroBlock, Vector.getElem_replicate]
  have zero : ∀ k, 1 ≤ k → s.file.disk k = zeroBlock := by
    intro k positive
    unfold disk
    rw [h.bytes, window_overwrite_apart _ (by simp [toLeBytes]; omega), zeroes]
  refine ⟨?_, fun found => absurd found (by simp), fun slot _ => ?_, fun found => absurd found (by simp),
    fun found => absurd found (by simp)⟩
  · have inside :=
      window_overwrite (fun _ => (0 : UInt8)) 0 0 512 (toLeBytes magic ++ toLeBytes args.totalSectors.toUInt32)
    unfold disk
    rw [h.bytes, Nat.zero_mul]
    rwa [Nat.add_zero, zeroes] at inside
  · have bounds := slot.sector_bounds
    rw [entryOn, zero _ (by omega), used]
    simp [entryAt, zeroBlock]

theorem bitOn_filled {files : List SourceFile}
    (filled : Filled s (endOf files)) (mapped : k < mapBits) : bitOn s'.file.disk k = decide (k < endOf files) := by
  have high : endOf files ≤ secMapCount * sectorSize * 8 := filled.high
  rw [bitOn_of_bitmap put mapped, filled.bitmap, marked_markBelow _ _ high, marked_zero, Bool.false_or]

end

/-- **The image of at most 448 files.** -/
theorem build_spec (args : Args) (files : List SourceFile) (few : files.length ≤ 448) (refuses : Nat → Bool) :
    wp (build args files) (fun _ s' => Built args files s'.file.disk)
      (fun _ _ => Hindered refuses files) (start refuses) := by
  have rule := build_rule (J := fun done s => done.length ≤ 448 → Contains args done s.file.disk) args refuses files
    (fun prepared _ => prepared.contains) fun {done file s mid s'} contains added small => ?_
  · apply wp_imp rule
    rintro _ s₂ ⟨_, filled, contains, put⟩
    have kept : Contains args files s₂.file.disk := by
      refine (contains few).frame filled.high (disk_of_bitmap put (Or.inl rfl)) (fun slot => ?_) fun k inData _ => ?_
      · rw [entryOn, disk_of_bitmap put (Or.inr slot.sector_bounds.1), entryOn]
      · exact disk_of_bitmap put (Or.inr (by simp only [secDataStart] at inData; omega))
    exact ⟨kept, filled.high, bitOn_filled put filled⟩
  · rw [length_append, length_singleton] at small
    exact (contains (by omega)).add (by omega) added

namespace Built

variable {args : Args} {files : List SourceFile} {disk : Nat → Block} {slot : Slot} {file : SourceFile}

variable (h : Built args files disk)

include h

theorem file_of_used (used : (entryOn disk slot).used = true) : ∃ file, files[slot.rank]? = some file := by
  by_cases inside : slot.rank < files.length
  · exact ⟨files[slot.rank], getElem?_eq_getElem inside⟩
  · rw [h.unused slot (by omega)] at used
    cases used

theorem entry_rawName (found : files[slot.rank]? = some file)
    (named : Importable file.1) : (entryOn disk slot).rawName = asBytes file.1 := by
  rw [h.entries found]
  exact newEntry_rawName named.storable _ _

theorem chain (found : files[slot.rank]? = some file) :
    Linked disk (entryOn disk slot).head (run (startOf files slot.rank) (blocksFor file.2.length)) := by
  rw [h.entries found]
  exact h.linked found

section

variable (named : ∀ file ∈ files, Importable file.1) (distinct : (files.map Prod.fst).Nodup)
include named distinct

theorem slot_eq
    {s t : Slot} {other : SourceFile} (foundS : files[s.rank]? = some file) (foundT : files[t.rank]? = some other)
    (same : (entryOn disk s).rawName = (entryOn disk t).rawName) : s = t := by
  have memberS := mem_of_getElem? foundS
  have memberT := mem_of_getElem? foundT
  rw [h.entry_rawName foundS (named _ memberS), h.entry_rawName foundT (named _ memberT)] at same
  obtain ⟨inside, -⟩ := List.getElem?_eq_some_iff.mp foundS
  apply Slot.rank_inj
  have names : (files.map Prod.fst)[s.rank]? = (files.map Prod.fst)[t.rank]? := by
    rw [getElem?_map, getElem?_map, foundS, foundT, Option.map_some, Option.map_some, asBytes_inj same]
  exact (getElem?_inj (by rw [length_map]; exact inside) distinct).mp names

/-- **The image is one the kernel's invariants start from.** -/
theorem valid : ValidImage disk := by
  have mapped := h.mapped
  refine ⟨?_, fun k small => ?_, fun slot used => ?_, fun s t usedS usedT same => ?_, ?_⟩
  · rw [Fs.secSuper, h.superblock]
    exact superblock_magic _
  · have low : secDataStart ≤ endOf files := Nat.le_add_right _ _
    simp only [Fs.secDataStart, secDataStart] at small low
    rw [h.bits (by simp only [mapBits, secMapCount, sectorSize]; omega)]
    exact decide_eq_true (by omega)
  · obtain ⟨file, found⟩ := h.file_of_used used
    refine ⟨_, ⟨h.chain found, ?_⟩, fun s member => ?_⟩
    · rw [h.entries found, entryFor, newEntry, UInt32.toNat_ofNat', run, length_map, length_range', blocksFor]
      omega
    · obtain ⟨b, inside, rfl⟩ := mem_sectors.mp member
      obtain ⟨-, low, _⟩ := Contains.run_bounds found mapped inside
      refine ⟨low, ?_, ?_⟩
      · simp only [mapBits, secMapCount, sectorSize] at mapped
        omega
      · rw [h.bits (by omega)]
        exact decide_eq_true (by omega)
  · obtain ⟨file, foundS⟩ := h.file_of_used usedS
    obtain ⟨other, foundT⟩ := h.file_of_used usedT
    exact h.slot_eq named distinct foundS foundT same
  · intro s t blocks blocks' apart usedS usedT linkedS linkedT b memberS memberT
    obtain ⟨file, foundS⟩ := h.file_of_used usedS
    obtain ⟨other, foundT⟩ := h.file_of_used usedT
    obtain rfl := linkedS.unique (h.chain foundS)
    obtain rfl := linkedT.unique (h.chain foundT)
    have boundsS := Contains.run_bounds foundS mapped memberS
    have boundsT := Contains.run_bounds foundT mapped memberT
    -- consecutive files have consecutive sectors
    rcases Nat.lt_trichotomy s.rank t.rank with lower | same | higher
    · have := startOf_mono files (show s.rank + 1 ≤ t.rank from lower)
      omega
    · exact apart (Slot.rank_inj same)
    · have := startOf_mono files (show t.rank + 1 ≤ s.rank from higher)
      omega

end

theorem holds_file (few : files.length ≤ 448) (named : ∀ file ∈ files, Importable file.1)
    (distinct : (files.map Prod.fst).Nodup) (member : file ∈ files) : Holds disk file.1 (some file.2) := by
  obtain ⟨i, inside, rfl⟩ := getElem_of_mem member
  obtain ⟨slot, rank⟩ := exists_rank (show i < 448 by omega)
  have found : files[slot.rank]? = some files[i] := by rw [rank]; exact getElem?_eq_getElem inside
  have storable := (named _ member).storable
  have raw := h.entry_rawName found (named _ member)
  have lookup : firstSlot (isNamed files[i].1) disk = some slot := by
    refine firstSlot_eq ((isNamed_iff storable).mpr raw) fun t isNamed => ?_
    have rawT := (isNamed_iff storable).mp isNamed
    have usedT : (entryOn disk t).used = true :=
      used_of_rawName (by rw [rawT]; exact ne_nil_of_length_pos storable.nonempty)
    obtain ⟨_, foundT⟩ := h.file_of_used usedT
    exact h.slot_eq named distinct foundT found (rawT.trans raw.symm)
  have contents :
      fileOf disk (entryOn disk slot) (run (startOf files slot.rank) (blocksFor files[i].2.length)) = files[i].2 := by
    have size : (entryOn disk slot).size.toNat = files[i].2.length := by
      have next := startOf_succ found
      have high := startOf_le files (slot.rank + 1)
      have mapped := h.mapped
      simp only [mapBits, secMapCount, sectorSize] at mapped
      rw [h.entries found, entryFor, newEntry, UInt32.toNat_ofNat']
      rw [blocksFor] at next
      omega
    rw [fileOf, size]
    exact h.holds found
  rw [← contents]
  exact .present lookup (h.chain found)

theorem absent (named : ∀ file ∈ files, Importable file.1) {name : String}
    (other : name ∉ files.map Prod.fst) : Holds disk name none := by
  refine .absent (find?_eq_none.mpr fun slot _ => ?_)
  intro isNamed
  simp only [DirEntry.isNamed, Bool.and_eq_true, beq_iff_eq] at isNamed
  obtain ⟨file, found⟩ := h.file_of_used isNamed.1
  have member := mem_of_getElem? found
  apply other
  rw [← isNamed.2, entryName, h.entry_rawName found (named _ member), fromUtf8_asBytes]
  exact mem_map.mpr ⟨file, member, rfl⟩

theorem freeBlocks : freeCount (disk Fs.secMapStart) = 4096 - endOf files := by
  rw [← countP_range_not_lt]
  unfold freeCount
  refine countP_congr fun k inside => ?_
  rw [mem_range] at inside
  have bit := h.bits (show k < mapBits by simp only [mapBits, secMapCount, sectorSize]; omega)
  rw [bitOn, Nat.div_eq_of_lt inside, Nat.mod_eq_of_lt inside, Nat.add_zero] at bit
  rw [← bit]

theorem freePlaces (named : ∀ file ∈ files, Importable file.1) : Fs.freeSlots disk = 448 - files.length := by
  have ranks : slots.map Slot.rank = range 448 := by
    unfold slots
    decide +kernel
  rw [← countP_range_not_lt, ← ranks, countP_map]
  refine countP_congr fun slot _ => ?_
  by_cases inside : slot.rank < files.length
  · have found := getElem?_eq_getElem inside
    simp [h.entries found, entryFor, newEntry_used (named _ (mem_of_getElem? found)).storable, inside]
  · simp [h.unused slot (by omega), inside]

end Built

/-- **`mkfs` and the kernel agree on the format.** The image of at most 448 files with distinct
names, whose blocks fit in the bitmap and in the image, is built, mounts, and reads back:
every file under its name, nothing under any other, and every sector of a file is marked, in
the image, and no other file's. -/
theorem mkfs_kernel_agree (args : Args) (files : List SourceFile) (few : files.length ≤ 448)
    (named : ∀ file ∈ files, Importable file.1) (distinct : (files.map Prod.fst).Nodup) (mapped : endOf files ≤ mapBits)
    (inside : endOf files ≤ args.totalSectors.toNat) :
    ∃ image, build args files (start fun _ => false) = .ok () image ∧
      ∀ dev : BlockDev, dev.Reliable → dev.disk = image.file.disk →
        ∃ fs dev', init dev = .ok (some fs) dev' ∧
          (∀ file ∈ files, ∃ d, readFile file.1 dev' = .ok (some file.2) d) ∧
          (∀ name, name ∉ files.map Prod.fst → ∃ d, readFile name dev' = .ok none d) ∧
          ∀ (slot : Slot) (b : UInt32), (entryOn dev.disk slot).used = true →
            Reaches dev.disk (entryOn dev.disk slot).head b →
            bitOn dev.disk b.toNat = true ∧ Fs.secDataStart ≤ b.toNat ∧ b.toNat < args.totalSectors.toNat ∧
            ∀ t : Slot, (entryOn dev.disk t).used = true → Reaches dev.disk (entryOn dev.disk t).head b → t = slot := by
  obtain ⟨image, ran, built⟩ := build_returns (build_spec args files few) mapped fun file member =>
    (named file member).storable.fits
  refine ⟨image, ran, fun dev reliable same => ?_⟩
  rw [← same] at built
  have valid := built.valid named distinct
  obtain ⟨fs, dev', init, rfl, untouched⟩ := wp_returns (init_spec reliable valid.magic)
  have reliable' := untouched.reliable reliable
  have reads : ∀ {name data}, Holds dev.disk name data → ∃ d, readFile name dev' = .ok data d := by
    intro name data held
    rw [← untouched.disk] at held
    obtain ⟨_, d, read, rfl, -⟩ := wp_returns (readFile_holds reliable' held)
    exact ⟨d, read⟩
  refine ⟨_, dev', init, fun file member => reads (built.holds_file few named distinct member),
    fun name other => reads (built.absent named other), fun slot b used reached => ?_⟩
  · obtain ⟨file, found⟩ := built.file_of_used used
    have chain := built.chain found
    have member := chain.reaches reached
    obtain ⟨-, low, _⟩ := Contains.run_bounds found mapped member
    refine ⟨?_, low, by omega, fun t usedT reachedT => ?_⟩
    · rw [built.bits (by omega)]
      exact decide_eq_true (by omega)
    · by_contra apart
      obtain ⟨other, foundT⟩ := built.file_of_used usedT
      exact valid.disjoint t slot _ _ apart usedT used (built.chain foundT) chain b
        ((built.chain foundT).reaches reachedT) member

/-- Two files in an image of one megabyte, one of them empty. -/
theorem mkfs_kernel_agree_two :
    ∃ image, build ⟨none, 1⟩ [("/a", [1]), ("/e", [])] (start fun _ => false) = .ok () image ∧
    ∀ dev : BlockDev, dev.Reliable → dev.disk = image.file.disk →
      ∃ fs dev' d d' d'', init dev = .ok (some fs) dev' ∧
        readFile "/a" dev' = .ok (some [1]) d ∧ readFile "/e" dev' = .ok (some []) d' ∧
        readFile "/x" dev' = .ok none d'' := by
  have named : ∀ file ∈ [("/a", [(1 : UInt8)]), ("/e", [])], Importable file.1 := by
    simp only [forall_mem_cons]
    exact ⟨⟨by decide, by decide, by decide⟩, ⟨by decide, by decide, by decide⟩, by simp⟩
  obtain ⟨image, ran, agree⟩ :=
    mkfs_kernel_agree ⟨none, 1⟩ [("/a", [1]), ("/e", [])] (by decide) named (by decide) (by decide) (by decide)
  refine ⟨image, ran, fun dev reliable same => ?_⟩
  obtain ⟨fs, dev', init, files, others, -⟩ := agree dev reliable same
  obtain ⟨d, first⟩ := files ("/a", [1]) (by simp)
  obtain ⟨d', second⟩ := files ("/e", []) (by simp)
  obtain ⟨d'', third⟩ := others "/x" (by decide)
  exact ⟨fs, dev', d, d', d'', init, first, second, third⟩

/-- **From `mkfs` to the running kernel.** The kernel mounts the image, and from then on every sequence of writes,
removals of files and reads is answered as by a map that holds the imported files. -/
theorem mkfs_image_serves_map (args : Args) (files : List SourceFile) (few : files.length ≤ 448)
    (named : ∀ file ∈ files, Importable file.1) (distinct : (files.map Prod.fst).Nodup)
    (mapped : endOf files ≤ mapBits) :
    ∃ image, build args files (start fun _ => false) = .ok () image ∧
      ∀ dev : BlockDev, dev.Reliable → dev.disk = image.file.disk →
        ∀ counter, ∃ fs dev', init dev = .ok (some fs) dev' ∧
        ∀ ops : List SfsCall, (∀ op ∈ ops, op.Admitted) → answers GlobalSfs.call ⟨fs, dev', counter⟩ ops =
          answers FileMap.call ⟨fun name => files.lookup name, 4096 - endOf files, 448 - files.length⟩ ops := by
  obtain ⟨image, ran, built⟩ := build_returns (build_spec args files few) mapped fun file member =>
    (named file member).storable.fits
  refine ⟨image, ran, fun dev reliable same counter => ?_⟩
  rw [← same] at built
  have valid := built.valid named distinct
  obtain ⟨fs, dev', init, rfl, untouched⟩ := wp_returns (init_spec reliable valid.magic)
  have represents : Represents dev'.disk fun name => files.lookup name := by
    intro name _
    rw [untouched.disk]
    show Holds dev.disk name (files.lookup name)
    cases found : files.lookup name with
    | none =>
      refine built.absent named fun member => ?_
      obtain ⟨file, inside, rfl⟩ := mem_map.mp member
      simpa using lookup_eq_none_iff.mp found file inside
    | some data =>
      obtain ⟨_, _, rfl, -⟩ := lookup_eq_some_iff.mp found
      exact built.holds_file few named distinct (show (name, data) ∈ _ by simp)
  have start := (mounted_of_init reliable valid init counter).refines represents
  rw [FsMem.disk, untouched.disk, built.freeBlocks, built.freePlaces named] at start
  exact ⟨_, dev', init, fun ops admitted => answers_eq (fun _ _ _ related ok => related.call ok) ops start admitted⟩

theorem mkfs_image_serves_map_one : ∃ image, build ⟨none, 1⟩ [("/a", [1])] (start fun _ => false) = .ok () image ∧
    ∀ dev : BlockDev, dev.Reliable → dev.disk = image.file.disk → ∃ fs dev', init dev = .ok (some fs) dev' ∧
      answers GlobalSfs.call ⟨fs, dev', 0⟩ [.readFile "/a", .remove "/a", .readFile "/a"] =
        [.contents (some [1]), .done, .contents none] := by
  have named : Importable "/a" := ⟨by decide, by decide, by decide⟩
  obtain ⟨image, ran, serves⟩ :=
    mkfs_image_serves_map ⟨none, 1⟩ [("/a", [1])] (by decide) (by simpa using named) (by decide) (by decide)
  refine ⟨image, ran, fun dev reliable same => ?_⟩
  obtain ⟨fs, dev', init, answered⟩ := serves dev reliable same 0
  refine ⟨fs, dev', init, ?_⟩
  rw [answered _ (by simp [SfsCall.Admitted, named.storable]; decide)]
  simp [answers, FileMap.call]

end HavyOs.Mkfs
