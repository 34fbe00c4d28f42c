import HavyOs.Fs.Lineage

/-!
# Listings

What `list_dir` reports of the directory as the cache shows it. The scan ends at the second of two
empty sectors in a row, and a name that is not UTF-8 is reported as `???`. `exists` and `is_dir`
find a directory by the listing when it has no entry of its own.
-/

namespace HavyOs.Fs

open HavyOs.Lib FileSystemState List DirEntry

/-! ## The directory -/

variable (disk : Nat → Block)

def Live (slot : Slot) : Prop := (entryOn disk slot).used = true

def EmptySector (i : Nat) : Prop := ∀ slot : Slot, slot.dir.val = i → ¬Live disk slot

/-- Nothing is in use behind two empty sectors in a row. -/
def NoGap : Prop :=
  ∀ i j, i + 1 < j → j < secDirCount → EmptySector disk i → EmptySector disk (i + 1) → EmptySector disk j

/-- The names in use are UTF-8. -/
def Readable : Prop := ∀ slot, Live disk slot → fromUtf8 (entryOn disk slot).rawName ≠ none

def liveSlots : List Slot := slots.filter fun slot => (entryOn disk slot).used

/-- One entry for each place in use, with its name and size. -/
def Lists (files : List FileInfo) : Prop :=
  (files.map fun file => (asBytes file.name, file.size)).Perm
    ((liveSlots disk).map fun slot => ((entryOn disk slot).rawName, (entryOn disk slot).size))

def fileInfo (e : DirEntry) : FileInfo := ⟨(fromUtf8 e.rawName).getD "???", e.size, false⟩

def chunks : List (List FileInfo) :=
  (finRange secDirCount).map fun i => FileSystemState.listSector (disk (secDirStart + i.val))

def listing : List FileInfo := untilGap 0 (chunks disk)

variable {disk : Nat → Block}

theorem mem_liveSlots {slot : Slot} : slot ∈ liveSlots disk ↔ Live disk slot := by
  rw [liveSlots, mem_filter]
  exact and_iff_right (mem_slots slot)

theorem listSector_eq (buf : Block) : listSector buf =
    ((finRange entriesPerSector).filter fun j => (entryAt buf j).used).map fun j => fileInfo (entryAt buf j) := by
  unfold listSector
  rw [← filterMap_eq_map, filterMap_filter]
  rfl

theorem flatten_chunks (disk : Nat → Block) :
    (chunks disk).flatten = (liveSlots disk).map fun slot => fileInfo (entryOn disk slot) := by
  unfold liveSlots slots
  rw [filter_flatMap, map_flatMap]
  refine flatMap_congr fun i _ => ?_
  rw [listSector_eq, filter_map, map_map]
  rfl

theorem listSector_eq_nil {i : Fin secDirCount} :
    listSector (disk (secDirStart + i.val)) = [] ↔ EmptySector disk i.val := by
  rw [listSector_eq, map_eq_nil_iff, filter_eq_nil_iff]
  constructor
  · rintro none ⟨dir, index⟩ same
    obtain rfl : dir = i := Fin.ext same
    exact none index (mem_finRange index)
  · exact fun empty j _ => empty ⟨i, j⟩ rfl

theorem getElem?_chunks (disk : Nat → Block) (i : Nat) : (chunks disk)[i]? =
    if i < secDirCount then some (listSector (disk (secDirStart + i))) else none := by
  rw [chunks, getElem?_map]
  split_ifs with bound
  · rw [getElem?_eq_getElem (by rw [length_finRange]; exact bound), getElem_finRange]
    rfl
  · rw [getElem?_eq_none (by rw [length_finRange]; omega)]
    rfl

theorem getElem?_chunks_nil {i : Nat} : (chunks disk)[i]? = some [] ↔ i < secDirCount ∧ EmptySector disk i := by
  rw [getElem?_chunks]
  split_ifs with bound
  · rw [Option.some.injEq, @listSector_eq_nil disk ⟨i, bound⟩]
    exact (and_iff_right bound).symm
  · simp [bound]

theorem gapless_chunks : Gapless (chunks disk) ↔ NoGap disk := by
  rw [gapless_iff_getElem?]
  constructor
  · intro gapless i j later bound first second
    have found : (chunks disk)[j]? = some (listSector (disk (secDirStart + j))) := by
      rw [getElem?_chunks, if_pos bound]
    have nothing := gapless i j _ later (getElem?_chunks_nil.mpr ⟨by omega, first⟩)
      (getElem?_chunks_nil.mpr ⟨by omega, second⟩) found
    exact (@listSector_eq_nil disk ⟨j, bound⟩).mp nothing
  · intro noGap i j chunk later first second last
    rw [getElem?_chunks] at last
    split_ifs at last with bound
    rw [← Option.some.inj last, @listSector_eq_nil disk ⟨j, bound⟩]
    exact noGap i j later bound (getElem?_chunks_nil.mp first).2 (getElem?_chunks_nil.mp second).2

/-! ## Complete listings -/

/-- The listing is complete when there is no gap and every name can be read, and only then. -/
theorem lists_listing_iff (disk : Nat → Block) : Lists disk (listing disk) ↔ NoGap disk ∧ Readable disk := by
  constructor
  · intro complete
    have whole : listing disk = (chunks disk).flatten := by
      apply (untilGap_starts 0 (chunks disk)).eq_of_length
      have counts := complete.length_eq
      rw [length_map, length_map] at counts
      rw [flatten_chunks, length_map]
      exact counts
    refine ⟨gapless_chunks.mp (untilGap_eq_flatten.mp whole), ?_⟩
    intro slot live
    have member : ((entryOn disk slot).rawName, (entryOn disk slot).size) ∈
        (listing disk).map fun file => (asBytes file.name, file.size) :=
      complete.mem_iff.mpr (mem_map.mpr ⟨slot, mem_liveSlots.mpr live, rfl⟩)
    obtain ⟨file, _, same⟩ := mem_map.mp member
    rw [← (Prod.mk.inj same).1, fromUtf8_asBytes]
    exact Option.some_ne_none _
  · rintro ⟨noGap, readable⟩
    have whole : listing disk = (chunks disk).flatten := untilGap_eq_flatten.mpr (gapless_chunks.mpr noGap)
    apply List.Perm.of_eq
    rw [whole, flatten_chunks, map_map]
    refine map_congr_left fun slot member => ?_
    obtain ⟨name, read⟩ := Option.ne_none_iff_exists'.mp (readable slot (mem_liveSlots.mp member))
    refine Prod.ext ?_ rfl
    simp [fileInfo, read, asBytes_of_fromUtf8 read]

/-! ## `exists` and `is_dir` -/

/-- The path is a directory above a name in use. -/
def HasFiles (disk : Nat → Block) (path : String) : Prop :=
  ∃ slot, Live disk slot ∧ asBytes path ++ [0x2F] <+: (entryOn disk slot).rawName

/-- A name that starts with the bytes of a directory starts with its characters. -/
theorem isPrefixOf_dirPath {path name : String} (noSlash : endsWithSlash path = false)
    (start : asBytes path ++ [0x2F] <+: asBytes name) : (dirPath path).toList.isPrefixOf name.toList = true := by
  obtain ⟨_, split⟩ := start
  rw [asBytes_eq_encode name, append_assoc] at split
  obtain ⟨before, after, text, bytes, _⟩ := encode_split (show IsAscii 0x2F by decide) split.symm
  have same : before = path.toList := by
    have text : asBytes (String.ofList before) = asBytes path := by rw [asBytes_eq_encode, String.toList_ofList, bytes]
    rw [← asBytes_inj text, String.toList_ofList]
  have slash : asciiChar 0x2F = '/' := by decide
  have directory : (dirPath path).toList = path.toList ++ ['/'] := by
    rw [dirPath, noSlash, if_neg Bool.false_ne_true, String.toList_push]
  rw [List.isPrefixOf_iff_prefix, directory, text, same, slash]
  exact ⟨after, by rw [append_assoc, singleton_append]⟩

section State

variable {m : FsMem}

theorem listDir_lists (coherent : m.mem.Coherent) (reliable : m.dev.Reliable) (path : String) :
    ∃ m', GlobalSfs.listDir path m = .ok (listing m.view) m' := by
  obtain ⟨_, m', returned, same, -⟩ := wp_returns
    (listFrom_spec (finRange secDirCount) 0 coherent reliable)
  exact ⟨m', by rw [same] at returned; exact returned⟩

theorem wp_findEntryPos {α : Type} (reliable : m.dev.Reliable) (name : String) {f : Option Slot → FsM α}
    {Q : α → FsMem → Prop}
    {E : String → FsMem → Prop}
    (next : ∀ m₁, Same m m₁ → wp (f (firstSlot (isNamed name) m.disk)) Q E m₁) :
    wp (onDevice (findEntryPos name) >>= f) Q E m := by
  rw [wp_bind]
  apply wp_imp (onDevice_read (findEntryPos_spec reliable name))
  rintro _ m₁ ⟨rfl, same⟩
  exact next m₁ same

section

variable (coherent : m.mem.Coherent) (reliable : m.dev.Reliable)
include coherent reliable

theorem listDir_any (p : FileInfo → Bool) (start : String) :
    wp (do
      let files ← listDir start
      pure (files.any p)) (fun answer _ => answer = (listing m.view).any p) (fun _ _ => False) m := by
  rw [wp_bind]
  apply wp_imp (listFrom_spec (finRange secDirCount) 0 coherent reliable)
  rintro files _ ⟨rfl, -⟩
  rfl

section

variable {path : String} (noSlash : endsWithSlash path = false)
    (shown : ((listing m.view).any fun file => (dirPath path).toList.isPrefixOf file.name.toList) = true)
include noSlash shown

theorem isDir_listed : ∃ m', GlobalSfs.isDir path m = .ok true m' := by
  have spec : wp (isDir path) (fun answer _ => answer = true) (fun _ _ => False) m := by
    rw [isDir, noSlash]
    apply wp_imp (listDir_any coherent reliable _ "/")
    exact fun answer m' same => same.trans shown
  obtain ⟨answer, m', returned, rfl⟩ := wp_returns spec
  exact ⟨m', returned⟩

theorem pathExists_listed : ∃ m', GlobalSfs.pathExists path m = .ok true m' := by
  have spec : wp (pathExists path) (fun answer _ => answer = true) (fun _ _ => False) m := by
    unfold pathExists
    split
    · rfl
    · apply wp_findEntryPos reliable
      intro m₁ same₁
      cases firstSlot (isNamed path) m.disk with
      | some slot => rfl
      | none =>
        rw [noSlash]
        apply wp_findEntryPos (same₁.dev.reliable reliable)
        intro m₂ same₂
        cases firstSlot (isNamed (dirPath path)) m₁.disk with
        | some slot => rfl
        | none =>
          have coherent₁ := (same₁.traffic coherent).coherent
          apply wp_mono
            (listDir_any (same₂.traffic coherent₁).coherent (same₂.dev.reliable (same₁.dev.reliable reliable)) _ "/") _
            fun _ _ failure => failure
          intro answer m' same
          rw [same, same₂.view, same₁.view, shown]
  obtain ⟨answer, m', returned, rfl⟩ := wp_returns spec
  exact ⟨m', returned⟩

end

end

/-- The listing has one entry for each place in use, and a directory with files in it is found. -/
structure CompleteListing (m : FsMem) : Prop where
  lists : ∀ path, ∃ files m', GlobalSfs.listDir path m = .ok files m' ∧ Lists m.view files
  directories : ∀ path, endsWithSlash path = false → HasFiles m.view path →
    (∃ m', GlobalSfs.pathExists path m = .ok true m') ∧ ∃ m', GlobalSfs.isDir path m = .ok true m'

theorem completeListing_iff (coherent : m.mem.Coherent) (reliable : m.dev.Reliable) :
    CompleteListing m ↔ NoGap m.view ∧ Readable m.view := by
  rw [← lists_listing_iff]
  constructor
  · intro complete
    obtain ⟨files, m', returned, lists⟩ := complete.lists "/"
    obtain ⟨_, again⟩ := listDir_lists coherent reliable "/"
    rw [again] at returned
    cases returned
    exact lists
  · intro lists
    refine ⟨fun path => ?_, fun path noSlash files => ?_⟩
    · obtain ⟨m', returned⟩ := listDir_lists coherent reliable path
      exact ⟨_, m', returned, lists⟩
    · obtain ⟨slot, live, start⟩ := files
      have member := lists.mem_iff.mpr (mem_map.mpr ⟨slot, mem_liveSlots.mpr live, rfl⟩)
      obtain ⟨file, inside, same⟩ := mem_map.mp member
      rw [← (Prod.mk.inj same).1] at start
      have shown : ((listing m.view).any fun file => (dirPath path).toList.isPrefixOf file.name.toList) = true :=
        any_eq_true.mpr ⟨file, inside, isPrefixOf_dirPath noSlash start⟩
      exact ⟨pathExists_listed coherent reliable noSlash shown, isDir_listed coherent reliable noSlash shown⟩

end State

/-! ## Removing a directory -/

/-- A name in use lies below the directory. -/
def HasChild (disk : Nat → Block) (path : String) : Prop :=
  ∃ slot, Live disk slot ∧ asBytes path <+: (entryOn disk slot).rawName ∧ (entryOn disk slot).rawName ≠ asBytes path

def FrontEmpty (disk : Nat → Block) : Prop := EmptySector disk 0 ∧ EmptySector disk 1

/-- `remove` of a directory returns when nothing is below the directory, and takes its entry only. -/
structure RemovesEmpty (m : FsMem) (path : String) : Prop where
  returns : (∃ m', GlobalSfs.remove path m = .ok () m') ↔ ¬HasChild m.view path
  only : ∀ m', GlobalSfs.remove path m = .ok () m' → ∃ slot, (entryOn m.view slot).rawName = asBytes path ∧
    ¬Live m'.view slot ∧ ∀ t, t ≠ slot → entryOn m'.view t = entryOn m.view t

theorem listing_eq_nil : listing disk = [] ↔ FrontEmpty disk := by
  have first : (chunks disk)[0]? = some (listSector (disk secDirStart)) := by
    rw [getElem?_chunks, if_pos (by decide)]
  have second : (chunks disk)[1]? = some (listSector (disk (secDirStart + 1))) := by
    rw [getElem?_chunks, if_pos (by decide)]
  have emptyFirst : listSector (disk secDirStart) = [] ↔ EmptySector disk 0 :=
    @listSector_eq_nil disk ⟨0, by decide⟩
  have emptySecond : listSector (disk (secDirStart + 1)) = [] ↔ EmptySector disk 1 :=
    @listSector_eq_nil disk ⟨1, by decide⟩
  unfold listing FrontEmpty
  rw [← emptyFirst, ← emptySecond]
  cases split : chunks disk with
  | nil =>
    rw [split] at first
    cases first
  | cons c₀ rest =>
    cases rest with
    | nil =>
      rw [split] at second
      cases second
    | cons c₁ rest =>
      rw [split] at first second
      rw [← Option.some.inj first, ← Option.some.inj second, untilGap, untilGap]
      cases c₀ with
      | cons a c₀ => simp
      | nil =>
        cases c₁ with
        | cons a c₁ => simp
        | nil => simp

section State

variable {m : FsMem} {path : String}

theorem remove_listed (ready : Ready m) (slash : endsWithSlash path = true)
    (found : firstSlot (isNamed path) m.disk ≠ none) :
    wp (remove path) (fun _ _ => listing m.view = []) (fun _ _ => listing m.view ≠ []) m := by
  apply wp_findEntryPos ready.reliable
  intro m₁ same
  obtain ⟨slot, lookup⟩ := Option.ne_none_iff_exists'.mp found
  have ready₁ := same.ready ready
  rw [lookup]
  rw [wp_bind, checkChildren, if_pos slash, wp_bind]
  apply wp_mono (listFrom_spec (finRange secDirCount) 0 ready₁.coherent ready₁.reliable) _
    fun _ _ failure => failure
  rintro files m₂ ⟨listed, browsed⟩
  rw [same.view] at listed
  have files_eq : files = listing m.view := listed
  split_ifs with empty
  · rw [files_eq] at empty
    have ready₂ := browsed.ready ready₁
    rw [wp_pure, wp_bind, onCache, wp_zoom]
    apply wp_imp (BufferCache.modifyBlock_spec ready₂.coherent ready₂.reliable slot.sector _)
    rintro _ mem ⟨-, traffic⟩
    have ready₃ : Ready (m₂.setMem mem) := ⟨traffic.coherent, traffic.reliable ready₂.reliable, ready₂.reserved⟩
    rw [wp_bind]
    exact wp_mono (cacheSync_spec ready₃) (fun _ _ _ => isEmpty_iff.mp empty) fun _ _ failure => failure
  · rw [files_eq] at empty
    exact fun nothing => empty (isEmpty_iff.mpr nothing)

theorem rawName_of_isNamed {e : DirEntry} (nonempty : path ≠ "") (named : e.isNamed path = true) :
    e.rawName = asBytes path := by
  rw [isNamed, Bool.and_eq_true, beq_iff_eq, entryName] at named
  cases read : fromUtf8 e.rawName with
  | none =>
    rw [read] at named
    exact absurd named.2.symm nonempty
  | some name =>
    rw [read, Option.getD_some] at named
    rw [← named.2, asBytes_of_fromUtf8 read]

theorem removesEmpty_iff (ready : Ready m) (clean : m.mem.Clean) (slash : endsWithSlash path = true)
    (entry : ∃ slot, Live m.view slot ∧ (entryOn m.view slot).rawName = asBytes path) :
    RemovesEmpty m path ↔ (FrontEmpty m.view ∧ ¬HasChild m.view path) ∨
    (¬FrontEmpty m.view ∧ HasChild m.view path) := by
  have view : m.view = m.disk := ready.coherent.view_eq_disk clean
  have nonempty : path ≠ "" := by
    rintro rfl
    cases slash
  have found : firstSlot (isNamed path) m.disk ≠ none := by
    obtain ⟨slot, live, raw⟩ := entry
    intro none
    have := firstSlot_none none slot
    rw [← view, isNamed, live, entryName, raw, fromUtf8_asBytes] at this
    simp at this
  have returns : (∃ m', GlobalSfs.remove path m = .ok () m') ↔ FrontEmpty m.view := by
    have spec := remove_listed ready slash found
    rw [← listing_eq_nil]
    constructor
    · rintro ⟨m', returned⟩
      have nothing := wp_of_ok spec returned
      exact nothing
    · intro nothing
      cases run : remove path m with
      | ok _ m' => exact ⟨m', run⟩
      | error e m' => exact absurd nothing (wp_of_error spec run)
  have only : ∀ m', GlobalSfs.remove path m = .ok () m' → ∃ slot, (entryOn m.view slot).rawName = asBytes path ∧
      ¬Live m'.view slot ∧ ∀ t, t ≠ slot → entryOn m'.view t = entryOn m.view t := by
    intro m' returned
    obtain ⟨slot, removed⟩ := wp_of_ok (remove_spec ready path) returned
    have named := (firstSlot_some removed.found).1
    rw [← view] at named
    refine ⟨slot, rawName_of_isNamed nonempty named, ?_, fun t other => ?_⟩
    · rw [Live, removed.view, used_storeAt_noEntry]
      exact Bool.false_ne_true
    · rw [removed.view, entryOn_storeAt_other _ other noEntry_length]
  constructor
  · intro removes
    have exactly := returns.symm.trans removes.returns
    tauto
  · intro condition
    exact ⟨returns.trans (by tauto), only⟩

end State

end HavyOs.Fs
