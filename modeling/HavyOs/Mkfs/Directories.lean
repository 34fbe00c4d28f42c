import HavyOs.Fs.Directory
import HavyOs.Mkfs.Allocation

/-!
# The directory of an image in use

Listings and removals of directories in the states that the kernel reaches from an image of
`mkfs`. `list_dir` misses the entries behind two empty sectors, which removals can leave in front
of an entry in use; and `remove` takes any entry that is listed, also the one of the directory
itself, for a child of the directory.
-/

namespace HavyOs.Mkfs

open HavyOs.Lib HavyOs.Fs List FileSystemState DirEntry

section Reached

variable {args : Args} {host : Host} {refuses : Nat → Bool} {count : Nat} {image : Builder} {m : FsMem}

section

variable (returned : main args host (start refuses) = .ok count image) (reached : Reached image.file.disk m)
include returned reached

theorem reached_sound : Sound image.file.disk m := by
  obtain ⟨files, -, built⟩ := main_returns returned
  have mapped := wp_of_ok (build_mapped args files refuses) built
  exact reached.sound fun k small => mapped.reserved small

theorem reached_ready (reliable : m.dev.Reliable) : Ready m := by
  have sound := reached_sound returned reached
  exact ⟨sound.coherent, reliable, fun k small => sound.lineage.grown k (sound.lineage.reserved k small)⟩

end

/-- On a device without errors the listing is complete in a reached state exactly when nothing in
use lies behind two empty sectors in a row and all names in use are UTF-8. -/
theorem listing_complete_iff (returned : main args host (start refuses) = .ok count image)
    (reached : Reached image.file.disk m) (reliable : m.dev.Reliable) :
    CompleteListing m ↔ NoGap m.view ∧ Readable m.view :=
  completeListing_iff (reached_sound returned reached).coherent reliable

/-- On a device without errors the removal of a directory is right in a reached state with nothing
dirty exactly when the first two sectors are empty and nothing is below the directory, or the first
two sectors are not empty and something is. -/
theorem directory_removal_iff (returned : main args host (start refuses) = .ok count image)
    (reached : Reached image.file.disk m) (reliable : m.dev.Reliable) (clean : m.mem.Clean) {path : String}
    (slash : endsWithSlash path = true)
    (entry : ∃ slot, Live m.view slot ∧ (entryOn m.view slot).rawName = asBytes path) :
    RemovesEmpty m path ↔ (FrontEmpty m.view ∧ ¬HasChild m.view path) ∨ (¬FrontEmpty m.view ∧ HasChild m.view path) :=
  removesEmpty_iff (reached_ready returned reached reliable) clean slash entry

end Reached

/-! ## An image of some files -/

/-- A host with the directory `src`, the files in it, and no build products. -/
def flatHost (files : List SourceFile) : Host where
  pathExists path := path == ["src"]
  isDir path := path == ["src"]
  readDir _ := .ok (files.map fun file => .ok ⟨some file.1, false, true, .ok file.2⟩)

variable {files : List SourceFile} {m : FsMem}

theorem flat_mounted (choice : selected ⟨some ["src"], 1⟩ (flatHost files) = .ok files)
    (few : files.length ≤ 448) (fits : endOf files ≤ mapBits) (named : ∀ file ∈ files, Importable file.1)
    (distinct : (files.map Prod.fst).Nodup) :
    ∃ image m, mkfs 1 (flatHost files) = .ok files.length image ∧
      Built ⟨some ["src"], 1⟩ files image.file.disk ∧ Reached image.file.disk m ∧ Mounted m ∧
      m.disk = image.file.disk := by
  obtain ⟨image, ran, built⟩ := build_returns (build_spec ⟨some ["src"], 1⟩ files few) fits fun file member =>
    (named file member).storable.fits
  have valid := built.valid named distinct
  obtain ⟨_, dev', init, rfl, untouched⟩ := wp_returns (@init_spec ⟨image.file.disk, fun _ => false, 0⟩
    (fun _ => rfl) valid.magic _)
  refine ⟨image, ⟨_, dev', 0⟩, ?_, built, Reached.mount rfl init, mounted_of_init (fun _ => rfl) valid init 0,
    untouched.disk⟩
  rw [mkfs, main_selected choice, bind_ok _ ran]
  rfl

/-- The state after the first `k` files were removed. -/
structure FirstGone (disk : Nat → Block) (k : Nat) (m : FsMem) : Prop where
  reached : Reached disk m
  ready : Ready m
  clean : m.mem.Clean
  gone : ∀ slot : Slot, slot.rank < k → ¬Live m.view slot
  kept : ∀ slot : Slot, k ≤ slot.rank → entryOn m.view slot = entryOn disk slot

variable {disk : Nat → Block}

/-- Removing files in the order of the directory leaves the places of the others. -/
theorem Built.removeFirst {args : Args} (built : Built args files disk)
    (few : files.length ≤ 448) (named : ∀ file ∈ files, Importable file.1 ∧ endsWithSlash file.1 = false)
    (distinct : (files.map Prod.fst).Nodup) (reached : Reached disk m) (mounted : Mounted m) (same : m.disk = disk)
    {k : Nat}
    (enough : k ≤ files.length) : ∃ m', FirstGone disk k m' := by
  induction k with
  | zero =>
    refine ⟨m, reached, mounted.ready, mounted.clean, fun slot below => by omega, fun slot _ => ?_⟩
    rw [mounted.view, same]
  | succ k ih =>
    obtain ⟨m₁, first⟩ := ih (by omega)
    obtain ⟨slot, rank⟩ := exists_rank (show k < 448 by omega)
    have found : files[slot.rank]? = some files[k] := by rw [rank, getElem?_eq_getElem enough]
    obtain ⟨importable, noSlash⟩ := named files[k] (getElem_mem enough)
    have view : m₁.view = m₁.disk := first.ready.coherent.view_eq_disk first.clean
    have entry := first.kept slot (by omega)
    have raw := built.entry_rawName found importable
    have lookup : firstSlot (isNamed files[k].1) m₁.disk = some slot := by
      rw [← view]
      apply firstSlot_eq
      · rw [entry, isNamed_iff importable.storable, raw]
      · intro t isNamed
        have rawT := (isNamed_iff importable.storable).mp isNamed
        have live : Live m₁.view t := used_of_rawName fun empty => by
          have := importable.nonempty
          rw [← rawT, empty] at this
          cases this
        have behind : k ≤ t.rank := by
          by_contra below
          exact first.gone t (by omega) live
        rw [first.kept t behind] at rawT
        obtain ⟨file, foundT⟩ :=
          built.file_of_used (show (entryOn disk t).used = true by rw [← first.kept t behind]; exact live)
        exact built.slot_eq (fun file member => (named file member).1) distinct foundT found (rawT.trans raw.symm)
    obtain ⟨m₂, removed, result⟩ := remove_returns first.ready lookup noSlash
    refine ⟨m₂, Reached.call (.remove files[k].1) first.reached (Or.inl ⟨(), removed⟩), result.synced.ready,
      result.synced.clean,
      fun t below => ?_, fun t behind => ?_⟩
    · rw [Live, result.view]
      by_cases here : t = slot
      · rw [here, used_storeAt_noEntry]
        exact Bool.false_ne_true
      · have other : t.rank ≠ k := fun equal => here (Slot.rank_inj (equal.trans rank.symm))
        rw [entryOn_storeAt_other _ here noEntry_length]
        exact first.gone t (by omega)
    · have here : t ≠ slot := by
        rintro rfl
        omega
      rw [result.view, entryOn_storeAt_other _ here noEntry_length]
      exact first.kept t (by omega)

/-! ## Directories with known names -/

/-- The first places of the directory hold these names, the others are unused, and everything is on
the device. -/
structure Stock (names : List String) (m : FsMem) : Prop where
  synced : Synced m
  low : LowUncached m
  named : ∀ slot : Slot, ∀ name, names[slot.rank]? = some name → Live m.view slot ∧
    (entryOn m.view slot).rawName = asBytes name
  unused : ∀ slot : Slot, names.length ≤ slot.rank → ¬Live m.view slot

namespace Stock

variable {names : List String} {m : FsMem}

theorem live (stock : Stock names m) {slot : Slot} (live : Live m.view slot) :
    ∃ name ∈ names, (entryOn m.view slot).rawName = asBytes name := by
  have inside : slot.rank < names.length := by
    by_contra outside
    exact stock.unused slot (by omega) live
  exact ⟨names[slot.rank], getElem_mem inside, (stock.named slot _ (getElem?_eq_getElem inside)).2⟩

variable (stock : Stock names m)

include stock

theorem mem (few : names.length ≤ 448) {name : String} (member : name ∈ names) :
    ∃ slot, Live m.view slot ∧ (entryOn m.view slot).rawName = asBytes name := by
  obtain ⟨k, bound, rfl⟩ := getElem_of_mem member
  obtain ⟨slot, rank⟩ := exists_rank (show k < 448 by omega)
  exact ⟨slot, stock.named slot _ (by rw [rank, getElem?_eq_getElem bound])⟩

theorem hasChild_iff (few : names.length ≤ 448) {path : String} :
    HasChild m.view path ↔ ∃ name ∈ names, asBytes path <+: asBytes name ∧ asBytes name ≠ asBytes path := by
  constructor
  · rintro ⟨slot, live, below, other⟩
    obtain ⟨name, member, raw⟩ := stock.live live
    rw [raw] at below other
    exact ⟨name, member, below, other⟩
  · rintro ⟨name, member, below, other⟩
    obtain ⟨slot, live, raw⟩ := stock.mem few member
    rw [← raw] at below other
    exact ⟨slot, live, below, other⟩

/-- A new name goes to the first free place. -/
theorem selects (room : names.length < 448) {name : String} (storable : Storable name)
    (fresh : name ∉ names) : ∃ slot : Slot, slot.rank = names.length ∧ selectSlot m.disk name = some slot := by
  have none : firstSlot (isNamed name) m.disk = none := by
    rw [← stock.synced.view]
    refine find?_eq_none.mpr fun slot _ isNamed => ?_
    have raw := (isNamed_iff storable).mp isNamed
    have used : Live m.view slot := (Bool.and_eq_true _ _ ▸ isNamed : _ ∧ _).1
    obtain ⟨_, member, raw'⟩ := stock.live used
    exact fresh (asBytes_inj (raw.symm.trans raw') ▸ member)
  obtain ⟨slot, rank⟩ := exists_rank room
  refine ⟨slot, rank, ?_⟩
  have clear := stock.unused slot (by omega)
  rw [selectSlot, none, Option.none_or, ← stock.synced.view]
  cases found : firstSlot (fun e => !e.used) m.view with
  | none =>
    have used := firstSlot_none found slot
    exact absurd (by simpa [Live] using used) clear
  | some t =>
    obtain ⟨free, before⟩ := firstSlot_some found
    have behind : names.length ≤ t.rank := by
      by_contra inside
      have live := (stock.named t _ (getElem?_eq_getElem (by omega))).1
      rw [live] at free
      cases free
    have first : ¬slot.rank < t.rank := by
      intro lower
      exact clear (by simpa [Live] using before slot lower)
    rw [Slot.rank_inj (show t.rank = slot.rank by omega)]

theorem write (reached : Reached disk m) (room : names.length < 448) {name : String}
    (storable : Storable name) (fresh : name ∉ names) : ∃ m', Reached disk m' ∧ Stock (names ++ [name]) m' := by
  obtain ⟨slot, rank, selected⟩ := stock.selects room storable fresh
  obtain ⟨m₁, slot', _, wrote, written⟩ := @writeFile_returns m
    stock.synced.ready name [] (by rw [selected]; simp) (Nat.zero_le _)
  obtain rfl : slot = slot' := Option.some.inj (selected.symm.trans written.selected)
  obtain ⟨_, m₂, ran, synced, -, -, low, disk₂⟩ := wp_returns (sync_spec
    (written.ready stock.synced.ready) (written.low stock.low))
  have entries : ∀ t, entryOn m₂.view t = entryOn m₁.view t := by
    intro t
    have other : t.sector ≠ Fs.secMapStart := by
      have := t.sector_bounds
      simp only [Fs.secMapStart]
      omega
    rw [entryOn, synced.view, disk_elsewhere disk₂ other, entryOn]
  have synced' : FsCall.sync.exec m₁ = .ok () m₂ := by
    simp only [FsCall.exec, bind, EStateM.bind, ran]
    rfl
  refine ⟨m₂, ?_, synced, low, fun t other found => ?_, fun t behind => ?_⟩
  · exact Reached.call .sync (Reached.call (.writeFile name []) reached (Or.inl ⟨(), wrote⟩)) (Or.inl ⟨(), synced'⟩)
  · rw [Live, entries t]
    by_cases here : t = slot
    · subst here
      rw [rank, getElem?_concat_length] at found
      cases found
      rw [written.entry]
      exact ⟨newEntry_used storable _ _, newEntry_rawName storable _ _⟩
    · have before : t.rank < names.length := by
        obtain ⟨bound, -⟩ := List.getElem?_eq_some_iff.mp found
        have apart : t.rank ≠ slot.rank := fun same => here (Slot.rank_inj same)
        rw [length_append, length_singleton] at bound
        omega
      rw [getElem?_append_left before] at found
      rw [written.entries t here]
      exact stock.named t other found
  · rw [length_append, length_singleton] at behind
    have here : t ≠ slot := by
      rintro rfl
      omega
    rw [Live, entries t, written.entries t here]
    exact stock.unused t (by omega)

end Stock

theorem Built.stock {args : Args} (built : Built args files disk)
    (named : ∀ file ∈ files, Importable file.1) (mounted : Mounted m) (same : m.disk = disk) :
    Stock (files.map Prod.fst) m := by
  have view : m.view = disk := mounted.view.trans same
  refine ⟨⟨mounted.ready, mounted.clean, mounted.view⟩, fun s _ => mounted.uncached s, fun slot name found => ?_,
    fun slot behind => ?_⟩
  · obtain ⟨file, here, rfl⟩ := Option.map_eq_some_iff.mp (by rw [← getElem?_map]; exact found)
    have raw := built.entry_rawName here (named file (mem_of_getElem? here))
    rw [view]
    refine ⟨used_of_rawName fun empty => ?_, raw⟩
    have := (named file (mem_of_getElem? here)).nonempty
    rw [← raw, empty] at this
    cases this
  · rw [length_map] at behind
    rw [Live, view, built.unused slot behind]
    exact Bool.false_ne_true

/-! ## A directory that is not removed -/

/-- A file and the entry of a directory without children. -/
theorem empty_directory : ∃ image m,
    mkfs 1 (flatHost [("a", [])]) = .ok 1 image ∧ Reached image.file.disk m ∧
      Stock ["a", "d/"] m := by
  have named : ∀ file ∈ [("a", ([] : List UInt8))], Importable file.1 := by
    simp only [forall_mem_cons]
    exact ⟨⟨by decide, by decide, by decide⟩, by simp⟩
  obtain ⟨image, m, returned, built, reached, mounted, same⟩ :=
    @flat_mounted [("a", [])] rfl (by decide) (by decide) named
    (by decide)
  obtain ⟨m', reached', stock⟩ := (built.stock named mounted same).write reached (by decide)
    (show Storable "d/" from ⟨by decide, by decide, by decide⟩) (by decide)
  exact ⟨image, m', returned, reached', stock⟩

/-- The first place is used. -/
theorem Stock.not_frontEmpty {name : String} {names : List String} (stock : Stock (name :: names) m) :
    ¬FrontEmpty m.view := fun front => front.1 ⟨0, 0⟩ rfl (stock.named ⟨0, 0⟩ name rfl).1

/-- `remove` refuses the directory though nothing is below it. -/
theorem empty_directory_stays : ∃ image m,
    mkfs 1 (flatHost [("a", [])]) = .ok 1 image ∧ Reached image.file.disk m ∧
      m.dev.Reliable ∧ m.mem.Clean ∧ endsWithSlash "d/" = true ∧
      (∃ slot, Live m.view slot ∧ (entryOn m.view slot).rawName = asBytes "d/") ∧ ¬RemovesEmpty m "d/" := by
  obtain ⟨image, m, returned, reached, stock⟩ := empty_directory
  have entry := stock.mem (by decide) (show "d/" ∈ ["a", "d/"] by decide)
  refine ⟨image, m, returned, reached, stock.synced.ready.reliable,
    stock.synced.clean, by decide, entry, fun removes => ?_⟩
  have childless : ¬HasChild m.view "d/" := by
    rw [stock.hasChild_iff (by decide)]
    decide +kernel
  rcases (removesEmpty_iff stock.synced.ready stock.synced.clean (by decide) entry).mp removes
    with ⟨front, -⟩ | ⟨-, child⟩
  · exact stock.not_frontEmpty front
  · exact childless child

/-- With a file in the directory the refusal is right. -/
theorem directory_removal_iff_child : ∃ image m,
    mkfs 1 (flatHost [("a", [])]) = .ok 1 image ∧ Reached image.file.disk m ∧
      RemovesEmpty m "d/" := by
  obtain ⟨image, m, returned, reached, stock⟩ := empty_directory
  obtain ⟨m', reached', stock'⟩ := stock.write reached (by decide)
    (show Storable "d/x" from ⟨by decide, by decide, by decide⟩) (by decide)
  have entry := stock'.mem (by decide) (show "d/" ∈ ["a", "d/", "d/x"] by decide)
  refine ⟨image, m', returned, reached', ?_⟩
  apply (directory_removal_iff returned reached' stock'.synced.ready.reliable stock'.synced.clean (by decide) entry).mpr
  refine Or.inr ⟨stock'.not_frontEmpty, (stock'.hasChild_iff (by decide)).mpr ?_⟩
  exact ⟨"d/x", by decide, by decide +kernel, by decide +kernel⟩

/-! ## A file behind a gap -/

/-- The names are listed when they fit in the first sector. -/
theorem listing_complete_iff_first : ∃ image m,
    mkfs 1 (flatHost [("a", [])]) = .ok 1 image ∧ Reached image.file.disk m ∧
      CompleteListing m := by
  obtain ⟨image, m, returned, reached, stock⟩ := empty_directory
  refine ⟨image, m, returned, reached, ?_⟩
  apply (listing_complete_iff returned reached stock.synced.ready.reliable).mpr
  constructor
  · intro i j later bound first second slot dir live
    have outside : 2 ≤ slot.rank := by
      simp only [Slot.rank, Fs.entriesPerSector]
      omega
    exact stock.unused slot outside live
  · intro slot live
    obtain ⟨_, -, raw⟩ := stock.live live
    rw [raw, fromUtf8_asBytes]
    exact Option.some_ne_none _

def fifteenFiles : List SourceFile :=
  [("a", []), ("b", []), ("c", []), ("d", []), ("e", []), ("f", []), ("g", []), ("h", []), ("i", []), ("j", []),
  ("k", []),
    ("l", []), ("m", []), ("n", []), ("o", [])]

def fifteenthPlace : Slot := ⟨2, 0⟩

theorem fifteenFiles_named : ∀ file ∈ fifteenFiles, Importable file.1 ∧ endsWithSlash file.1 = false := by
  have plain : ∀ file ∈ fifteenFiles,
    (1 ≤ (asBytes file.1).length ∧ (asBytes file.1).length ≤ 63 ∧ 0 ∉ asBytes file.1) ∧
      endsWithSlash file.1 = false := by decide +kernel
  intro file member
  obtain ⟨⟨nonempty, fits, noNul⟩, noSlash⟩ := plain file member
  exact ⟨⟨nonempty, fits, noNul⟩, noSlash⟩

/-- Fifteen files of which the first fourteen were removed: the first two sectors are empty. -/
theorem fifteen_gap : ∃ image m,
    mkfs 1 (flatHost fifteenFiles) = .ok 15 image ∧ Reached image.file.disk m ∧
      Ready m ∧ m.mem.Clean ∧ FrontEmpty m.view ∧ Live m.view fifteenthPlace := by
  have named : ∀ file ∈ fifteenFiles, Importable file.1 := fun file member => (fifteenFiles_named file member).1
  obtain ⟨image, m, returned, built, reached, mounted, same⟩ := @flat_mounted fifteenFiles rfl (by decide)
    (by decide) named (by decide +kernel)
  obtain ⟨m', gap⟩ := built.removeFirst (by decide) fifteenFiles_named (by decide +kernel) reached mounted same
    (show 14 ≤ fifteenFiles.length by decide)
  have empty : ∀ i, i < 2 → EmptySector m'.view i := by
    intro i small slot dir
    apply gap.gone
    have bound := slot.index.isLt
    simp only [Slot.rank, Fs.entriesPerSector] at bound ⊢
    omega
  refine ⟨image, m', returned, gap.reached, gap.ready, gap.clean, ⟨empty 0 (by decide), empty 1 (by decide)⟩, ?_⟩
  rw [Live, gap.kept _ (by decide)]
  apply used_of_rawName
  have last : fifteenFiles[fifteenthPlace.rank]? = some ("o", []) := rfl
  rw [built.entry_rawName last (named _ (mem_of_getElem? last))]
  decide

/-- The fifteenth file is not listed. -/
theorem listing_misses_file : ∃ image m,
    mkfs 1 (flatHost fifteenFiles) = .ok 15 image ∧ Reached image.file.disk m ∧
      m.dev.Reliable ∧ ¬CompleteListing m := by
  obtain ⟨image, m, returned, reached, ready, -, front, live⟩ := fifteen_gap
  refine ⟨image, m, returned, reached, ready.reliable, fun complete => ?_⟩
  have noGap := ((completeListing_iff ready.coherent ready.reliable).mp complete).1
  exact noGap 0 2 (by decide) (by decide) front.1 front.2 _ rfl live

end HavyOs.Mkfs
