import HavyOs.Fs.State

/-!
# Block chains and what the device reads return

A file is a chain of blocks, each holding the number of the next one (zero at the
end) and 508 bytes. `Linked disk head blocks` follows the links from `head` through
exactly `blocks`. On a device without errors the lookups and `read_file` return what
these definitions say of the device's sectors; none of them sees the cache.
-/

namespace HavyOs.Fs

open HavyOs.Lib List

variable (buf : Block)

def nextOf : UInt32 := fromLeBytes (slice buf 0 4)

def payload : List UInt8 := slice buf 4 508

variable (disk : Nat → Block)

/-- Following the links from `head` passes through `blocks` and ends. -/
def Linked : UInt32 → List UInt32 → Prop
  | head, [] => head = 0
  | head, block :: rest => head = block ∧ block ≠ 0 ∧ Linked (nextOf (disk block.toNat)) rest

def contents (blocks : List UInt32) : List UInt8 :=
  blocks.flatMap fun block => payload (disk block.toNat)

/-- The file of an entry whose chain is `blocks`. -/
def fileOf (e : DirEntry) (blocks : List UInt32) : List UInt8 :=
  (contents disk blocks).take e.size.toNat

theorem payload_length : (payload buf).length = 508 := slice_length buf (by decide)

section Frame

variable {disk disk' : Nat → Block}

/-- A chain lives in its own blocks. -/
theorem Linked.frame : ∀ {blocks : List UInt32} {head : UInt32}, Linked disk head blocks →
    (∀ block ∈ blocks, disk' block.toNat = disk block.toNat) → Linked disk' head blocks := by
  intro blocks
  induction blocks with
  | nil => exact fun linked _ => linked
  | cons block rest ih =>
    rintro head ⟨same, nonzero, linked⟩ agree
    refine ⟨same, nonzero, ?_⟩
    rw [agree block (by simp)]
    exact ih linked fun b member => agree b (by simp [member])

theorem contents_frame {blocks : List UInt32} (agree : ∀ block ∈ blocks, disk' block.toNat = disk block.toNat) :
    contents disk' blocks = contents disk blocks := by
  simp only [contents, flatMap]
  congr 1
  exact map_congr_left fun block member => by rw [agree block member]

theorem fileOf_frame {blocks : List UInt32} (e : DirEntry)
    (agree : ∀ block ∈ blocks, disk' block.toNat = disk block.toNat) :
    fileOf disk' e blocks = fileOf disk e blocks := by
  rw [fileOf, contents_frame agree, fileOf]

/-- The links leave no choice. -/
theorem Linked.unique : ∀ {blocks blocks' : List UInt32} {head : UInt32}, Linked disk head blocks →
    Linked disk head blocks' → blocks = blocks' := by
  intro blocks
  induction blocks with
  | nil =>
    intro blocks' head linked linked'
    cases blocks' with
    | nil => rfl
    | cons block rest => exact absurd (linked'.1.symm.trans linked) linked'.2.1
  | cons block rest ih =>
    intro blocks' head linked linked'
    cases blocks' with
    | nil => exact absurd (linked.1.symm.trans linked') linked.2.1
    | cons block' rest' =>
      obtain rfl : block = block' := linked.1.symm.trans linked'.1
      rw [ih linked.2.2 linked'.2.2]

end Frame

/-! ## Reads of a device without errors -/

namespace BlockDev

theorem readSector_reliable {dev : BlockDev} (reliable : dev.Reliable) (sector : Nat) {E : String → BlockDev → Prop} :
    wp (readSector sector) (fun b after => b = dev.disk sector ∧ Untouched dev after) E dev := by
  apply wp_mono (readSector_spec sector dev) (fun _ _ done => done)
  rintro _ _ ⟨-, -, k, refused⟩
  rw [reliable k] at refused
  cases refused

theorem Untouched.reliable {before after : BlockDev} (h : Untouched before after) (reliable : before.Reliable) :
    after.Reliable := by
  rw [Reliable, h.fails]
  exact reliable

theorem Untouched.refl (dev : BlockDev) : Untouched dev dev := ⟨rfl, rfl⟩

end BlockDev

namespace FileSystemState

open BlockDev (Untouched)

variable {E : String → BlockDev → Prop}

/-- A scan finds the first place that qualifies, unless a read is refused before. -/
theorem scan_cases (p : DirEntry → Bool) (dirs : List (Fin secDirCount)) (dev : BlockDev) :
    wp (scan p dirs)
      (fun found after => (found = (dirs.flatMap fun i => (finRange entriesPerSector).map (Slot.mk i)).find?
        (fun slot => p (entryOn dev.disk slot)) ∨ found = none ∧ ∃ k, dev.fails k = true) ∧
        Untouched dev after) E dev := by
  induction dirs generalizing dev with
  | nil => exact ⟨Or.inl rfl, Untouched.refl _⟩
  | cons i rest ih =>
    rw [scan, wp_bind, wp_attempt]
    apply wp_mono (BlockDev.readSector_spec _ dev)
    · rintro _ dev₁ ⟨rfl, untouched⟩
      rw [flatMap_cons, find?_append, find?_map]
      have here : (fun slot => p (entryOn dev.disk slot)) ∘ Slot.mk i =
          fun j => p (entryAt (dev.disk (secDirStart + i.val)) j) := rfl
      rw [here]
      dsimp only
      cases (finRange entriesPerSector).find? fun j => p (entryAt (dev.disk (secDirStart + i.val)) j) with
      | some j => exact ⟨Or.inl rfl, untouched⟩
      | none =>
        apply wp_imp (ih dev₁)
        rintro found _ ⟨outcome, later⟩
        rw [untouched.disk, untouched.fails] at outcome
        exact ⟨outcome, untouched.trans later⟩
    · rintro _ dev₁ ⟨-, untouched, refused⟩
      exact ⟨Or.inr ⟨rfl, refused⟩, untouched⟩

variable {dev : BlockDev}

theorem scan_spec (p : DirEntry → Bool) (dirs : List (Fin secDirCount)) (reliable : dev.Reliable) :
    wp (scan p dirs)
      (fun found after => found = (dirs.flatMap fun i => (finRange entriesPerSector).map (Slot.mk i)).find?
        (fun slot => p (entryOn dev.disk slot)) ∧ Untouched dev after) E dev := by
  apply wp_imp (scan_cases p dirs dev)
  rintro found after ⟨first | ⟨-, k, refused⟩, untouched⟩
  · exact ⟨first, untouched⟩
  · rw [reliable k] at refused
    cases refused

variable (reliable : dev.Reliable)

include reliable

theorem findEntryPos_spec (name : String) :
    wp (findEntryPos name) (fun found after => found = firstSlot (DirEntry.isNamed name) dev.disk ∧ Untouched dev after)
      E dev := by
  unfold firstSlot slots
  exact scan_spec _ _ reliable

theorem findFreeDirEntry_spec :
    wp findFreeDirEntry (fun found after => found = firstSlot (fun e => !e.used) dev.disk ∧ Untouched dev after)
      E dev := by
  unfold firstSlot slots
  exact scan_spec _ _ reliable

theorem readChain_spec (size : Nat) : ∀ (blocks : List UInt32)
    (next : UInt32) (data : List UInt8), Linked dev.disk next blocks →
    wp (readChain size next data)
      (fun result after => result = some (data ++ (contents dev.disk blocks).take (size - data.length)) ∧
        Untouched dev after) E dev := by
  intro blocks
  induction blocks generalizing dev with
  | nil =>
    intro next data linked
    have zero : next = 0 := linked
    rw [readChain, dif_neg (by simp [zero])]
    exact ⟨by simp [contents], Untouched.refl _⟩
  | cons block rest ih =>
    rintro next data ⟨rfl, nonzero, linked⟩
    rw [readChain]
    by_cases more : data.length < size
    · rw [dif_pos ⟨nonzero, more⟩, wp_bind, wp_attempt]
      apply wp_imp (BlockDev.readSector_reliable reliable _)
      rintro _ dev₁ ⟨rfl, untouched⟩
      have chunk : 4 + min (size - data.length) 508 ≤ 512 := by omega
      have linked₁ : Linked dev₁.disk (nextOf (dev.disk next.toNat)) rest := by
        rw [untouched.disk]
        exact linked
      apply wp_imp (ih (untouched.reliable reliable) _ _ linked₁)
      rintro result _ ⟨rfl, later⟩
      refine ⟨?_, untouched.trans later⟩
      have cut : slice (dev.disk next.toNat) 4 (min (size - data.length) 508) =
          (payload (dev.disk next.toNat)).take (size - data.length) := by
        simp only [payload, slice, take_take]
      have rest_length : size - (data ++ slice (dev.disk next.toNat) 4 (min (size - data.length) 508)).length =
          size - data.length - 508 := by
        rw [length_append, slice_length _ chunk]
        omega
      have split : contents dev.disk (next :: rest) = payload (dev.disk next.toNat) ++ contents dev.disk rest := rfl
      rw [untouched.disk, rest_length, cut, append_assoc, split, take_append, payload_length]
    · rw [dif_neg (by simp [more])]
      refine ⟨?_, Untouched.refl _⟩
      rw [show size - data.length = 0 by omega, take_zero, append_nil]

theorem findEntry_spec (name : String) :
    wp (findEntry name)
      (fun found after => found = (firstSlot (DirEntry.isNamed name) dev.disk).map (entryOn dev.disk) ∧
        Untouched dev after) E dev := by
  rw [findEntry, wp_bind]
  apply wp_imp (findEntryPos_spec reliable name)
  rintro found _ ⟨rfl, untouched⟩
  cases firstSlot (DirEntry.isNamed name) dev.disk with
  | none => exact ⟨rfl, untouched⟩
  | some slot =>
    simp only [wp_bind, wp_attempt]
    apply wp_imp (BlockDev.readSector_reliable (untouched.reliable reliable) _)
    rintro _ _ ⟨rfl, later⟩
    refine ⟨?_, untouched.trans later⟩
    simp only [untouched.disk, Option.map_some, entryOn]

theorem readFile_absent {name : String}
    (absent : firstSlot (DirEntry.isNamed name) dev.disk = none) :
    wp (readFile name) (fun result after => result = none ∧ Untouched dev after) E dev := by
  rw [readFile, wp_bind]
  apply wp_imp (findEntry_spec reliable name)
  rintro _ _ ⟨rfl, untouched⟩
  rw [absent]
  exact ⟨rfl, untouched⟩

theorem readFile_present {name : String} {slot : Slot}
    (found : firstSlot (DirEntry.isNamed name) dev.disk = some slot) {blocks : List UInt32}
    (linked : Linked dev.disk (entryOn dev.disk slot).head blocks) :
    wp (readFile name)
      (fun result after => result = some (fileOf dev.disk (entryOn dev.disk slot) blocks) ∧ Untouched dev after)
      E dev := by
  rw [readFile, wp_bind]
  apply wp_imp (findEntry_spec reliable name)
  rintro _ dev₁ ⟨rfl, untouched⟩
  rw [found]
  have linked₁ : Linked dev₁.disk (entryOn dev.disk slot).head blocks := by
    rw [untouched.disk]
    exact linked
  apply wp_imp (readChain_spec (untouched.reliable reliable) _ blocks _ [] linked₁)
  rintro result _ ⟨rfl, later⟩
  refine ⟨?_, untouched.trans later⟩
  rw [untouched.disk, nil_append, length_nil, Nat.sub_zero, fileOf]

end FileSystemState

end HavyOs.Fs
