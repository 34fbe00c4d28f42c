import HavyOs.Fs.BlockDev
import HavyOs.Lib.Bitmap
import HavyOs.Lib.Utf8
import Mathlib.Data.List.FinRange

/-!
# On-disk layout of the simple filesystem

The constants and the record formats that `lock/state/fs.rs` and `mkfs` share: the
directory in sectors 65 to 128, seven 72-byte entries to a sector, and data blocks
of a four-byte link followed by 508 bytes. A `Slot` is a place of the directory, so
its sector and its window inside the sector are in range by construction. The reads
of the format (`entryOn`, `firstSlot`) are functions of the sectors alone; the
kernel's device scans are shown equal to them where they are modelled.
-/

namespace HavyOs.Fs

open HavyOs.Lib

def magic : UInt32 := 0x53465331

def secSuper : Nat := 0

def secMapStart : Nat := 1

abbrev secDirStart : Nat := 65

abbrev secDirCount : Nat := 64

abbrev dirEntrySize : Nat := 72

abbrev entriesPerSector : Nat := 7

/-- The first sector behind the directory. -/
abbrev secDataStart : Nat := 129

/-! ## Names -/

def asBytes (s : String) : List UInt8 := s.toByteArray.data.toList

def fromUtf8 (bytes : List UInt8) : Option String := String.fromUTF8? ⟨bytes.toArray⟩

/-- `path.ends_with('/')`: the slash is a single byte of UTF-8 and no part of another character. -/
def endsWithSlash (path : String) : Bool := (asBytes path).getLast? == some 0x2F

theorem asBytes_inj {s t : String} (h : asBytes s = asBytes t) : s = t := by
  apply String.toByteArray_inj.mp
  apply ByteArray.ext
  exact Array.toList_inj.mp h

theorem fromUtf8_asBytes (s : String) : fromUtf8 (asBytes s) = some s := by
  have whole : (⟨(asBytes s).toArray⟩ : ByteArray) = s.toByteArray := rfl
  rw [fromUtf8, whole, String.fromUTF8?, dif_pos s.isValidUTF8]
  exact congrArg some (String.toByteArray_inj.mp rfl)

theorem asBytes_of_fromUtf8 {bytes : List UInt8} {s : String} (h : fromUtf8 bytes = some s) : asBytes s = bytes := by
  unfold fromUtf8 String.fromUTF8? at h
  split_ifs at h
  rw [← Option.some.inj h]
  rfl

theorem asBytes_append (s t : String) : asBytes (s ++ t) = asBytes s ++ asBytes t := by
  rfl

theorem asBytes_eq_encode (text : String) : asBytes text = Lib.encode text.toList := by
  rw [asBytes, ← String.utf8Encode_toList, List.utf8Encode, List.data_toByteArray]
  rfl

/-- The names a directory entry can hold without loss. -/
structure Storable (name : String) : Prop where
  nonempty : 1 ≤ (asBytes name).length
  fits : (asBytes name).length ≤ 64
  noNul : 0 ∉ asBytes name

/-! ## Directory entries -/

@[ext] structure DirEntry where
  name : Vector UInt8 64
  size : UInt32
  head : UInt32

variable (e : DirEntry)

namespace DirEntry

/-- The packed representation. -/
def bytes : List UInt8 := e.name.toList ++ (toLeBytes e.size ++ toLeBytes e.head)

/-- An entry is in use when its first byte is not zero. -/
def used : Bool := e.name[0] != 0

/-- `entry.name[..len]` with `len` the position of the first zero, or 64. -/
def rawName : List UInt8 := e.name.toList.takeWhile (· != 0)

@[simp] theorem bytes_length : e.bytes.length = dirEntrySize := by simp [bytes]

end DirEntry

/-- `name[..len].copy_from_slice(&bytes[..len])` on a zeroed name, with `len` cut at 64. -/
def fixedName (bytes : List UInt8) : Vector UInt8 64 := patch (Vector.replicate 64 0) 0 (bytes.take 64)

def offsetOf (j : Fin entriesPerSector) : Nat := j.val * dirEntrySize

theorem offsetOf_fits (j : Fin entriesPerSector) : offsetOf j + 72 ≤ 512 := by
  have bound := j.isLt
  simp only [entriesPerSector, offsetOf, dirEntrySize] at bound ⊢
  omega

variable {i j : Fin entriesPerSector} {p : DirEntry → Bool} {disk : Nat → Block} {slot : Slot}

variable (buf : Block)

/-- The entry at index `j` of a directory sector. -/
@[irreducible] def entryAt (j : Fin entriesPerSector) : DirEntry where
  name := Vector.ofFn fun i : Fin 64 =>
    have fits := offsetOf_fits j
    buf[offsetOf j + i.val]
  size := fromLeBytes (slice buf (offsetOf j + 64) 4)
  head := fromLeBytes (slice buf (offsetOf j + 68) 4)

/-- The assignment of an entry's bytes at index `j` of a directory sector. -/
def putEntry (j : Fin entriesPerSector) (bytes : List UInt8) : Block := patch buf (offsetOf j) bytes

/-- The zeroes `remove` leaves in place of an entry. -/
def noEntry : List UInt8 := List.replicate dirEntrySize 0

@[simp] theorem noEntry_length : noEntry.length = dirEntrySize := by simp [noEntry]

theorem entryAt_congr {a b : Block}
    (agree : ∀ k, k < 72 → a[offsetOf i + k]? = b[offsetOf j + k]?) : entryAt a i = entryAt b j := by
  have left := offsetOf_fits i
  have right := offsetOf_fits j
  have window : ∀ k len, k + len ≤ 72 → slice a (offsetOf i + k) len = slice b (offsetOf j + k) len := by
    intro k len inside
    apply List.ext_getElem?
    intro x
    by_cases hx : x < len
    · rw [slice_getElem? _ hx, slice_getElem? _ hx, Nat.add_assoc, Nat.add_assoc]
      exact agree (k + x) (by omega)
    · rw [List.getElem?_eq_none (by have := slice_length_le a (offsetOf i + k) len; omega),
        List.getElem?_eq_none (by have := slice_length_le b (offsetOf j + k) len; omega)]
  apply DirEntry.ext
  · apply Vector.ext
    intro k hk
    have same := agree k (by omega)
    rw [Vector.getElem?_eq_getElem (by omega), Vector.getElem?_eq_getElem (by omega)] at same
    simpa only [entryAt, Vector.getElem_ofFn] using Option.some.inj same
  · simp [entryAt, window 64 4 (by decide)]
  · simp [entryAt, window 68 4 (by decide)]

theorem entryAt_putEntry_other (h : i ≠ j) {bytes : List UInt8}
    (length : bytes.length = dirEntrySize) : entryAt (putEntry buf j bytes) i = entryAt buf i := by
  apply entryAt_congr
  intro k hk
  have fits := offsetOf_fits i
  have inside : offsetOf i + k < 512 := by omega
  rw [Vector.getElem?_eq_getElem inside, Vector.getElem?_eq_getElem inside, putEntry]
  rw [getElem_patch_apart buf inside]
  simp only [offsetOf, dirEntrySize] at length hk fits ⊢
  omega

theorem entryAt_putEntry (j : Fin entriesPerSector) (e : DirEntry) :
    entryAt (putEntry buf j e.bytes) j = e := by
  have fits := offsetOf_fits j
  have length : e.bytes.length = 72 := e.bytes_length
  have window : ∀ k len, k + len ≤ 72 →
      slice (putEntry buf j e.bytes) (offsetOf j + k) len = (e.bytes.drop k).take len :=
    fun k len inside => slice_patch_inside buf (by omega) (by omega)
  have name : (entryAt (putEntry buf j e.bytes) j).name = e.name := by
    apply Vector.ext
    intro k hk
    have here : (putEntry buf j e.bytes)[offsetOf j + k] = e.bytes[k] :=
      getElem_patch_inside buf (by omega) (by omega)
    simp only [entryAt, Vector.getElem_ofFn, here]
    simp only [DirEntry.bytes, List.getElem_append]
    rw [dif_pos (by simpa using hk)]
    simp
  have tail : e.bytes.drop 64 = toLeBytes e.size ++ toLeBytes e.head := by
    simp [DirEntry.bytes]
  have size : (entryAt (putEntry buf j e.bytes) j).size = e.size := by
    simp only [entryAt, window 64 4 (by decide), tail]
    rw [List.take_append_of_le_length (by simp), List.take_of_length_le (by simp), fromLeBytes_toLeBytes]
  have head : (entryAt (putEntry buf j e.bytes) j).head = e.head := by
    have last : e.bytes.drop 68 = toLeBytes e.head := by
      rw [show (68 : Nat) = 64 + 4 from rfl, ← List.drop_drop, tail]
      rfl
    simp only [entryAt, window 68 4 (by decide), last]
    rw [List.take_of_length_le (by simp), fromLeBytes_toLeBytes]
  exact DirEntry.ext name size head

theorem used_putEntry_noEntry (j : Fin entriesPerSector) :
    (entryAt (putEntry buf j noEntry) j).used = false := by
  have fits := offsetOf_fits j
  have first : (putEntry buf j noEntry)[offsetOf j + 0] = noEntry[0] :=
    getElem_patch_inside buf (by decide) (by omega)
  simp only [entryAt, DirEntry.used, Vector.getElem_ofFn, first]
  decide

/-! ## Names in entries -/

namespace DirEntry

/-- The name the lookups compare with: `from_utf8(..).unwrap_or("")`. -/
def entryName : String := (fromUtf8 e.rawName).getD ""

/-- What the lookup of `name` stops at. -/
def isNamed (name : String) (e : DirEntry) : Bool := e.used && e.entryName == name

/-- The first byte decides: an entry is in use when its name is not empty. -/
theorem used_iff {e : DirEntry} : e.used = true ↔ e.rawName ≠ [] := by
  have nonempty : e.name.toList ≠ [] := List.ne_nil_of_length_pos (by simp)
  obtain ⟨x, _, list⟩ := List.exists_cons_of_ne_nil nonempty
  have first : e.name[0] = x := by
    have here : e.name.toList[0]? = some x := by rw [list, List.getElem?_cons_zero]
    rw [Vector.getElem?_toList] at here
    exact Option.some.inj here
  simp only [rawName, list, used, first]
  by_cases zero : x = 0 <;> simp

theorem used_of_rawName {e : DirEntry} (h : e.rawName ≠ []) : e.used = true := used_iff.mpr h

theorem isNamed_iff {e : DirEntry} {name : String} (h : Storable name) :
    e.isNamed name = true ↔ e.rawName = asBytes name := by
  simp only [isNamed, entryName, Bool.and_eq_true, beq_iff_eq]
  constructor
  · rintro ⟨-, found⟩
    cases decoded : fromUtf8 e.rawName with
    | none =>
      rw [decoded] at found
      have := h.nonempty
      rw [← found] at this
      cases this
    | some s =>
      rw [decoded, Option.getD_some] at found
      rw [← found, asBytes_of_fromUtf8 decoded]
  · intro raw
    refine ⟨used_of_rawName fun empty => ?_, by rw [raw, fromUtf8_asBytes, Option.getD_some]⟩
    have := h.nonempty
    rw [← raw, empty] at this
    cases this

end DirEntry

theorem fixedName_toList {bytes : List UInt8} (fits : bytes.length ≤ 64) :
    (fixedName bytes).toList = bytes ++ List.replicate (64 - bytes.length) 0 := by
  rw [fixedName, List.take_of_length_le fits, patch_replicate_toList 0 fits]

/-! ## The directory -/

structure Slot where
  dir : Fin secDirCount
  index : Fin entriesPerSector
deriving DecidableEq

namespace Slot

def sector (slot : Slot) : Nat := secDirStart + slot.dir.val

def rank (slot : Slot) : Nat := slot.dir.val * entriesPerSector + slot.index.val

theorem rank_inj {s t : Slot} (h : s.rank = t.rank) : s = t := by
  obtain ⟨i, j⟩ := s
  obtain ⟨k, l⟩ := t
  have bounds := And.intro j.isLt l.isLt
  simp only [rank, entriesPerSector] at h
  have : i = k := Fin.ext (by omega)
  have : j = l := Fin.ext (by omega)
  simp_all

theorem sector_bounds (slot : Slot) : 65 ≤ slot.sector ∧ slot.sector < 129 := by
  have bound := slot.dir.isLt
  simp only [sector, secDirStart, secDirCount] at bound ⊢
  omega

theorem index_ne {s t : Slot} (sector : s.sector = t.sector) (h : s ≠ t) : s.index ≠ t.index := by
  intro same
  have dir : s.dir.val = t.dir.val := Nat.add_left_cancel sector
  exact h (rank_inj (by simp [rank, same, dir]))

end Slot

/-- The places in the order the scans visit them. -/
@[irreducible] def slots : List Slot :=
  (List.finRange secDirCount).flatMap fun i => (List.finRange entriesPerSector).map (Slot.mk i)

theorem mem_slots (slot : Slot) : slot ∈ slots := by
  simp only [slots, List.mem_flatMap, List.mem_map, List.mem_finRange, true_and]
  exact ⟨slot.dir, slot.index, rfl⟩

theorem slots_sorted : slots.Pairwise (fun s t => s.rank < t.rank) := by
  unfold slots
  refine List.pairwise_flatMap.mpr ⟨fun i _ => ?_, ?_⟩
  · refine List.pairwise_map.mpr ((List.pairwise_lt_finRange _).imp fun {j k} lt => ?_)
    simp only [Slot.rank] at ⊢
    omega
  · refine (List.pairwise_lt_finRange _).imp fun {i k} lt s hs t ht => ?_
    obtain ⟨j, -, rfl⟩ := List.mem_map.mp hs
    obtain ⟨l, -, rfl⟩ := List.mem_map.mp ht
    have bound := j.isLt
    simp only [Slot.rank, entriesPerSector] at bound ⊢
    omega

theorem slots_nodup : slots.Nodup :=
  slots_sorted.imp fun lt same => absurd lt (by rw [same]; exact Nat.lt_irrefl _)

def entryOn (disk : Nat → Block) (slot : Slot) : DirEntry := entryAt (disk slot.sector) slot.index

def firstSlot (p : DirEntry → Bool) (disk : Nat → Block) : Option Slot :=
  slots.find? fun slot => p (entryOn disk slot)

theorem firstSlot_some (h : firstSlot p disk = some slot) :
    p (entryOn disk slot) = true ∧ ∀ t : Slot, t.rank < slot.rank → p (entryOn disk t) = false := by
  obtain ⟨found, _, _, split, passed⟩ := List.find?_eq_some_iff_append.mp h
  refine ⟨found, fun t lower => ?_⟩
  have sorted := slots_sorted
  have member := mem_slots t
  rw [split] at sorted member
  rcases List.mem_append.mp member with early | late
  · simpa using passed t early
  · rcases List.mem_cons.mp late with same | later
    · rw [same] at lower
      exact absurd lower (Nat.lt_irrefl _)
    · have := (List.pairwise_cons.mp (List.pairwise_append.mp sorted).2.1).1 t later
      omega

theorem firstSlot_none (h : firstSlot p disk = none) (slot : Slot) : p (entryOn disk slot) = false := by
  simpa using List.find?_eq_none.mp h slot (mem_slots slot)

theorem firstSlot_congr {disk' : Nat → Block}
    (agree : ∀ slot, entryOn disk' slot = entryOn disk slot) : firstSlot p disk' = firstSlot p disk := by
  simp [firstSlot, agree]

/-- The sectors after an entry's bytes were stored at `slot`. -/
def storeAt (disk : Nat → Block) (slot : Slot) (bytes : List UInt8) : Nat → Block :=
  Function.update disk slot.sector (putEntry (disk slot.sector) slot.index bytes)

theorem entryOn_storeAt_other (disk : Nat → Block) {t : Slot} (h : t ≠ slot) {bytes : List UInt8}
    (length : bytes.length = dirEntrySize) : entryOn (storeAt disk slot bytes) t = entryOn disk t := by
  simp only [entryOn, storeAt, Function.update_apply]
  split
  · rename_i sector
    rw [entryAt_putEntry_other _ (Slot.index_ne sector h) length, sector]
  · rfl

theorem entryOn_storeAt (disk : Nat → Block) (slot : Slot) (e : DirEntry) :
    entryOn (storeAt disk slot e.bytes) slot = e := by
  simp [entryOn, storeAt, entryAt_putEntry]

theorem used_storeAt_noEntry (disk : Nat → Block) (slot : Slot) :
    (entryOn (storeAt disk slot noEntry) slot).used = false := by
  simp [entryOn, storeAt, used_putEntry_noEntry]

theorem storeAt_other (disk : Nat → Block) {s : Nat} (h : s ≠ slot.sector) (bytes : List UInt8) :
    storeAt disk slot bytes s = disk s := Function.update_of_ne h _ _

end HavyOs.Fs
