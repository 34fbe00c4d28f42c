import HavyOs.Vfs.Proxy

/-!
# Listings through the router

The answer to `FsList` is text, one line `name:size` for each entry, and the caller takes an entry
for a directory when its name ends with a slash. A name with a newline is cut into lines of their
own, and the directory flag is not sent: a directory of the host, whose name has no slash, arrives
as a file, and a directory of SFS, which is a file to `list_dir`, arrives as a directory.
-/

namespace HavyOs.Vfs

open Lib List
open Fs (FileInfo asBytes asBytes_append fromUtf8 endsWithSlash)

/-- An entry that the text form carries: the name is one line, and the flag is what the name says. -/
def Plain (entry : FileInfo) : Prop := '\n' ∉ entry.name.toList ∧ entry.isDir = endsWithSlash entry.name

def lineOf (entry : FileInfo) : List Char := entry.name.toList ++ ':' :: printDecimal entry.size.toNat

variable (entries : List FileInfo)

theorem encodeList_eq :
    encodeList entries = asBytes (String.ofList ((entries.map lineOf).flatMap fun line => line ++ ['\n'])) := by
  induction entries with
  | nil => rfl
  | cons entry entries ih =>
    have colon : asBytes ":" = [0x3A] := by decide
    have newline : asBytes "\n" = [0x0A] := by decide
    have text : String.ofList (lineOf entry ++ ['\n']) =
        entry.name ++ ":" ++ String.ofList (printDecimal entry.size.toNat) ++ "\n" := by
      rw [← String.toList_inj]
      simp [lineOf]
    have first : encodeEntry entry = asBytes (String.ofList (lineOf entry ++ ['\n'])) := by
      rw [text, encodeEntry, asBytes_append, asBytes_append, asBytes_append, colon, newline]
    rw [encodeList, flatMap_cons, ← encodeList, ih, first, ← asBytes_append, ← String.ofList_append, map_cons,
      flatMap_cons]

variable {entry : FileInfo}

theorem decodeLine_lineOf (plain : Plain entry) : decodeLine (lineOf entry) = listed entry := by
  have colon : ':' ∉ printDecimal entry.size.toNat := not_mem_printDecimal (by decide)
  have size : parseUnsigned (2 ^ 64) (printDecimal entry.size.toNat) = some entry.size.toNat :=
    parseUnsigned_printDecimal (Nat.lt_trans entry.size.toNat_lt (by decide))
  rw [decodeLine, lineOf, rsplitOnce_append colon]
  simp only [size, Option.getD_some, String.ofList_toList, listed, plain.2]

/-- The line of an entry whose name is one line is one line, and ends with a digit. -/
theorem lineOf_plain (plain : '\n' ∉ entry.name.toList) :
    '\n' ∉ lineOf entry ∧ (lineOf entry).getLast? ≠ some '\r' := by
  have digits : ∀ {c : Char}, c.isDigit = false → c ∉ printDecimal entry.size.toNat := not_mem_printDecimal
  constructor
  · intro member
    rcases mem_append.mp member with name | later
    · exact plain name
    · rcases mem_cons.mp later with colon | size
      · cases colon
      · exact digits (by decide) size
  · intro last
    rw [lineOf, getLast?_append_cons] at last
    rcases mem_cons.mp (mem_of_getLast? last) with colon | size
    · cases colon
    · exact digits (by decide) size

/-- What the caller reads from a line has a name of one line and a flag that the name says. -/
theorem plain_of_decodeLine {line : List Char} (plain : '\n' ∉ line) (same : decodeLine line = listed entry) :
    Plain entry := by
  have named : ∀ {name : List Char} {size : Nat}, '\n' ∉ name →
      (⟨String.ofList name, endsWithSlash (String.ofList name), size⟩ : ListedFile) = listed entry → Plain entry := by
    intro name size absent equal
    obtain ⟨text, flag, -⟩ := ListedFile.mk.inj equal
    rw [Plain, ← text, ← flag, String.toList_ofList]
    exact ⟨absent, rfl⟩
  unfold decodeLine at same
  split at same
  · rename_i name size cut
    refine named (fun member => plain ?_) same
    rw [mem_of_rsplitOnce cut]
    exact mem_append_left _ member
  · exact named plain same

/-- **Round trip.** A listing is read back as it was sent exactly when all its entries are plain. -/
theorem decodeList_encodeList_iff :
    decodeList (encodeList entries) = entries.map listed ↔ ∀ entry ∈ entries, Plain entry := by
  rw [decodeList, encodeList_eq, Fs.fromUtf8_asBytes, Option.getD_some, String.toList_ofList]
  constructor
  · intro same entry member
    have arrived : listed entry ∈ entries.map listed := mem_map_of_mem member
    rw [← same] at arrived
    obtain ⟨line, present, equal⟩ := mem_map.mp arrived
    exact plain_of_decodeLine (newline_not_mem_lines (mem_filter.mp present).1) equal
  · intro plain
    have oneLine : ∀ line ∈ entries.map lineOf, '\n' ∉ line ∧ line.getLast? ≠ some '\r' := by
      intro line member
      obtain ⟨entry, present, rfl⟩ := mem_map.mp member
      exact lineOf_plain (plain entry present).1
    have nonempty : ∀ line ∈ entries.map lineOf, (!line.isEmpty) = true := by
      intro line member
      obtain ⟨entry, -, rfl⟩ := mem_map.mp member
      simp [lineOf]
    rw [lines_flatMap oneLine, filter_eq_self.mpr nonempty, map_map]
    exact map_congr_left fun entry member => decodeLine_lineOf (plain entry member)

/-- **Listings.** On every hart `fs_list` returns what it returns on hart 0 exactly when all the entries are plain. -/
theorem fsList_hart_independent (hart : Nat) (path : String) (s : Storage) :
    (fsList (hart + 1) path s).1 = (fsList 0 path s).1 ↔ ∀ entry ∈ (listWithVfsOrLegacy path s).1, Plain entry := by
  have direct : (fsList 0 path s).1 = (listWithVfsOrLegacy path s).1.map listed := rfl
  -- a hart other than hart 0 decodes the entries that hart 0 lists
  have decoded : (fsList (hart + 1) path s).1 = decodeList (encodeList (listWithVfsOrLegacy path s).1) := by
    rw [fsList, handleFsList]
    cases vfs : s.vfs with
    | some mounts => rfl
    | none =>
      cases global : s.global with
      | some m => rfl
      | none =>
        have nothing : (listWithVfsOrLegacy path s).1 = [] := by
          rw [listWithVfsOrLegacy, vfs]
          simp [Storage.onGlobal, global]
        rw [nothing]
        exact ((decodeList_encodeList_iff []).mpr fun _ member => absurd member not_mem_nil).symm
  rw [decoded]
  exact decodeList_encodeList_iff _

/-- The directory of the host is a directory on hart 0 and a file on the others. -/
theorem host_directory_listed : (fsList 0 "/mnt/disk1" hostMounted).1 = [⟨"sub", true, 0⟩] ∧
    (fsList 1 "/mnt/disk1" hostMounted).1 = [⟨"sub", false, 0⟩] := by
  constructor
  · decide +kernel
  · decide +kernel

end HavyOs.Vfs
