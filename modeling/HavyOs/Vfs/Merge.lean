import HavyOs.Vfs.Resolution

/-!
# Listings with mount points

`Vfs::list_dir` merges the listing of the file system that is responsible for a directory with the
mount points in and below the directory. A mount point below `p/c` shows up in the listing of `p`
as the directory `c`, once, unless the listing already has an entry of its name.
-/

namespace HavyOs.Vfs

open List
open String (ofList toList_append toList_ofList)

open Fs (FileInfo asBytes asBytes_append asBytes_eq_encode endsWithSlash)

variable {φ : Type}

/-! ## Components -/

def IsComponent (component : String) : Prop := component ≠ "" ∧ '/' ∉ component.toList

variable (path : String)

/-- The listed directory with the slash behind it. -/
def listedPath : String := if path = "" ∨ path = "/" then "/" else path ++ "/"

/-- The name that the entry of a component has: the whole path in the root, the component elsewhere. -/
def entryName (component : String) : String :=
  if path = "" ∨ path = "/" then "/" ++ component ++ "/" else component ++ "/"

/-- The entry of a component: a directory. -/
def mountEntry (component : String) : FileInfo := ⟨entryName path component, 0, true⟩

/-- The mount point is the directory or lies below it. -/
def AtOrBelow (point directory : String) : Prop := point = directory ∨ directory.toList ++ ['/'] <+: point.toList

/-- The first component of what is behind the listed directory in a mount point. -/
def firstComponent (listed point : String) : Option String :=
  if startsWith point listed then
    let component := ofList ((behind point listed.length).toList.takeWhile (· != '/'))
    if component = "" then none else some component
  else none

theorem entryName_inj {path c d : String} (same : entryName path c = entryName path d) : c = d := by
  unfold entryName at same
  split at same <;> simpa using same

theorem takeWhile_slash {c : List Char} (plain : '/' ∉ c) (rest : List Char) :
    (c ++ '/' :: rest).takeWhile (· != '/') = c := by
  rw [takeWhile_append_of_pos]
  · simp
  · intro x member
    exact bne_iff_ne.mpr fun same => plain (same ▸ member)

theorem takeWhile_slash_split (text : List Char) :
    text = text.takeWhile (· != '/') ∨ text.takeWhile (· != '/') ++ ['/'] <+: text := by
  have whole : text.takeWhile (· != '/') ++ text.dropWhile (· != '/') = text := takeWhile_append_dropWhile
  cases rest : text.dropWhile (· != '/') with
  | nil =>
    rw [rest, append_nil] at whole
    exact Or.inl whole.symm
  | cons c more =>
    have stop : c = '/' := by
      have fails := head?_dropWhile_not (· != '/') text
      rw [rest] at fails
      simpa using fails
    subst stop
    right
    refine ⟨more, ?_⟩
    rw [append_assoc, singleton_append, ← rest, whole]

theorem firstComponent_eq_some {listed point c : String} :
    firstComponent listed point = some c ↔ IsComponent c ∧ AtOrBelow point (listed ++ c) := by
  unfold firstComponent
  constructor
  · intro found
    split_ifs at found with begins
    obtain ⟨rest, split⟩ := startsWith_iff.mp begins
    have behindIt : (behind point listed.length).toList = rest := by
      rw [behind, toList_ofList, ← split, ← String.length_toList, drop_left]
    simp only [behindIt] at found
    split at found
    · cases found
    rename_i nonempty
    cases found
    refine ⟨⟨nonempty, ?_⟩, ?_⟩
    · intro slash
      rw [toList_ofList] at slash
      simpa using mem_takeWhile_imp slash
    · unfold AtOrBelow
      rw [← String.toList_inj, toList_append, toList_ofList, ← split, append_assoc]
      refine (takeWhile_slash_split rest).imp (fun whole => ?_) fun more => ?_
      · rw [← whole]
      · exact (prefix_append_right_inj _).mpr more
  · rintro ⟨⟨nonempty, plain⟩, inside⟩
    have cut : ∃ rest, point.toList = listed.toList ++ rest ∧ rest.takeWhile (· != '/') = c.toList := by
      rcases inside with rfl | ⟨more, split⟩
      · refine ⟨c.toList, toList_append, ?_⟩
        rw [takeWhile_eq_self_iff]
        exact fun x member => bne_iff_ne.mpr fun same => plain (same ▸ member)
      · refine ⟨c.toList ++ '/' :: more, ?_, takeWhile_slash plain more⟩
        rw [← split, toList_append, append_assoc, append_assoc, singleton_append]
    obtain ⟨rest, split, first⟩ := cut
    have begins : startsWith point listed = true := startsWith_iff.mpr ⟨rest, split.symm⟩
    have behindIt : (behind point listed.length).toList = rest := by
      rw [behind, toList_ofList, split, ← String.length_toList, drop_left]
    rw [if_pos begins]
    simp [behindIt, first, if_neg nonempty]

theorem listedPath_nonempty : 1 ≤ (listedPath path).toList.length := by
  unfold listedPath
  split
  · decide
  · rw [toList_append, length_append]
    exact Nat.le_add_left 1 _

theorem firstComponent_root : firstComponent (listedPath path) "/" = none := by
  cases first : firstComponent (listedPath path) "/" with
  | none => rfl
  | some c =>
    obtain ⟨⟨nonempty, _⟩, inside⟩ := firstComponent_eq_some.mp first
    have listed := listedPath_nonempty path
    have component : 1 ≤ c.toList.length := length_pos_iff.mpr fun empty => nonempty (String.toList_eq_nil_iff.mp empty)
    have short : (listedPath path ++ c).toList.length ≤ 1 := by
      rcases inside with same | start
      · exact Nat.le_of_eq (by rw [← same]; rfl)
      · have := start.length_le
        rw [length_append] at this
        exact Nat.le_of_add_right_le this
    rw [toList_append, length_append] at short
    omega

/-! ## The mount points of a directory -/

theorem entryIn_eq (mount : MountPoint φ) {path : String} (plain : path = "/" ∨ endsWithSlash path = false) :
    mount.entryIn (if path = "" then "/" else path) = (firstComponent (listedPath path) mount.path).map
    (mountEntry path) := by
  have named : ∀ listed : String, (if startsWith mount.path listed then
      if ofList ((behind mount.path listed.length).toList.takeWhile (· != '/')) = "" then none
      else some (mountEntry path (ofList ((behind mount.path listed.length).toList.takeWhile (· != '/')))) else none) =
      (firstComponent listed mount.path).map (mountEntry path) := by
    intro listed
    unfold firstComponent
    split
    · dsimp only
      split <;> rfl
    · rfl
  unfold MountPoint.entryIn
  by_cases isRoot : mount.path = "/"
  · rw [isRoot, firstComponent_root]
    rfl
  rw [if_neg isRoot, ← named]
  by_cases root : path = "" ∨ path = "/"
  · have normalized : (if path = "" then "/" else path) = "/" := by
      rcases root with rfl | rfl <;> rfl
    simp only [normalized, if_true, listedPath, mountEntry, entryName, if_pos root]
  · obtain ⟨nonempty, noRoot⟩ := not_or.mp root
    have listed : Fs.FileSystemState.dirPath path = path ++ "/" := by
      rw [Fs.FileSystemState.dirPath, plain.resolve_left noRoot]
      rfl
    simp [if_neg nonempty, if_neg noRoot, listed, listedPath, mountEntry, entryName, if_neg root]

/-- What is added to a listing: the entries whose names are not there, each once. -/
theorem addMissing_map (entryOf : String → FileInfo) (inj : ∀ c d, (entryOf c).name = (entryOf d).name → c = d)
    (components : List String) (entries : List FileInfo) :
    ∃ added : List String, added.Nodup ∧
      (∀ c, c ∈ added ↔ c ∈ components ∧ ∀ entry ∈ entries, entry.name ≠ (entryOf c).name) ∧
      addMissing entries (components.map entryOf) = entries ++ added.map entryOf := by
  induction components generalizing entries with
  | nil => exact ⟨[], nodup_nil, by simp, (append_nil _).symm⟩
  | cons c components ih =>
    rw [map_cons, addMissing]
    split_ifs with present
    · obtain ⟨added, nodup, members, result⟩ := ih entries
      refine ⟨added, nodup, ?_, result⟩
      intro d
      rw [members, mem_cons]
      refine and_congr_left fun absent => ⟨Or.inr, ?_⟩
      rintro (rfl | inside)
      · obtain ⟨entry, member, same⟩ := any_eq_true.mp present
        exact absurd (beq_iff_eq.mp same) (absent entry member)
      · exact inside
    · have fresh : ∀ entry ∈ entries, entry.name ≠ (entryOf c).name := by
        intro entry member same
        exact present (any_eq_true.mpr ⟨entry, member, beq_iff_eq.mpr same⟩)
      obtain ⟨added, nodup, members, result⟩ := ih (entries ++ [entryOf c])
      have notAgain : c ∉ added := by
        intro again
        exact ((members c).mp again).2 (entryOf c) (by simp) rfl
      refine ⟨c :: added, nodup_cons.mpr ⟨notAgain, nodup⟩, ?_, ?_⟩
      · intro d
        rw [mem_cons, mem_cons, members]
        constructor
        · rintro (rfl | ⟨inside, absent⟩)
          · exact ⟨Or.inl rfl, fresh⟩
          · exact ⟨Or.inr inside, fun entry member => absent entry (mem_append_left _ member)⟩
        · rintro ⟨rfl | inside, absent⟩
          · exact Or.inl rfl
          · by_cases same : d = c
            · exact Or.inl same
            · refine Or.inr ⟨inside, ?_⟩
              intro entry member
              rcases mem_append.mp member with earlier | last
              · exact absent entry earlier
              · rw [mem_singleton.mp last]
                exact fun equal => same (inj c d equal).symm
      · rw [result, append_assoc]
        rfl

/-- The listing of the file system that is responsible for the directory. -/
def underlying (mounts : List (MountPoint FileSystem)) (path : String) (s : Storage) : List FileInfo × Storage :=
  match resolve mounts (if path = "" then "/" else path) with
  | some (fs, relative) => fs.listDir relative s
  | none => ([], s)

/-- A listing is the one of the file system, followed by one directory for each component with a
mount point at or below it whose name is not there yet. -/
theorem listDir_merge (mounts : List (MountPoint FileSystem)) (path : String) (s : Storage)
    (plain : path = "/" ∨ endsWithSlash path = false) :
    ∃ components : List String, components.Nodup ∧
      (∀ c, c ∈ components ↔ (IsComponent c ∧ ∃ mount ∈ mounts, AtOrBelow mount.path (listedPath path ++ c)) ∧
        ∀ entry ∈ (underlying mounts path s).1, entry.name ≠ entryName path c) ∧
      listDir mounts path s =
      ((underlying mounts path s).1 ++ components.map (mountEntry path), (underlying mounts path s).2) := by
  have entries : (mounts.filterMap fun mount => mount.entryIn (if path = "" then "/" else path)) =
      (mounts.filterMap fun mount => firstComponent (listedPath path) mount.path).map (mountEntry path) := by
    rw [map_filterMap]
    exact filterMap_congr fun mount _ => entryIn_eq mount plain
  obtain ⟨components, nodup, members, result⟩ := addMissing_map (mountEntry path)
    (fun c d => entryName_inj) (mounts.filterMap fun mount => firstComponent (listedPath path) mount.path)
    (underlying mounts path s).1
  refine ⟨components, nodup, ?_, ?_⟩
  · intro c
    rw [members, mem_filterMap]
    refine and_congr_left' ?_
    simp only [firstComponent_eq_some]
    constructor
    · rintro ⟨mount, member, isComponent, inside⟩
      exact ⟨isComponent, mount, member, inside⟩
    · rintro ⟨isComponent, mount, member, inside⟩
      exact ⟨mount, member, isComponent, inside⟩
  · rw [← result, ← entries]
    rfl

/-- A host directory with the one entry `/srv/` at the root, and two mounts below `/mnt`. -/
def threeMounts : List (MountPoint FileSystem) := [⟨"/mnt/a", .p9 1⟩, ⟨"/mnt/b", .p9 2⟩, ⟨"/", .p9 0⟩]

def hostStorage : Storage where
  vfs := some threeMounts
  global := none
  owned := fun _ => ⟨⟨Fs.zeroBlock, false, Fs.BufferCache.new⟩, ⟨fun _ => Fs.zeroBlock, fun _ => false, 0⟩, 0⟩
  drivers := fun _ => ⟨fun _ => none, fun _ => false, fun _ => [("/srv/", true)]⟩

theorem listDir_merge_root :
    ∃ components : List String, components.Nodup ∧
      (∀ c, c ∈ components ↔ (IsComponent c ∧ ∃ mount ∈ threeMounts, AtOrBelow mount.path (listedPath "/" ++ c)) ∧
        ∀ entry ∈ (underlying threeMounts "/" hostStorage).1, entry.name ≠ entryName "/" c) ∧
      listDir threeMounts "/" hostStorage =
        ((underlying threeMounts "/" hostStorage).1 ++ components.map (mountEntry "/"),
        (underlying threeMounts "/" hostStorage).2) :=
  listDir_merge threeMounts "/" hostStorage (Or.inl rfl)

end HavyOs.Vfs
