import HavyOs.Vfs.Mounts

/-!
# Mounting and resolution

`mount` of `fs/vfs.rs` and what `resolve_mut` finds in a table that was filled by it. The table is
sorted by the length of the paths after each call, with a stable sort.
-/

namespace HavyOs.Vfs

open List

open Fs (asBytes asBytes_append asBytes_eq_encode)

variable {φ : Type}

/-! ## Mounting -/

/-- The loop of `mount` that takes slashes off the end, on the reversed text. -/
def popSlashes : List Char → List Char
  | '/' :: c :: rest => popSlashes (c :: rest)
  | text => text

/-- The mount point as `mount` stores it: it starts with a slash and does not end with one. -/
def normalizeMountPoint (mountPoint : String) : String :=
  if mountPoint = "/" then "/"
  else
    let s := if startsWith mountPoint "/" then mountPoint else "/" ++ mountPoint
    String.ofList (popSlashes s.toList.reverse).reverse

/-- The order of `sort_by`: longer paths come first. -/
def longerFirst (a b : MountPoint φ) : Bool := (asBytes b.path).length ≤ (asBytes a.path).length

/-- The mount point that a call of `mount` pushes. -/
def pushed (call : String × φ) : MountPoint φ := ⟨normalizeMountPoint call.1, call.2⟩

def mount (mounts : List (MountPoint φ)) (mountPoint : String) (fs : φ) : List (MountPoint φ) :=
  (mounts ++ [pushed (mountPoint, fs)]).mergeSort longerFirst

/-- The table after a sequence of calls. -/
def mountAll (calls : List (String × φ)) : List (MountPoint φ) :=
  calls.foldl (fun mounts call => mount mounts call.1 call.2) []

/-! ## Responsible mounts -/

/-- The mount point is a start of the path that ends at a component boundary. -/
def EndsAtBoundary (point path : String) : Prop :=
  path = point ∨ point.toList ++ ['/'] <+: path.toList ∨ point = "/" ∧ point.toList <+: path.toList

/-- The mount point matches: it ends at a component boundary of the path, or it is the root. -/
def Matches (point path : String) : Prop := EndsAtBoundary point path ∨ point = "/"

/-- What is passed to the file system of a mount point. -/
def remaining (point path : String) : String :=
  if path = point then "/" else if point = "/" then path else behind path point.length

/-- The longest mount point of the calls that matches the path. -/
structure Longest (calls : List (String × φ)) (path point : String) : Prop where
  mounted : ∃ call ∈ calls, normalizeMountPoint call.1 = point
  responsible : Matches point path
  longest : ∀ call ∈ calls, Matches (normalizeMountPoint call.1) path →
    (asBytes (normalizeMountPoint call.1)).length ≤ (asBytes point).length

/-- The file systems that the calls mount at a point, the earliest first. -/
def mountedAt (calls : List (String × φ)) (point : String) : List φ :=
  (calls.filter fun call => normalizeMountPoint call.1 = point).map (·.2)

variable {point path : String} {mounts : List (MountPoint φ)} {calls : List (String × φ)} {p q : String}
  {calls' : List (String × φ)}

theorem matches_iff : Matches point path ↔ path = point ∨ point = "/" ∨ point.toList ++ ['/'] <+: path.toList := by
  unfold Matches EndsAtBoundary
  tauto

theorem startsWith_iff {start : String} : startsWith path start = true ↔ start.toList <+: path.toList :=
  isPrefixOf_iff_prefix

theorem relative_of_matches {mount : MountPoint φ} (responsible : Matches mount.path path) :
    mount.relative path = some (remaining mount.path path) := by
  unfold MountPoint.relative remaining
  by_cases same : path = mount.path
  · rw [if_pos same, if_pos same]
  rw [if_neg same, if_neg same]
  by_cases root : mount.path = "/"
  · rw [if_pos root, if_pos root]
  rw [if_neg root, if_neg root]
  obtain ⟨rest, split⟩ := ((matches_iff.mp responsible).resolve_left same).resolve_left root
  have begins : startsWith path mount.path = true := by
    rw [startsWith_iff, ← split, append_assoc]
    exact prefix_append _ _
  have behindIt : (behind path mount.path.length).toList = '/' :: rest := by
    rw [behind, String.toList_ofList, ← split, append_assoc, ← String.length_toList, drop_left]
    rfl
  have slash : startsWith (behind path mount.path.length) "/" = true := by
    rw [startsWith_iff, behindIt]
    exact ⟨rest, rfl⟩
  have nonempty : behind path mount.path.length ≠ "" := by
    intro empty
    rw [empty] at behindIt
    cases behindIt
  simp [begins, slash, nonempty]

theorem relative_of_not_matches {mount : MountPoint φ} (other : ¬Matches mount.path path) :
    mount.relative path = none := by
  rw [matches_iff, not_or, not_or] at other
  obtain ⟨different, noRoot, noStart⟩ := other
  unfold MountPoint.relative
  rw [if_neg different, if_neg noRoot]
  by_cases begins : startsWith path mount.path = true
  · rw [if_pos begins]
    obtain ⟨rest, split⟩ := startsWith_iff.mp begins
    have behindIt : (behind path mount.path.length).toList = rest := by
      rw [behind, String.toList_ofList, ← split, ← String.length_toList, drop_left]
    apply if_neg
    rintro (slash | empty)
    · obtain ⟨more, cut⟩ := startsWith_iff.mp slash
      apply noStart
      rw [← split, ← behindIt, ← cut]
      exact ⟨more, append_assoc _ _ _⟩
    · rw [empty] at behindIt
      apply different
      rw [← String.toList_inj, ← split, ← behindIt]
      exact append_nil _
  · exact if_neg begins

theorem resolve_some {fs : φ} {relative : String}
    (found : resolve mounts path = some (fs, relative)) :
    ∃ before mount after, mounts = before ++ mount :: after ∧ (∀ other ∈ before, ¬Matches other.path path) ∧
      Matches mount.path path ∧ fs = mount.fs ∧ relative = remaining mount.path path := by
  induction mounts with
  | nil => cases found
  | cons mount mounts ih =>
    rw [resolve] at found
    by_cases responsible : Matches mount.path path
    · rw [relative_of_matches responsible] at found
      cases found
      exact ⟨[], mount, mounts, rfl, by simp, responsible, rfl, rfl⟩
    · rw [relative_of_not_matches responsible] at found
      obtain ⟨before, first, after, split, none, rest⟩ := ih found
      refine ⟨mount :: before, first, after, by rw [split, cons_append], ?_, rest⟩
      rintro other (_ | ⟨_, inside⟩)
      · exact responsible
      · exact none other inside

theorem resolve_none : resolve mounts path = none ↔ ∀ mount ∈ mounts, ¬Matches mount.path path := by
  induction mounts with
  | nil => simp [resolve]
  | cons mount mounts ih =>
    rw [resolve]
    by_cases responsible : Matches mount.path path
    · simp [relative_of_matches responsible, responsible]
    · simp [relative_of_not_matches responsible, responsible, ih]

/-! ## The table -/

/-- What the table holds after the calls: the longer paths first, and for each path the mounts of
the calls in the order of the calls. -/
structure Table (calls : List (String × φ)) (mounts : List (MountPoint φ)) : Prop where
  sorted : mounts.Pairwise fun a b => (asBytes b.path).length ≤ (asBytes a.path).length
  kept : ∀ point, (mounts.filter fun mount => mount.path = point) = (calls.map pushed).filter fun mount =>
    mount.path = point

theorem Table.mount (table : Table calls mounts)
    (mountPoint : String) (fs : φ) : Table (calls ++ [(mountPoint, fs)]) (mount mounts mountPoint fs) := by
  have trans : ∀ a b c : MountPoint φ, longerFirst a b = true → longerFirst b c = true → longerFirst a c = true := by
    simp only [longerFirst, decide_eq_true_eq]
    omega
  have total : ∀ a b : MountPoint φ, (longerFirst a b || longerFirst b a) = true := by
    simp only [longerFirst, Bool.or_eq_true, decide_eq_true_eq]
    omega
  constructor
  · refine (pairwise_mergeSort trans total _).imp ?_
    intro a b inOrder
    simpa [longerFirst] using inOrder
  · intro point
    rw [Vfs.mount, Lib.filter_mergeSort trans total, filter_append, table.kept, map_append, filter_append]
    · rfl
    · intro a b left right
      rw [longerFirst, of_decide_eq_true left, of_decide_eq_true right]
      exact decide_eq_true (Nat.le_refl _)

theorem table_mountAll (calls : List (String × φ)) : Table calls (mountAll calls) := by
  induction calls using reverseRecOn with
  | nil => exact ⟨List.Pairwise.nil, fun _ => rfl⟩
  | append_singleton calls call ih =>
    rw [mountAll, foldl_append]
    exact ih.mount call.1 call.2

namespace Table

variable {calls : List (String × φ)} {mounts : List (MountPoint φ)}

theorem mem_iff (table : Table calls mounts) {mount : MountPoint φ} : mount ∈ mounts ↔
    ∃ call ∈ calls, pushed call = mount := by
  have filtered : mount ∈ mounts.filter (fun other => other.path = mount.path) ↔
      mount ∈ (calls.map pushed).filter fun other => other.path = mount.path := by rw [table.kept]
  simpa using filtered

theorem earliest (table : Table calls mounts) {before after : List (MountPoint φ)} {mount : MountPoint φ}
    (split : mounts = before ++ mount :: after) (none : ∀ other ∈ before, other.path ≠ mount.path) :
    (mountedAt calls mount.path).head? = some mount.fs := by
  have kept := table.kept mount.path
  have skipped : before.filter (fun other => other.path = mount.path) = [] := by
    simpa using none
  rw [split, filter_append, skipped, filter_cons_of_pos (by simp)] at kept
  have mounted :
      mountedAt calls mount.path = (((calls.map pushed).filter fun other => other.path = mount.path).map (·.fs)) := by
    rw [filter_map, map_map]
    rfl
  rw [mounted, ← kept]
  rfl

end Table

/-! ## Mount points of one path -/

theorem getLast?_popSlashes (text : List Char) : (popSlashes text).getLast? = text.getLast? := by
  induction text using popSlashes.induct with
  | case1 c rest ih => rw [popSlashes, ih, getLast?_cons_cons]
  | case2 text other => rw [popSlashes.eq_2 text other]

theorem normalizeMountPoint_slash (mountPoint : String) : ['/'] <+: (normalizeMountPoint mountPoint).toList := by
  have lead : ∀ text : String, ['/'] <+: text.toList → ['/'] <+: (popSlashes text.toList.reverse).reverse := by
    rintro text ⟨_, split⟩
    have first : (popSlashes text.toList.reverse).reverse.head? = some '/' := by
      rw [head?_reverse, getLast?_popSlashes, getLast?_reverse, ← split]
      rfl
    exact ⟨_, cons_head?_tail first⟩
  unfold normalizeMountPoint
  split
  · exact ⟨[], rfl⟩
  · simp only [String.toList_ofList]
    apply lead
    split_ifs with slash
    · exact startsWith_iff.mp slash
    · rw [String.toList_append]
      exact prefix_append _ _

theorem eq_of_start (start : p.toList <+: q.toList) (short : (asBytes q).length ≤ (asBytes p).length) : p = q := by
  obtain ⟨rest, split⟩ := start
  rw [asBytes_eq_encode q, ← split, Lib.encode_append, ← asBytes_eq_encode, length_append] at short
  have empty : rest = [] := Lib.encode_eq_nil (eq_nil_of_length_eq_zero (by omega))
  rw [← String.toList_inj, ← split, empty, append_nil]

/-- Two mount points that match one path and have the same length are the same. -/
theorem eq_of_matches (left : Matches p path) (right : Matches q path)
    (leftSlash : ['/'] <+: p.toList) (rightSlash : ['/'] <+: q.toList)
    (same : (asBytes p).length = (asBytes q).length) : p = q := by
  by_cases leftRoot : p = "/"
  · subst leftRoot
    exact eq_of_start rightSlash (by omega)
  by_cases rightRoot : q = "/"
  · subst rightRoot
    exact (eq_of_start (p := "/") leftSlash (by omega)).symm
  have start : ∀ {point}, point ≠ "/" → Matches point path → point.toList <+: path.toList := by
    intro point noRoot responsible
    rcases matches_iff.mp responsible with rfl | root | slash
    · exact prefix_rfl
    · exact absurd root noRoot
    · exact (prefix_append _ _).trans slash
  rcases prefix_or_prefix_of_prefix (start leftRoot left) (start rightRoot right) with shorter | longer
  · exact eq_of_start shorter (by omega)
  · exact (eq_of_start longer (by omega)).symm

/-! ## What is resolved -/

namespace Table

variable {calls : List (String × φ)} {mounts : List (MountPoint φ)}

theorem resolve_eq_none (table : Table calls mounts) {path : String} :
    resolve mounts path = none ↔ ∀ call ∈ calls, ¬Matches (normalizeMountPoint call.1) path := by
  rw [resolve_none]
  constructor
  · exact fun none call member => none (pushed call) (table.mem_iff.mpr ⟨call, member, rfl⟩)
  · intro none mount member
    obtain ⟨call, inCalls, rfl⟩ := table.mem_iff.mp member
    exact none call inCalls

/-- The first mount that matches is at the longest mount point, and the earliest one there. -/
theorem resolve_eq_some (table : Table calls mounts) {path : String} {fs : φ} {relative : String}
    (found : resolve mounts path = some (fs, relative)) :
    ∃ point, Longest calls path point ∧ (mountedAt calls point).head? = some fs ∧ relative = remaining point path := by
  obtain ⟨before, mount, after, split, none, responsible, rfl, rfl⟩ := resolve_some found
  refine ⟨mount.path, ⟨?_, responsible, ?_⟩, ?_, rfl⟩
  · obtain ⟨call, inCalls, rfl⟩ := table.mem_iff.mp (split ▸ mem_append_right before mem_cons_self)
    exact ⟨call, inCalls, rfl⟩
  · intro call inCalls other
    have member : pushed call ∈ before ++ mount :: after := split ▸ table.mem_iff.mpr ⟨call, inCalls, rfl⟩
    rcases mem_append.mp member with earlier | later
    · exact absurd other (none _ earlier)
    rcases mem_cons.mp later with same | behindIt
    · exact Nat.le_of_eq (congrArg (fun mount => (asBytes mount.path).length) same)
    · have sorted := table.sorted
      rw [split, pairwise_append, pairwise_cons] at sorted
      exact sorted.2.1.1 _ behindIt
  · apply table.earliest split
    intro other earlier same
    exact none other earlier (same ▸ responsible)

end Table

theorem Longest.unique (left : Longest calls path p) (right : Longest calls path q) : p = q := by
  obtain ⟨leftCall, leftIn, leftPoint⟩ := left.mounted
  obtain ⟨rightCall, rightIn, rightPoint⟩ := right.mounted
  subst leftPoint rightPoint
  apply eq_of_matches left.responsible right.responsible (normalizeMountPoint_slash _) (normalizeMountPoint_slash _)
  exact Nat.le_antisymm (right.longest leftCall leftIn left.responsible)
    (left.longest rightCall rightIn right.responsible)

/-- The calls mount the same file systems at each point, in the same order. -/
def SameMounts (calls calls' : List (String × φ)) : Prop := ∀ point, mountedAt calls point = mountedAt calls' point

section

variable (same : SameMounts calls calls')
include same

theorem SameMounts.mem
    (mounted : ∃ call ∈ calls, normalizeMountPoint call.1 = point) : ∃ call ∈ calls',
    normalizeMountPoint call.1 = point := by
  obtain ⟨call, member, rfl⟩ := mounted
  have here : call.2 ∈ mountedAt calls (normalizeMountPoint call.1) :=
    mem_map_of_mem (mem_filter.mpr ⟨member, decide_eq_true rfl⟩)
  rw [same] at here
  obtain ⟨other, inside, _⟩ := mem_map.mp here
  exact ⟨other, (mem_filter.mp inside).1, of_decide_eq_true (mem_filter.mp inside).2⟩

theorem SameMounts.longest (longest : Longest calls path point) : Longest calls' path point := by
  refine ⟨same.mem longest.mounted, longest.responsible, ?_⟩
  intro call member responsible
  obtain ⟨other, inside, point⟩ := SameMounts.mem (fun p => (same p).symm) ⟨call, member, rfl⟩
  rw [← point] at responsible ⊢
  exact longest.longest other inside responsible

theorem SameMounts.resolve_le (path : String) {fs : φ}
    {relative : String} (found : resolve (mountAll calls) path = some (fs, relative)) :
    resolve (mountAll calls') path = some (fs, relative) := by
  obtain ⟨_, longest, first, rest⟩ := (table_mountAll calls).resolve_eq_some found
  cases found' : resolve (mountAll calls') path with
  | none =>
    obtain ⟨call, member, at'⟩ := same.mem longest.mounted
    exact absurd (at' ▸ longest.responsible) ((table_mountAll calls').resolve_eq_none.mp found' call member)
  | some result =>
    obtain ⟨_, _⟩ := result
    obtain ⟨_, longest', first', rest'⟩ := (table_mountAll calls').resolve_eq_some found'
    have samePoint := (same.longest longest).unique longest'
    subst samePoint
    rw [← same, first] at first'
    rw [rest, rest', Option.some.inj first']

end

/-- `resolve_mut` picks the earliest file system of the longest mount point that matches, passes it
the remaining path, and fails exactly when no mount point matches. The order of calls that mount at
distinct points does not matter. -/
theorem resolve_mountAll (calls : List (String × φ)) (path : String) :
    (resolve (mountAll calls) path = none ↔ ∀ call ∈ calls, ¬Matches (normalizeMountPoint call.1) path) ∧
    (∀ fs relative, resolve (mountAll calls) path = some (fs, relative) →
      ∃ point, Longest calls path point ∧ (mountedAt calls point).head? = some fs ∧ relative = remaining point path) ∧
    ∀ calls', SameMounts calls calls' → resolve (mountAll calls') path = resolve (mountAll calls) path := by
  refine ⟨(table_mountAll calls).resolve_eq_none, fun fs relative => (table_mountAll calls).resolve_eq_some, ?_⟩
  intro calls' same
  cases found : resolve (mountAll calls) path with
  | some result => exact same.resolve_le path found
  | none =>
    cases found' : resolve (mountAll calls') path with
    | none => rfl
    | some result =>
      have back := SameMounts.resolve_le (fun p => (same p).symm) path found'
      rw [found] at back
      cases back

/-- The root mount takes a path that does not start with a slash, though no mount point is a start of it. -/
theorem resolve_relative_path :
    (∀ call ∈ [("/", ())], ¬EndsAtBoundary (normalizeMountPoint call.1) "foo") ∧
      resolve (mountAll [("/", ())]) "foo" = some ((), "foo") := by
  constructor
  · simp [EndsAtBoundary, normalizeMountPoint]
  · simp [mountAll, mount, pushed, normalizeMountPoint, resolve, MountPoint.relative]

end HavyOs.Vfs
