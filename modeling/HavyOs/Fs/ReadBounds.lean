import HavyOs.Fs.Chain
import Mathlib.Data.Fintype.Pigeonhole

/-!
# The reads of `read_file`

How many sectors `read_file` reads and how many bytes it returns, whatever the device holds: the
directory may be damaged, and the links of a chain may lead anywhere, also back. The run is
repeated with the numbers of the sectors noted that `read_sector` is called for; without the notes
it is the run of `read_file`. Each data sector adds 508 bytes or completes the recorded size, which
bounds the reads of a chain that does not end.
-/

namespace HavyOs.Fs

open HavyOs.Lib List
open Erases (pure)

/-! ## Chains that do not end -/

variable (disk : Nat → Block)

/-- The block behind a block of a chain; nothing is behind the end. -/
def hop (block : UInt32) : UInt32 := if block = 0 then 0 else nextOf (disk block.toNat)

/-- The block after `n` links. -/
def blockAt (head : UInt32) (n : Nat) : UInt32 := (hop disk)^[n] head

/-- The chain comes back to one of its blocks. -/
def Cyclic (head : UInt32) : Prop :=
  ∃ i j, i < j ∧ blockAt disk head i ≠ 0 ∧ blockAt disk head j = blockAt disk head i

section Chains

variable {disk : Nat → Block} {head : UInt32}

theorem blockAt_succ (n : Nat) : blockAt disk head (n + 1) = blockAt disk (hop disk head) n := rfl

theorem Linked.blockAt {blocks : List UInt32} (linked : Linked disk head blocks) :
    blockAt disk head blocks.length = 0 := by
  induction blocks generalizing head with
  | nil => exact linked
  | cons block blocks ih =>
    obtain ⟨rfl, nonzero, rest⟩ := linked
    rw [length_cons, blockAt_succ, hop, if_neg nonzero]
    exact ih rest

theorem linked_of_blockAt {n : Nat} (ended : blockAt disk head n = 0) : ∃ blocks, Linked disk head blocks := by
  induction n generalizing head with
  | zero => exact ⟨[], ended⟩
  | succ n ih =>
    by_cases zero : head = 0
    · exact ⟨[], zero⟩
    · rw [blockAt_succ, hop, if_neg zero] at ended
      obtain ⟨blocks, linked⟩ := ih ended
      exact ⟨head :: blocks, rfl, zero, linked⟩

theorem blockAt_add (i n : Nat) : blockAt disk head (i + n) = blockAt disk (blockAt disk head i) n := by
  rw [Nat.add_comm]
  exact Function.iterate_add_apply (hop disk) n i head

theorem blockAt_zero (n : Nat) : blockAt disk 0 n = 0 := by
  have fixed : hop disk 0 = 0 := if_pos rfl
  exact Function.iterate_fixed fixed n

/-- A chain ends or comes back, and not both. -/
theorem linked_iff_not_cyclic : (∃ blocks, Linked disk head blocks) ↔ ¬Cyclic disk head := by
  constructor
  · rintro ⟨blocks, linked⟩ ⟨i, j, less, inside, again⟩
    -- from `i` on the chain repeats every `j - i` links, so it does not end
    have ended := linked.blockAt
    have period : ∀ k, blockAt disk head (i + k * (j - i)) = blockAt disk head i := by
      intro k
      induction k with
      | zero => rw [Nat.zero_mul, Nat.add_zero]
      | succ k ih =>
        have shift : i + (k + 1) * (j - i) = i + k * (j - i) + (j - i) := by rw [Nat.succ_mul, Nat.add_assoc]
        rw [shift, blockAt_add, ih, ← blockAt_add, Nat.add_sub_cancel' less.le, again]
    apply inside
    have far : blocks.length ≤ i + blocks.length * (j - i) := by
      have := Nat.mul_le_mul_left blocks.length (show 1 ≤ j - i by omega)
      omega
    rw [← period blocks.length, ← Nat.add_sub_cancel' far, blockAt_add, ended, blockAt_zero]
  · intro noCycle
    by_contra endless
    have nonzero : ∀ n, blockAt disk head n ≠ 0 := fun n ended => endless (linked_of_blockAt ended)
    have : Finite UInt32 := Finite.of_injective UInt32.toFin fun _ _ same => UInt32.toFin_inj.mp same
    obtain ⟨i, j, different, same⟩ := Finite.exists_ne_map_eq_of_infinite (blockAt disk head)
    rcases Nat.lt_or_gt_of_ne different with less | less
    · exact noCycle ⟨i, j, less, nonzero i, same.symm⟩
    · exact noCycle ⟨j, i, less, nonzero j, same⟩

end Chains

/-! ## Reads with notes -/

/-- The device, with the sectors that `read_sector` was called for. -/
structure Noted where
  dev : BlockDev
  reads : List Nat

abbrev NotedM := EStateM String Noted

/-- `read_sector`, noted. -/
def readNoted (sector : Nat) : NotedM (Option Block) := do
  modify fun n => { n with reads := n.reads ++ [sector] }
  zoom Noted.dev (fun dev n => { n with dev := dev }) (attempt (BlockDev.readSector sector))

namespace FileSystemState

def scanNoted (p : DirEntry → Bool) : List (Fin secDirCount) → NotedM (Option Slot)
  | [] => pure none
  | i :: rest => do
    match ← readNoted (secDirStart + i.val) with
    | none => pure none
    | some buf =>
      match (finRange entriesPerSector).find? fun j => p (entryAt buf j) with
      | some j => pure (some ⟨i, j⟩)
      | none => scanNoted p rest

variable (name : String)

def findEntryPosNoted : NotedM (Option Slot) := scanNoted (DirEntry.isNamed name) (finRange secDirCount)

def findEntryNoted : NotedM (Option DirEntry) := do
  match ← findEntryPosNoted name with
  | none => pure none
  | some slot =>
    match ← readNoted slot.sector with
    | none => pure none
    | some buf => pure (some (entryAt buf slot.index))

theorem length_read_more {size : Nat} {data : List UInt8} (more : data.length < size) (buf : Block) :
    size - (data ++ slice buf 4 (min (size - data.length) 508)).length < size - data.length := by
  have chunk : 4 + min (size - data.length) 508 ≤ 512 := by omega
  rw [length_append, slice_length buf chunk]
  omega

variable (size : Nat)

/-- The loop of `read_file` with notes. -/
def readChainNoted (next : UInt32) (data : List UInt8) : NotedM (Option (List UInt8)) :=
  if _more : next ≠ 0 ∧ data.length < size then do
    match ← readNoted next.toNat with
    | none => pure none
    | some buf => readChainNoted (nextOf buf) (data ++ slice buf 4 (min (size - data.length) 508))
  else pure (some data)
termination_by size - data.length
decreasing_by exact length_read_more _more.2 buf

def readFileNoted : NotedM (Option (List UInt8)) := do
  match ← findEntryNoted name with
  | none => pure none
  | some entry => readChainNoted entry.size.toNat entry.head []

/-! ## Without the notes -/

variable (name : String) (p : DirEntry → Bool) (dirs : List (Fin secDirCount)) (disk : Nat → Block)
  (sector : Nat)

theorem readNoted_erases : Erases Noted.dev (readNoted sector) (attempt (BlockDev.readSector sector)) := by
  apply Erases.silent
  · exact fun n => ⟨_, rfl, rfl⟩
  · exact Erases.zoom (fun _ _ => rfl) _

theorem scanNoted_erases : Erases Noted.dev (scanNoted p dirs) (scan p dirs) := by
  induction dirs with
  | nil => exact pure _
  | cons i rest ih =>
    apply (readNoted_erases _).bind
    intro answer
    cases answer with
    | none => exact pure _
    | some buf =>
      dsimp only
      cases (finRange entriesPerSector).find? fun j => p (entryAt buf j) with
      | some j => exact pure _
      | none => exact ih

theorem findEntryNoted_erases : Erases Noted.dev (findEntryNoted name) (findEntry name) := by
  apply (scanNoted_erases _ _).bind
  intro found
  cases found with
  | none => exact pure _
  | some slot =>
    apply (readNoted_erases _).bind
    intro answer
    cases answer <;> exact pure _

theorem readChainNoted_erases (next : UInt32) (data : List UInt8) :
    Erases Noted.dev (readChainNoted size next data) (readChain size next data) := by
  induction next, data using readChainNoted.induct size with
  | case1 next data more ih =>
    rw [readChainNoted, readChain, dif_pos more, dif_pos more]
    apply (readNoted_erases _).bind
    intro answer
    cases answer with
    | none => exact pure _
    | some buf => exact ih buf
  | case2 next data done =>
    rw [readChainNoted, readChain, dif_neg done, dif_neg done]
    exact pure _

theorem readFileNoted_erases : Erases Noted.dev (readFileNoted name) (readFile name) := by
  apply (findEntryNoted_erases name).bind
  intro found
  cases found with
  | none => exact pure _
  | some entry => exact readChainNoted_erases _ _ _

/-! ## Counting -/

open BlockDev (Untouched)

theorem readNoted_spec (n : Noted) :
    wp (readNoted sector) (fun answer n' => n'.reads = n.reads ++ [sector] ∧ Untouched n.dev n'.dev ∧
      ∀ buf, answer = some buf → buf = n.dev.disk sector) (fun _ _ => False) n := by
  rw [readNoted, wp_bind, wp_modify, wp_zoom, wp_attempt]
  apply wp_mono (BlockDev.readSector_spec sector n.dev)
  · rintro buf dev ⟨rfl, untouched⟩
    exact ⟨rfl, untouched, fun _ same => (Option.some.inj same).symm⟩
  · rintro _ dev ⟨_, untouched, _⟩
    exact ⟨rfl, untouched, fun _ same => by cases same⟩

/-- A scan reads each of its sectors once at most. -/
theorem scanNoted_spec (n : Noted) :
    wp (scanNoted p dirs) (fun _ n' => ∃ reads, n'.reads = n.reads ++ reads ∧ reads.length ≤ dirs.length ∧
      (∀ s ∈ reads, secDirStart ≤ s ∧ s < secDataStart) ∧ Untouched n.dev n'.dev) (fun _ _ => False) n := by
  induction dirs generalizing n with
  | nil => exact ⟨[], (append_nil _).symm, Nat.le_refl _, by simp, Untouched.refl _⟩
  | cons i rest ih =>
    have inDir : ∀ s ∈ [secDirStart + i.val], secDirStart ≤ s ∧ s < secDataStart := by
      intro s member
      have bound := i.isLt
      simp only [mem_singleton, secDirStart, secDirCount, secDataStart] at member bound ⊢
      omega
    rw [scanNoted, wp_bind]
    apply wp_imp (readNoted_spec _ n)
    rintro answer n₁ ⟨noted, untouched, _⟩
    have here : ∃ reads, n₁.reads = n.reads ++ reads ∧ reads.length ≤ (i :: rest).length ∧
        (∀ s ∈ reads, secDirStart ≤ s ∧ s < secDataStart) ∧ Untouched n.dev n₁.dev :=
      ⟨[secDirStart + i.val], noted, Nat.le_add_left 1 _, inDir, untouched⟩
    cases answer with
    | none => exact here
    | some buf =>
      dsimp only
      cases (finRange entriesPerSector).find? fun j => p (entryAt buf j) with
      | some j => exact here
      | none =>
        apply wp_imp (ih n₁)
        rintro _ _ ⟨reads, more, few, inside, later⟩
        refine ⟨(secDirStart + i.val) :: reads, ?_, Nat.succ_le_succ few, ?_, untouched.trans later⟩
        · rw [more, noted, append_assoc]
          rfl
        · exact forall_mem_cons.mpr ⟨inDir _ mem_cons_self, inside⟩

/-- The number of bytes that are read from a block on, `had` bytes being there. -/
def LengthFrom (disk : Nat → Block) (next : UInt32) (size had length : Nat) : Prop :=
  (∀ blocks, Linked disk next blocks → length = min size (had + 508 * blocks.length)) ∧
    ((¬∃ blocks, Linked disk next blocks) → length = size)

theorem lengthFrom_end {size had : Nat} (within : had ≤ size) : LengthFrom disk 0 size had had := by
  constructor
  · intro blocks linked
    cases blocks with
    | nil => exact (Nat.min_eq_right within).symm
    | cons block rest =>
      obtain ⟨rfl, nonzero, _⟩ := linked
      exact absurd rfl nonzero
  · exact fun endless => absurd ⟨[], rfl⟩ endless

theorem lengthFrom_full (next : UInt32) (size : Nat) : LengthFrom disk next size size size :=
  ⟨fun _ _ => (Nat.min_eq_left (Nat.le_add_right _ _)).symm, fun _ => rfl⟩

theorem LengthFrom.cons {disk : Nat → Block} {next : UInt32} {size had length : Nat} (nonzero : next ≠ 0)
    (more : had < size)
    (later : LengthFrom disk (nextOf (disk next.toNat)) size (had + min (size - had) 508) length) :
    LengthFrom disk next size had length := by
  obtain ⟨ending, endless⟩ := later
  constructor
  · intro blocks linked
    cases blocks with
    | nil => exact absurd linked nonzero
    | cons block rest =>
      obtain ⟨rfl, _, linked⟩ := linked
      rw [ending rest linked, length_cons]
      omega
  · intro never
    apply endless
    rintro ⟨blocks, linked⟩
    exact never ⟨next :: blocks, rfl, nonzero, linked⟩

theorem readChainNoted_spec (next : UInt32) (data : List UInt8) (within : data.length ≤ size) (n : Noted) :
    wp (readChainNoted size next data) (fun result n' => ∃ reads, n'.reads = n.reads ++ reads ∧
      reads.length ≤ (size - data.length + 507) / 508 ∧
      ∀ d, result = some d → LengthFrom n.dev.disk next size data.length d.length) (fun _ _ => False) n := by
  induction next, data using readChainNoted.induct size generalizing n with
  | case1 next data more ih =>
    rw [readChainNoted, dif_pos more, wp_bind]
    apply wp_imp (readNoted_spec _ n)
    rintro answer n₁ ⟨noted, untouched, contents⟩
    obtain ⟨nonzero, short⟩ := more
    cases answer with
    | none =>
      refine ⟨[next.toNat], noted, ?_, fun _ same => by cases same⟩
      rw [length_singleton]
      omega
    | some buf =>
      obtain rfl := contents buf rfl
      have chunk : 4 + min (size - data.length) 508 ≤ 512 := by omega
      have grown : (data ++ slice (n.dev.disk next.toNat) 4 (min (size - data.length) 508)).length =
          data.length + min (size - data.length) 508 := by rw [length_append, slice_length _ chunk]
      apply wp_imp (ih _ (by omega) n₁)
      rintro result _ ⟨reads, more, few, length⟩
      rw [grown] at length
      refine ⟨next.toNat :: reads, ?_, ?_, ?_⟩
      · rw [more, noted, append_assoc]
        rfl
      · rw [length_cons]
        omega
      · intro d same
        rw [untouched.disk] at length
        exact LengthFrom.cons nonzero short (length d same)
  | case2 next data done =>
    rw [readChainNoted, dif_neg done]
    refine ⟨[], (append_nil _).symm, Nat.zero_le _, ?_⟩
    rintro d ⟨rfl⟩
    by_cases zero : next = 0
    · subst zero
      exact lengthFrom_end _ within
    · have full : data.length = size := by
        have := not_and.mp done zero
        omega
      rw [full]
      exact lengthFrom_full _ _ _

/-- A run of `read_file` with notes: the reads of the directory, then those of the chain of the
entry that was found. -/
theorem readFileNoted_spec (dev : BlockDev) :
    wp (readFileNoted name) (fun result n => ∃ dirReads dataReads, n.reads = dirReads ++ dataReads ∧
      dirReads.length ≤ 64 + 1 ∧ (∀ s ∈ dirReads, secDirStart ≤ s ∧ s < secDataStart) ∧
      ∃ found after, findEntryPos name dev = .ok found after ∧
        match found with
        | none => dataReads = [] ∧ result = none
        | some slot => dataReads.length ≤ ((entryOn dev.disk slot).size.toNat + 507) / 508 ∧
          ∀ d, result = some d →
            LengthFrom dev.disk (entryOn dev.disk slot).head (entryOn dev.disk slot).size.toNat 0 d.length)
      (fun _ _ => False) ⟨dev, []⟩ := by
  have erased := scanNoted_erases (DirEntry.isNamed name) (finRange secDirCount) ⟨dev, []⟩
  have spec := scanNoted_spec (DirEntry.isNamed name) (finRange secDirCount) ⟨dev, []⟩
  rw [readFileNoted, wp_bind, findEntryNoted, wp_bind, findEntryPosNoted]
  unfold wp at spec ⊢
  cases run : scanNoted (DirEntry.isNamed name) (finRange secDirCount) ⟨dev, []⟩ with
  | error e n₁ =>
    rwa [run] at spec
  | ok found n₁ =>
    rw [run] at spec erased
    obtain ⟨dirReads, noted, few, inDir, untouched⟩ := spec
    rw [nil_append] at noted
    cases found with
    | none =>
      exact ⟨dirReads, [], by rw [noted, append_nil], Nat.le_succ_of_le few, inDir, none, n₁.dev, erased, rfl, rfl⟩
    | some slot =>
      have bounds := slot.sector_bounds
      have inDir' : ∀ s ∈ dirReads ++ [slot.sector], secDirStart ≤ s ∧ s < secDataStart := by
        intro s member
        rcases mem_append.mp member with early | last
        · exact inDir s early
        · rw [mem_singleton.mp last]
          exact bounds
      have few' : (dirReads ++ [slot.sector]).length ≤ 64 + 1 := by
        rw [length_append]
        exact Nat.succ_le_succ few
      change wp _ _ _ _
      simp only [wp_bind]
      apply wp_imp (readNoted_spec _ n₁)
      rintro answer n₂ ⟨noted', untouched', contents⟩
      rw [noted] at noted'
      cases answer with
      | none =>
        exact ⟨dirReads ++ [slot.sector], [], by rw [noted', append_nil], few', inDir', some slot, n₁.dev, erased,
          Nat.zero_le _, fun _ same => by cases same⟩
      | some buf =>
        obtain rfl := contents buf rfl
        have entry : entryAt (n₁.dev.disk slot.sector) slot.index = entryOn dev.disk slot := by
          rw [untouched.disk]
          rfl
        simp only [entry]
        apply wp_imp (readChainNoted_spec _ _ [] (Nat.zero_le _) n₂)
        rintro result _ ⟨dataReads, noted'', enough, length⟩
        rw [untouched'.disk, untouched.disk] at length
        exact ⟨dirReads ++ [slot.sector],
          dataReads, by rw [noted'', noted'], few', inDir', some slot, n₁.dev, erased, enough, length⟩

/-- Whatever the device holds, `read_file` ends after at most 65 reads of the directory and as many
reads of data sectors as the recorded size needs. What it returns has the recorded size, or the
size of the chain if that is smaller and the chain ends. -/
theorem readFile_bounded (dev : BlockDev) (name : String) :
    ∃ result after dirReads dataReads,
      readFileNoted name ⟨dev, []⟩ = .ok result ⟨after, dirReads ++ dataReads⟩ ∧ readFile name dev = .ok result after ∧
      dirReads.length ≤ 64 + 1 ∧ (∀ s ∈ dirReads, secDirStart ≤ s ∧ s < secDataStart) ∧
      ∃ found searched, findEntryPos name dev = .ok found searched ∧
        match found with
        | none => dataReads = [] ∧ result = none
        | some slot => dataReads.length ≤ ((entryOn dev.disk slot).size.toNat + 507) / 508 ∧
          ∀ d, result = some d →
            (∀ blocks, Linked dev.disk (entryOn dev.disk slot).head blocks →
              d.length = min (entryOn dev.disk slot).size.toNat (508 * blocks.length)) ∧
            (Cyclic dev.disk (entryOn dev.disk slot).head → d.length = (entryOn dev.disk slot).size.toNat) := by
  have spec := readFileNoted_spec name dev
  have erased := readFileNoted_erases name ⟨dev, []⟩
  unfold wp at spec
  cases run : readFileNoted name ⟨dev, []⟩ with
  | error e n =>
    rw [run] at spec
    exact spec.elim
  | ok result n =>
    rw [run] at spec erased
    obtain ⟨after, _⟩ := n
    obtain ⟨dirReads, dataReads, rfl, few, inDir, found, searched, lookup, rest⟩ := spec
    refine ⟨result, after, dirReads, dataReads, rfl, erased, few, inDir, found, searched, lookup, ?_⟩
    cases found with
    | none => exact rest
    | some slot =>
      refine ⟨rest.1, fun d same => ?_⟩
      obtain ⟨ending, endless⟩ := rest.2 d same
      refine ⟨fun blocks linked => ?_, fun cyclic => endless fun linked => linked_iff_not_cyclic.mp linked cyclic⟩
      rw [ending blocks linked, Nat.zero_add]

end FileSystemState

end HavyOs.Fs
