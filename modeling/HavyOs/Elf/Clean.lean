import HavyOs.Elf.Loader
import HavyOs.Lib.Lists

/-!
# Malformed files

Which files `load_elf` handles cleanly: it returns, it reads program headers only inside the file,
and the image has room for every segment. The bounds checks compare sums that have wrapped, and the
check of a header uses `e_phentsize`, which need not be the size of a header, so a malformed file
can pass them.
-/

namespace HavyOs.Elf

open HavyOs.Lib
open UInt64 (lt_iff_toNat_lt)
open Extent (widen minVaddr maxVaddr)

/-- The headers the first pass reads: it stops in front of the first that is not in reach. The
second pass reads the same ones. -/
def ByteSlice.headersRead (file : ByteSlice) : List Nat :=
  (List.range file.header.ePhnum.toNat).takeWhile fun i => decide (file.reaches i)

/-- `load_elf` handles the file cleanly. -/
structure Clean (heap : Heap) (file : ByteSlice) : Prop where
  returns : ∃ result, loadElf heap file = .ok result
  inside : file.Accepted → ∀ i ∈ file.headersRead, (file.header.phOffset i).toNat + programHeaderSize ≤ file.length
  covers : ∀ e, findExtent file = .ok e → ∀ ph ∈ file.segments,
    ph.pVaddr.toNat - e.minVaddr.toNat + max ph.pFilesz.toNat ph.pMemsz.toNat ≤ (e.maxVaddr - e.minVaddr).toNat

/-! ## The condition -/

variable (segments : List Elf64ProgramHeader)

def starts : Set Nat := {x | ∃ ph ∈ segments, ph.pVaddr.toNat = x}

def ends : Set Nat := {x | ∃ ph ∈ segments, ph.pVaddr.toNat + ph.pMemsz.toNat = x}

/-- The addresses at which segments end in memory, on 64 bits. -/
def wrappedEnds : Set Nat := {x | ∃ ph ∈ segments, (ph.pVaddr + ph.pMemsz).toNat = x}

/-- The segments span the addresses from `low` to `top`: no segment has more bytes in the file
than reach to `top`, and the ends stay below `2^64`, or all of them are behind it and still
less than `2^64` from `low`. -/
structure Spans (segments : List Elf64ProgramHeader) (low top : Nat) : Prop where
  least : IsLeast (starts segments) low
  greatest : IsGreatest (ends segments) top
  files : ∀ ph ∈ segments, ph.pVaddr.toNat + ph.pFilesz.toNat ≤ top
  wraps : (∀ ph ∈ segments, ph.pVaddr.toNat + ph.pMemsz.toNat < 2 ^ 64) ∨
    ((∀ ph ∈ segments, 2 ^ 64 ≤ ph.pVaddr.toNat + ph.pMemsz.toNat) ∧ top < low + 2 ^ 64)

/-- The bytes of a segment do not end behind `2^64` in the file, unless so far that the
wrapped end is behind the end of the file as well. -/
def Unfolded (file : ByteSlice) (ph : Elf64ProgramHeader) : Prop :=
  ph.pFilesz.toNat = 0 ∨ ph.pOffset.toNat + ph.pFilesz.toNat < 2 ^ 64 ∨
    file.length + 2 ^ 64 < ph.pOffset.toNat + ph.pFilesz.toNat

/-- A file whose numbers the loader can cope with. -/
structure Regular (heap : Heap) (file : ByteSlice) : Prop where
  headers : file.Accepted → ∀ i, i < file.header.ePhnum.toNat → (∀ j, j ≤ i → file.reaches j) →
    (file.header.phOffset i).toNat + programHeaderSize ≤ file.length
  segments : file.Accepted → (∀ i, i < file.header.ePhnum.toNat → file.reaches i) →
    (∃ ph ∈ file.segments, ph.pVaddr ≠ u64Max) →
    (∃ low top, Spans file.segments low top ∧ ∃ base, heap.allocate (top - low) = .ok base) ∧
      ∀ ph ∈ file.segments, Unfolded file ph

/-! ## The extent -/

theorem widen_min (e : Extent) (ph : Elf64ProgramHeader) :
    (e.widen ph).minVaddr.toNat = min e.minVaddr.toNat ph.pVaddr.toNat := by
  unfold widen
  dsimp only
  split_ifs with lower
  · rw [lt_iff_toNat_lt] at lower
    omega
  · rw [lt_iff_toNat_lt] at lower
    omega

theorem widen_max (e : Extent) (ph : Elf64ProgramHeader) :
    (e.widen ph).maxVaddr.toNat = max e.maxVaddr.toNat (ph.pVaddr + ph.pMemsz).toNat := by
  unfold widen
  dsimp only
  split_ifs with higher
  · rw [lt_iff_toNat_lt] at higher
    omega
  · rw [lt_iff_toNat_lt] at higher
    omega

theorem u64Max_toNat : u64Max.toNat = 2 ^ 64 - 1 := rfl

/-- The first pass finds the lowest start and the highest wrapped end. -/
structure Extent.Bounds (e : Extent) (segments : List Elf64ProgramHeader) : Prop where
  low : IsLeast (starts segments) e.minVaddr.toNat
  high : IsGreatest (wrappedEnds segments) e.maxVaddr.toNat

variable {file : ByteSlice}

theorem findExtent_bounds {e : Extent} (found : findExtent file = .ok e) : e.Bounds file.segments := by
  obtain ⟨-, -, rfl, proper⟩ := findExtent_eq_ok.mp found
  obtain ⟨-, below, least⟩ :=
    foldl_least (fun e => (minVaddr e).toNat) (·.pVaddr.toNat) widen_min file.segments ⟨u64Max, 0⟩
  -- the greatest end is the least one in the dual order
  obtain ⟨-, above, greatest⟩ := foldl_least (β := Natᵒᵈ) (fun e => (maxVaddr e).toNat)
    (fun ph => (ph.pVaddr + ph.pMemsz).toNat) widen_max file.segments ⟨u64Max, 0⟩
  have attained : (file.segments.foldl widen ⟨u64Max, 0⟩).minVaddr.toNat ∈ starts file.segments := by
    rcases least with none | some
    · exact absurd (UInt64.toNat_inj.mp none) proper
    · exact some
  constructor
  · refine ⟨attained, ?_⟩
    rintro _ ⟨ph, member, rfl⟩
    exact below ph member
  · refine ⟨?_, ?_⟩
    · rcases greatest with zero | some
      · -- no end is above the initial zero, so the end of any segment is zero
        obtain ⟨ph, member, -⟩ := attained
        have end_ := above ph member
        rw [zero] at end_ ⊢
        exact ⟨ph, member, Nat.le_zero.mp end_⟩
      · exact some
    · rintro _ ⟨ph, member, rfl⟩
      exact above ph member

theorem exists_extent_iff : (∃ e, findExtent file = .ok e) ↔
    file.Accepted ∧ (∀ i, i < file.header.ePhnum.toNat → file.reaches i) ∧
    ∃ ph ∈ file.segments, ph.pVaddr ≠ u64Max := by
  obtain ⟨-, below, _⟩ := foldl_least (fun e => (minVaddr e).toNat) (·.pVaddr.toNat) widen_min file.segments ⟨u64Max, 0⟩
  constructor
  · rintro ⟨e, found⟩
    obtain ⟨accepted, reach, rfl, proper⟩ := findExtent_eq_ok.mp found
    refine ⟨accepted, reach, ?_⟩
    obtain ⟨ph, member, start⟩ := (findExtent_bounds found).low.1
    exact ⟨ph, member, fun highest => proper (UInt64.toNat_inj.mp (start.symm.trans (congrArg UInt64.toNat highest)))⟩
  · rintro ⟨accepted, reach, ph, member, lower⟩
    refine ⟨_, findExtent_eq_ok.mpr ⟨accepted, reach, rfl, fun highest => lower ?_⟩⟩
    have bound := below ph member
    rw [highest, u64Max_toNat] at bound
    have limit := ph.pVaddr.toNat_lt
    apply UInt64.toNat_inj.mp
    rw [u64Max_toNat]
    omega

/-! ## Room for the segments -/

theorem toNat_add_mod (a b : UInt64) : (a + b).toNat = (a.toNat + b.toNat) % 2 ^ 64 := UInt64.toNat_add a b

theorem toNat_sub_mod (a b : UInt64) : (a - b).toNat = (2 ^ 64 - b.toNat + a.toNat) % 2 ^ 64 := UInt64.toNat_sub a b

section Room

variable {segments : List Elf64ProgramHeader} {e : Extent}

theorem Spans.size (bounds : e.Bounds segments) {low top : Nat} (spans : Spans segments low top) :
    e.minVaddr.toNat = low ∧ (e.maxVaddr - e.minVaddr).toNat = top - low := by
  obtain rfl := bounds.low.unique spans.least
  obtain ⟨last, inLast, highest⟩ := bounds.high.1
  obtain ⟨far, inFar, _⟩ := spans.greatest.1
  have topLast := spans.greatest.2 ⟨last, inLast, rfl⟩
  have highFar := bounds.high.2 ⟨far, inFar, rfl⟩
  have lowFar := bounds.low.2 ⟨far, inFar, rfl⟩
  rw [toNat_add_mod] at highest highFar
  rw [toNat_sub_mod]
  rcases spans.wraps with none | ⟨all, _⟩
  · have := none far inFar
    omega
  · have := all last inLast
    have := far.pVaddr.toNat_lt
    omega

/-- The image has room for every segment exactly when the segments span some addresses. -/
theorem room_iff (bounds : e.Bounds segments) :
    (∀ ph ∈ segments, ph.pVaddr.toNat - e.minVaddr.toNat + max ph.pFilesz.toNat ph.pMemsz.toNat ≤
      (e.maxVaddr - e.minVaddr).toNat) ↔ ∃ low top, Spans segments low top := by
  constructor
  · intro room
    obtain ⟨last, inLast, highest⟩ := bounds.high.1
    have limits : ∀ ph ∈ segments, e.minVaddr.toNat ≤ ph.pVaddr.toNat ∧
        (ph.pVaddr.toNat + ph.pMemsz.toNat) % 2 ^ 64 ≤ e.maxVaddr.toNat ∧
        ph.pVaddr.toNat < 2 ^ 64 ∧ ph.pMemsz.toNat < 2 ^ 64 ∧
        ph.pVaddr.toNat - e.minVaddr.toNat + max ph.pFilesz.toNat ph.pMemsz.toNat ≤
          (2 ^ 64 - e.minVaddr.toNat + e.maxVaddr.toNat) % 2 ^ 64 := by
      intro ph member
      have high := bounds.high.2 ⟨ph, member, rfl⟩
      have own := room ph member
      exact ⟨bounds.low.2 ⟨ph, member, rfl⟩, high, ph.pVaddr.toNat_lt, ph.pMemsz.toNat_lt, own⟩
    rw [toNat_add_mod] at highest
    obtain ⟨_, _, _, _, _⟩ := limits last inLast
    refine ⟨e.minVaddr.toNat, last.pVaddr.toNat + last.pMemsz.toNat, bounds.low, ⟨⟨last, inLast, rfl⟩, ?_⟩, ?_, ?_⟩
    · rintro _ ⟨ph, member, rfl⟩
      have := limits ph member
      omega
    · intro ph member
      have := limits ph member
      omega
    · -- the highest wrapped end is below the lowest start when every end wraps
      by_cases above : e.minVaddr.toNat ≤ e.maxVaddr.toNat
      · left
        intro ph member
        have := limits ph member
        omega
      · right
        refine ⟨fun ph member => ?_, by omega⟩
        have := limits ph member
        omega
  · rintro ⟨low, top, spans⟩ ph member
    obtain ⟨_, size⟩ := Spans.size bounds spans
    have inFile := spans.files ph member
    have inMemory := spans.greatest.2 ⟨ph, member, rfl⟩
    have start := spans.least.2 ⟨ph, member, rfl⟩
    omega

end Room

/-! ## The second pass -/

theorem checkRange_ok_iff {start stop : UInt64} {length : Nat} :
    checkRange start stop length = .ok () ↔ start.toNat ≤ stop.toNat ∧ stop.toNat ≤ length := by
  unfold checkRange
  split
  · rename_i order
    rw [lt_iff_toNat_lt] at order
    constructor
    · exact nofun
    · omega
  · rename_i order
    rw [lt_iff_toNat_lt] at order
    split
    · constructor
      · exact nofun
      · omega
    · exact ⟨fun _ => by omega, fun _ => rfl⟩

def Contained (file : ByteSlice) (ph : Elf64ProgramHeader) : Prop :=
  ∀ k, k < ph.pFilesz.toNat → ph.pOffset.toNat + k < file.length

theorem contained_iff {ph : Elf64ProgramHeader} :
    Contained file ph ↔ ph.pFilesz.toNat = 0 ∨ ph.pOffset.toNat + ph.pFilesz.toNat ≤ file.length := by
  constructor
  · intro inside
    by_cases empty : ph.pFilesz.toNat = 0
    · exact Or.inl empty
    · have := inside (ph.pFilesz.toNat - 1) (by omega)
      omega
  · intro inside k small
    omega

instance (file : ByteSlice) (ph : Elf64ProgramHeader) : Decidable (Contained file ph) :=
    decidable_of_iff _ contained_iff.symm

section Copy

variable {file : ByteSlice} {minVaddr : UInt64} {ph : Elf64ProgramHeader} {n : Nat}

variable (low : minVaddr.toNat ≤ ph.pVaddr.toNat)

include low

theorem dest_toNat :
    (ph.pVaddr - minVaddr).toNat = ph.pVaddr.toNat - minVaddr.toNat := by
  have limit := ph.pVaddr.toNat_lt
  rw [toNat_sub_mod]
  omega

/-- A segment that has room in the image is copied or passed over, unless its end wraps into the file. -/
theorem copySegment_returns_iff
    (room : ph.pVaddr.toNat - minVaddr.toNat + ph.pFilesz.toNat ≤ n) (small : n < 2 ^ 64) (memory : Vector UInt8 n) :
    (∃ memory', copySegment file minVaddr ph memory = .ok memory') ↔ Unfolded file ph := by
  have dest := dest_toNat low
  have offset := ph.pOffset.toNat_lt
  have stop := toNat_add_mod ph.pOffset ph.pFilesz
  have destStop := toNat_add_mod (ph.pVaddr - minVaddr) ph.pFilesz
  unfold copySegment Unfolded
  dsimp only
  split_ifs with copied
  · have inImage : checkRange (ph.pVaddr - minVaddr) (ph.pVaddr - minVaddr + ph.pFilesz) n = .ok () :=
      checkRange_ok_iff.mpr (by omega)
    rw [inImage]
    by_cases inFile : ph.pOffset.toNat + ph.pFilesz.toNat < 2 ^ 64
    · have passes : checkRange ph.pOffset (ph.pOffset + ph.pFilesz) file.length = .ok () :=
        checkRange_ok_iff.mpr (by omega)
      rw [passes]
      exact ⟨fun _ => Or.inr (Or.inl inFile), fun _ => ⟨_, rfl⟩⟩
    · constructor
      · rintro ⟨memory', returned⟩
        obtain ⟨-, -, returned⟩ := ok_of_bind returned
        obtain ⟨_, check, -⟩ := ok_of_bind returned
        have order := checkRange_ok_iff.mp check
        omega
      · omega
  · refine ⟨fun _ => ?_, fun _ => ⟨memory, rfl⟩⟩
    rw [lt_iff_toNat_lt] at copied
    have zero : (0 : UInt64).toNat = 0 := rfl
    omega

omit low in
/-- What a segment that is handled leaves: its bytes at its place, or nothing new. -/
theorem copySegment_cases {memory memory' : Vector UInt8 n}
    (copied : copySegment file minVaddr ph memory = .ok memory') :
    ((ph.pVaddr - minVaddr).toNat ≤ (ph.pVaddr - minVaddr + ph.pFilesz).toNat ∧
        (ph.pVaddr - minVaddr + ph.pFilesz).toNat ≤ n ∧
        memory' = patch memory (ph.pVaddr - minVaddr).toNat (file.bytesAt ph.pOffset ph.pFilesz.toNat)) ∨
      ¬(0 < ph.pFilesz.toNat ∧ (ph.pOffset + ph.pFilesz).toNat ≤ file.length) ∧ memory' = memory := by
  unfold copySegment at copied
  split at copied
  · obtain ⟨_, place, copied⟩ := ok_of_bind copied
    obtain ⟨-, -, copied⟩ := ok_of_bind copied
    cases copied
    obtain ⟨start, stop⟩ := checkRange_ok_iff.mp place
    exact .inl ⟨start, stop, rfl⟩
  · rename_i passed
    cases copied
    rw [lt_iff_toNat_lt] at passed
    exact .inr ⟨passed, rfl⟩

theorem copySegment_getElem (inside : Contained file ph) {memory memory' : Vector UInt8 n}
    (copied : copySegment file minVaddr ph memory = .ok memory') {k : Nat} (hk : k < n) :
    memory'[k] = if ph.pVaddr.toNat - minVaddr.toNat ≤ k ∧ k < ph.pVaddr.toNat - minVaddr.toNat + ph.pFilesz.toNat
      then file.memory (ph.pOffset + UInt64.ofNat (k - (ph.pVaddr.toNat - minVaddr.toNat))) else memory[k] := by
  have dest := dest_toNat low
  have stop := toNat_add_mod ph.pOffset ph.pFilesz
  have contained := contained_iff.mp inside
  obtain ⟨-, -, rfl⟩ | ⟨_, rfl⟩ := copySegment_cases copied
  · rw [getElem_patch, dest]
    split
    · rename_i start
      by_cases before : k < ph.pVaddr.toNat - minVaddr.toNat + ph.pFilesz.toNat
      · rw [if_pos ⟨start, before⟩, ByteSlice.bytesAt, List.getElem?_map, List.getElem?_range (by omega)]
        rfl
      · rw [if_neg (fun covered => before covered.2), ByteSlice.bytesAt, List.getElem?_map,
          List.getElem?_eq_none (by rw [List.length_range]; omega)]
        rfl
    · rename_i front
      rw [if_neg (fun covered => front covered.1)]
  · rw [if_neg (by omega)]

end Copy

/-- With room for the segments the loader returns when it gets its memory and no segment folds. -/
theorem build_returns_iff {heap : Heap} {e : Extent} (found : findExtent file = .ok e)
    (room : ∀ ph ∈ file.segments, ph.pVaddr.toNat - e.minVaddr.toNat + max ph.pFilesz.toNat ph.pMemsz.toNat ≤
      (e.maxVaddr - e.minVaddr).toNat) :
    (∃ loaded, build heap file e = .ok loaded) ↔
      (∃ base, heap.allocate (e.maxVaddr - e.minVaddr).toNat = .ok base) ∧ ∀ ph ∈ file.segments, Unfolded file ph := by
  have bounds := findExtent_bounds found
  have pass := foldlM_returns_iff (f := fun memory ph => copySegment file e.minVaddr ph memory)
    file.segments (fun ph member memory => copySegment_returns_iff (bounds.low.2 ⟨ph, member, rfl⟩)
      (by have := room ph member; omega) (UInt64.toNat_lt _) memory)
    (Vector.replicate (e.maxVaddr - e.minVaddr).toNat 0)
  rw [build_eq, ← pass]
  constructor
  · rintro ⟨loaded, returned⟩
    obtain ⟨base, given, returned⟩ := ok_of_bind returned
    obtain ⟨memory, copied, -⟩ := ok_of_bind returned
    exact ⟨⟨base, given⟩, memory, copied⟩
  · rintro ⟨⟨base, given⟩, memory, copied⟩
    rw [given, copied]
    exact ⟨_, rfl⟩

/-! ## The headers that are read -/

theorem mem_headersRead {i : Nat} :
    i ∈ file.headersRead ↔ i < file.header.ePhnum.toNat ∧ ∀ j, j ≤ i → file.reaches j := by
  rw [ByteSlice.headersRead, mem_takeWhile_range]
  simp

/-- **`load_elf` handles exactly the regular files cleanly.** -/
theorem load_elf_clean_iff (heap : Heap) (file : ByteSlice) : Clean heap file ↔ Regular heap file := by
  constructor
  · intro clean
    constructor
    · exact fun accepted i small reach => clean.inside accepted i (mem_headersRead.mpr ⟨small, reach⟩)
    · intro accepted reach proper
      obtain ⟨e, found⟩ := exists_extent_iff.mpr ⟨accepted, reach, proper⟩
      have room := clean.covers e found
      obtain ⟨low, top, spans⟩ := (room_iff (findExtent_bounds found)).mp room
      have returns : ∃ loaded, build heap file e = .ok loaded := by
        obtain ⟨_, returned⟩ := clean.returns
        unfold loadElf at returned
        rw [found] at returned
        dsimp only at returned
        cases built : build heap file e with
        | error panic =>
          rw [built] at returned
          cases returned
        | ok loaded => exact ⟨loaded, rfl⟩
      obtain ⟨base, unfolded⟩ := (build_returns_iff found room).mp returns
      rw [(Spans.size (findExtent_bounds found) spans).2] at base
      exact ⟨⟨low, top, spans, base⟩, unfolded⟩
  · intro regular
    have covered : ∀ e, findExtent file = .ok e → ∀ ph ∈ file.segments,
        ph.pVaddr.toNat - e.minVaddr.toNat + max ph.pFilesz.toNat ph.pMemsz.toNat ≤
          (e.maxVaddr - e.minVaddr).toNat := by
      intro e found
      obtain ⟨accepted, reach, proper⟩ := exists_extent_iff.mp ⟨e, found⟩
      obtain ⟨⟨low, top, spans, -⟩, -⟩ := regular.segments accepted reach proper
      exact (room_iff (findExtent_bounds found)).mpr ⟨low, top, spans⟩
    constructor
    · unfold loadElf
      cases found : findExtent file with
      | error e => exact ⟨_, rfl⟩
      | ok e =>
        obtain ⟨accepted, reach, proper⟩ := exists_extent_iff.mp ⟨e, found⟩
        obtain ⟨⟨low, top, spans, base⟩, unfolded⟩ := regular.segments accepted reach proper
        rw [← (Spans.size (findExtent_bounds found) spans).2] at base
        obtain ⟨loaded, built⟩ := (build_returns_iff found (covered e found)).mpr ⟨base, unfolded⟩
        dsimp only
        rw [built]
        exact ⟨_, rfl⟩
    · intro accepted i member
      obtain ⟨small, reach⟩ := mem_headersRead.mp member
      exact regular.headers accepted i small reach
    · exact covered

/-! ## A header behind the file -/

/-- A file of the given bytes with zeros in memory behind it. -/
def ofBytes (bytes : List UInt8) (bound : bytes.length < 2 ^ 63) : ByteSlice :=
  ⟨fun offset => (bytes[offset.toNat]?).getD 0, bytes.length, bound⟩

/-- An ELF header: the fields of `Elf64Header` in order. -/
def headerBytes (entry phoff phentsize phnum : Nat) : List UInt8 :=
  elfMagic ++ [elfClass64, elfData2Lsb] ++ List.replicate 10 0 ++ toLe 2 2 ++ toLe 2 emRiscv.toNat ++ toLe 4 1 ++
    toLe 8 entry ++ toLe 8 phoff ++ toLe 8 0 ++ toLe 4 0 ++ toLe 2 64 ++ toLe 2 phentsize ++ toLe 2 phnum ++
    toLe 2 0 ++ toLe 2 0 ++ toLe 2 0

/-- A file that is a header and nothing else, with one program header of size zero at its end. -/
def bareHeader : ByteSlice := ofBytes (headerBytes 0 64 0 1) (by decide)

def oneBlock : Heap where
  alloc size := if size < 4096 then some 0x80000000 else none
  fits := by
    intro size base given
    split_ifs at given
    cases given
    have : (0x80000000 : UInt64).toNat = 0x80000000 := rfl
    omega

/-- The program header is read from the memory behind the file. -/
theorem header_read_outside : ¬ Clean oneBlock bareHeader := by
  intro clean
  have outside := clean.inside (by unfold ByteSlice.Accepted; decide +kernel) 0 (by decide +kernel)
  exact absurd outside (by decide +kernel)

end HavyOs.Elf
