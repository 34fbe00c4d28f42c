import HavyOs.Elf.Clean

/-!
# The loaded image

What `load_elf` returns against what the file says: every segment is in the file, its bytes are
at its place in the image and the last segment wins, the rest of the image is zero, and the
entry point is in the image. The second pass passes over a segment that is cut off, and no
pass looks at the entry point, so these two are conditions on the file.
-/

namespace HavyOs.Elf

open HavyOs.Lib

variable (file : ByteSlice)

def ByteSlice.byte (i : Nat) : UInt8 := file.memory (UInt64.ofNat i)

/-- The bytes of the segment take position `k` of an image that starts with address `low`. -/
def Elf64ProgramHeader.covers (ph : Elf64ProgramHeader) (low k : Nat) : Bool :=
  decide (ph.pVaddr.toNat - low ≤ k) && decide (k < ph.pVaddr.toNat - low + ph.pFilesz.toNat)

/-- Byte `k` of the image of `segments`: that of the last segment that takes the position, or zero. -/
def imageByte (segments : List Elf64ProgramHeader) (low k : Nat) : UInt8 :=
  match segments.reverse.find? fun ph => ph.covers low k with
  | some ph => file.byte (ph.pOffset.toNat + (k - (ph.pVaddr.toNat - low)))
  | none => 0

/-- The loaded image is what the file says. -/
structure Faithful (file : ByteSlice) (loaded : LoadedElf) : Prop where
  contained : ∀ ph ∈ file.segments, Contained file ph
  placed : ∀ low, IsLeast (starts file.segments) low → ∀ ph ∈ file.segments, ∀ k, k < ph.pFilesz.toNat →
    ph.pVaddr.toNat - low + k < loaded.size
  image : ∀ low, IsLeast (starts file.segments) low → ∀ k (hk : k < loaded.size),
    loaded.memory[k] = imageByte file file.segments low k
  entry : loaded.loadBase.toNat ≤ loaded.entry.toNat ∧ loaded.entry.toNat < loaded.loadBase.toNat + loaded.size

/-- The entry point lies as far behind the lowest start, on 64 bits, as the image reaches. -/
def EntryInside : Prop :=
  ∃ low high, IsLeast (starts file.segments) low ∧ IsGreatest (wrappedEnds file.segments) high ∧
    (2 ^ 64 - low + file.header.eEntry.toNat) % 2 ^ 64 < (2 ^ 64 - low + high) % 2 ^ 64

/-! ## The second pass -/

section Copies

variable {file : ByteSlice} {minVaddr : UInt64} {n : Nat}

theorem covers_iff {ph : Elf64ProgramHeader} {low k : Nat} :
    ph.covers low k = true ↔ ph.pVaddr.toNat - low ≤ k ∧ k < ph.pVaddr.toNat - low + ph.pFilesz.toNat := by
  rw [Elf64ProgramHeader.covers, Bool.and_eq_true, decide_eq_true_eq, decide_eq_true_eq]

/-- Segments copied one after the other: the last one that takes a position wins. -/
theorem copies_getElem : ∀ (segments : List Elf64ProgramHeader) {memory memory' : Vector UInt8 n},
    (∀ ph ∈ segments, minVaddr.toNat ≤ ph.pVaddr.toNat) → (∀ ph ∈ segments, Contained file ph) →
    segments.foldlM (fun memory ph => copySegment file minVaddr ph memory) memory = .ok memory' →
    ∀ {k : Nat} (hk : k < n),
    memory'[k] = match segments.reverse.find? fun ph => ph.covers minVaddr.toNat k with
      | some ph => file.byte (ph.pOffset.toNat + (k - (ph.pVaddr.toNat - minVaddr.toNat)))
      | none => memory[k] := by
  intro segments
  induction segments with
  | nil =>
    intro memory memory' _ _ copied k hk
    cases copied
    rfl
  | cons ph rest ih =>
    intro memory memory' low inside copied k hk
    obtain ⟨_, first, copied⟩ := ok_of_bind copied
    rw [List.forall_mem_cons] at low inside
    have here := copySegment_getElem low.1 inside.1 first hk
    have later := ih low.2 inside.2 copied hk
    rw [later, List.reverse_cons, List.find?_append]
    cases rest.reverse.find? fun ph => ph.covers minVaddr.toNat k with
    | some last => rfl
    | none =>
      -- no later segment takes the position, so it is as the first one leaves it
      rw [Option.none_or, here]
      by_cases covered : ph.covers minVaddr.toNat k = true
      · have address : ph.pOffset + UInt64.ofNat (k - (ph.pVaddr.toNat - minVaddr.toNat)) =
            UInt64.ofNat (ph.pOffset.toNat + (k - (ph.pVaddr.toNat - minVaddr.toNat))) := by
          rw [UInt64.ofNat_add, UInt64.ofNat_toNat]
        rw [if_pos (covers_iff.mp covered), address, List.find?_singleton, if_pos covered]
        rfl
      · rw [if_neg (fun inside => covered (covers_iff.mpr inside)), List.find?_singleton, if_neg covered]

theorem copies_placed : ∀ (segments : List Elf64ProgramHeader) {memory memory' : Vector UInt8 n},
    (∀ ph ∈ segments, minVaddr.toNat ≤ ph.pVaddr.toNat) → (∀ ph ∈ segments, Contained file ph) →
    segments.foldlM (fun memory ph => copySegment file minVaddr ph memory) memory = .ok memory' →
    ∀ ph ∈ segments, ∀ k, k < ph.pFilesz.toNat → ph.pVaddr.toNat - minVaddr.toNat + k < n := by
  intro segments
  induction segments with
  | nil => exact nofun
  | cons ph rest ih =>
    intro memory memory' low inside copied
    obtain ⟨_, first, copied⟩ := ok_of_bind copied
    rw [List.forall_mem_cons] at low inside ⊢
    refine ⟨fun k small => ?_, ih low.2 inside.2 copied⟩
    have dest := dest_toNat low.1
    have size := ph.pFilesz.toNat_lt
    have stop := toNat_add_mod ph.pOffset ph.pFilesz
    have destStop := toNat_add_mod (ph.pVaddr - minVaddr) ph.pFilesz
    have contained := contained_iff.mp inside.1
    obtain ⟨_, _, -⟩ | ⟨_, -⟩ := copySegment_cases first <;> omega

end Copies

/-! ## What was loaded -/

variable {heap : Heap} {file : ByteSlice}

theorem Heap.allocate_fits {size : Nat} {base : UInt64} (given : heap.allocate size = .ok base) :
    base.toNat + size ≤ 2 ^ 64 := by
  unfold Heap.allocate at given
  split at given
  · rename_i empty
    cases given
    rw [empty]
    decide
  · split_ifs at given
    cases answer : heap.alloc size with
    | none =>
      rw [answer] at given
      cases given
    | some block =>
      rw [answer] at given
      cases given
      exact heap.fits answer

/-- A file that was loaded: its extent, its block, and the second pass. -/
structure Loads (heap : Heap) (file : ByteSlice) (loaded : LoadedElf) (e : Extent) : Prop where
  extent : findExtent file = .ok e
  size : loaded.size = (e.maxVaddr - e.minVaddr).toNat
  block : heap.allocate loaded.size = .ok loaded.loadBase
  copies : file.segments.foldlM (fun memory ph => copySegment file e.minVaddr ph memory)
    (Vector.replicate loaded.size 0) =
    .ok loaded.memory
  entry : loaded.entry = loaded.loadBase + (file.header.eEntry - e.minVaddr)

theorem loads_of_returned {loaded : LoadedElf}
    (returned : loadElf heap file = .ok (.ok loaded)) : ∃ e, Loads heap file loaded e := by
  unfold loadElf at returned
  cases found : findExtent file with
  | error failure =>
    rw [found] at returned
    exact nomatch Except.ok.inj returned
  | ok e =>
    rw [found] at returned
    dsimp only at returned
    cases built : build heap file e with
    | error panic =>
      rw [built] at returned
      cases returned
    | ok image =>
      rw [built] at returned
      cases returned
      rw [build_eq] at built
      obtain ⟨_, given, built⟩ := ok_of_bind built
      obtain ⟨_, copied, built⟩ := ok_of_bind built
      obtain rfl := Except.ok.inj built
      exact ⟨e, found, rfl, given, copied, rfl⟩

/-- The entry point is in the image when its distance from the lowest start is below the size. -/
theorem Loads.entry_iff {loaded : LoadedElf} {e : Extent} (loads : Loads heap file loaded e) :
    (loaded.loadBase.toNat ≤ loaded.entry.toNat ∧ loaded.entry.toNat < loaded.loadBase.toNat + loaded.size) ↔
    EntryInside file := by
  have bounds := findExtent_bounds loads.extent
  have fits := Heap.allocate_fits loads.block
  have distance := toNat_sub_mod file.header.eEntry e.minVaddr
  have total := toNat_sub_mod e.maxVaddr e.minVaddr
  rw [loads.entry, toNat_add_mod]
  rw [loads.size] at fits ⊢
  constructor
  · intro inside
    exact ⟨_, _, bounds.low, bounds.high, by omega⟩
  · rintro ⟨low, high, least, greatest, _⟩
    obtain rfl := bounds.low.unique least
    obtain rfl := bounds.high.unique greatest
    omega

/-- **The image is what the file says** exactly when no segment is cut off and the entry point
is in the image. -/
theorem load_elf_faithful_iff {heap : Heap} {file : ByteSlice} {loaded : LoadedElf}
    (returned : loadElf heap file = .ok (.ok loaded)) :
    Faithful file loaded ↔ (∀ ph ∈ file.segments, Contained file ph) ∧ EntryInside file := by
  obtain ⟨e, loads⟩ := loads_of_returned returned
  have bounds := findExtent_bounds loads.extent
  have lowest : ∀ ph ∈ file.segments, e.minVaddr.toNat ≤ ph.pVaddr.toNat :=
    fun ph member => bounds.low.2 ⟨ph, member, rfl⟩
  constructor
  · exact fun faithful => ⟨faithful.contained, loads.entry_iff.mp faithful.entry⟩
  · rintro ⟨contained, inside⟩
    refine ⟨contained, fun low least => ?_, fun low least k hk => ?_, loads.entry_iff.mpr inside⟩
    · obtain rfl := bounds.low.unique least
      exact copies_placed file.segments lowest contained loads.copies
    · obtain rfl := bounds.low.unique least
      rw [copies_getElem file.segments lowest contained loads.copies hk, imageByte, Vector.getElem_replicate]

/-! ## Two files -/

/-- A program header: the fields of `Elf64ProgramHeader` in order. -/
def programHeaderBytes (offset vaddr filesz memsz : Nat) : List UInt8 :=
  toLe 4 ptLoad.toNat ++ toLe 4 5 ++ toLe 8 offset ++ toLe 8 vaddr ++ toLe 8 vaddr ++ toLe 8 filesz ++ toLe 8 memsz ++
  toLe 8 4096

/-- A file with one segment of four bytes, of which it holds `data`. -/
def oneSegment (data : List UInt8) (short : data.length < 1000) : ByteSlice :=
  ofBytes (headerBytes 4096 64 56 1 ++ programHeaderBytes 120 4096 4 8 ++ data) (by
    rw [List.length_append]
    have front : (headerBytes 4096 64 56 1 ++ programHeaderBytes 120 4096 4 8).length = 120 := by decide +kernel
    omega)

def loadsImage (heap : Heap) (file : ByteSlice) : Bool :=
  match loadElf heap file with
  | .ok (.ok _) => true
  | _ => false

theorem exists_loaded (returns : loadsImage heap file = true) : ∃ loaded, loadElf heap file = .ok (.ok loaded) := by
  unfold loadsImage at returns
  split at returns
  · rename_i loaded returned
    exact ⟨loaded, returned⟩
  · cases returns

def codeSegment : Elf64ProgramHeader := ⟨ptLoad, 120, 4096, 4, 8⟩

theorem load_elf_faithful_iff_whole :
    ∃ loaded, loadElf oneBlock (oneSegment [1, 2, 3, 4] (by decide)) = .ok (.ok loaded) ∧
    Faithful (oneSegment [1, 2, 3, 4] (by decide)) loaded := by
  obtain ⟨loaded, returned⟩ :=
    exists_loaded (show loadsImage oneBlock (oneSegment [1, 2, 3, 4] (by decide)) = true by decide +kernel)
  have segments : (oneSegment [1, 2, 3, 4] (by decide)).segments = [codeSegment] := by decide +kernel
  refine ⟨loaded, returned, (load_elf_faithful_iff returned).mpr ⟨?_, 4096, 4104, ?_, ?_, by decide +kernel⟩⟩
  · decide +kernel
  · rw [segments]
    exact ⟨⟨_, List.mem_singleton_self _, rfl⟩,
      by rintro _ ⟨ph, member, rfl⟩; rw [List.mem_singleton.mp member]; decide⟩
  · rw [segments]
    exact ⟨⟨_, List.mem_singleton_self _, rfl⟩,
      by rintro _ ⟨ph, member, rfl⟩; rw [List.mem_singleton.mp member]; decide⟩

/-- With two bytes of the segment missing the file is loaded all the same. -/
theorem truncated_segment_loaded : ∃ loaded, loadElf oneBlock (oneSegment [1, 2] (by decide)) = .ok (.ok loaded) ∧
    ¬ Faithful (oneSegment [1, 2] (by decide)) loaded := by
  obtain ⟨loaded, returned⟩ :=
    exists_loaded (show loadsImage oneBlock (oneSegment [1, 2] (by decide)) = true by decide +kernel)
  refine ⟨loaded, returned, fun faithful => absurd faithful.contained ?_⟩
  decide +kernel

end HavyOs.Elf
