import HavyOs.Mkfs.Image
import HavyOs.Fs.Image

/-!
# What `mkfs` writes

The bitmap is filled from below and nothing is ever freed, so the sectors of a file are
consecutive and start where the file before ended. `Put` says what a sequence of writes
leaves in the image and in the log, `Stored` what `write_data` does; both hold whether or
not the stretch lies where it should.
-/

namespace HavyOs.Mkfs

open HavyOs.Lib HavyOs.Fs

/-- The bitmap marks the sectors below `n` and no others. -/
structure Filled (s : Builder) (n : Nat) : Prop where
  bitmap : s.bitmap = markBelow (Vector.replicate _ 0) n
  low : secDataStart ≤ n
  high : n ≤ mapBits

/-- The log has grown by stretches written for `owner` inside `off..stop`, one of them at each end. -/
structure Logged (owner : Owner) (off stop : Nat) (s s' : Builder) (stretches : List Stretch) : Prop where
  log : s'.file.log = stretches ++ s.file.log
  inside : ∀ w ∈ stretches, w.owner = owner ∧ off ≤ w.start ∧ w.start + w.length ≤ stop
  first : ∃ w ∈ stretches, w.start = off ∧ 0 < w.length
  last : ∃ w ∈ stretches, w.start + w.length = stop

/-- `data` was written at `off` for `owner`. -/
structure Put (owner : Owner) (off : Nat) (data : List UInt8) (s s' : Builder) : Prop where
  bytes : s'.file.bytes = overwrite s.file.bytes off data
  position : s'.file.position = off + data.length
  bitmap : s'.bitmap = s.bitmap
  refuses : s'.file.refuses = s.file.refuses
  logged : ∃ stretches, Logged owner off (off + data.length) s s' stretches

variable {owner : Owner} {data : List UInt8} {s s₁ s₂ : Builder} {chunk : List UInt8} {off : Nat}

theorem Logged.append {mid stop : Nat} {early late : List Stretch} (le : Logged owner off mid s s₁ early)
    (ll : Logged owner mid stop s₁ s₂ late) : Logged owner off stop s s₂ (late ++ early) := by
  obtain ⟨first, begins, start⟩ := le.first
  obtain ⟨last, ends, fin⟩ := ll.last
  have low := le.inside first begins
  have high := ll.inside last ends
  refine ⟨by rw [ll.log, le.log, List.append_assoc], fun w member => ?_, ⟨first, by simp [begins], start⟩,
    ⟨last, by simp [ends], fin⟩⟩
  rcases List.mem_append.mp member with inLate | inEarly
  · have bounds := ll.inside w inLate
    exact ⟨bounds.1, by omega, bounds.2.2⟩
  · have bounds := le.inside w inEarly
    exact ⟨bounds.1, bounds.2.1, by omega⟩

theorem Put.append {more : List UInt8} (h : Put owner off data s s₁)
    (k : Put owner (off + data.length) more s₁ s₂) : Put owner off (data ++ more) s s₂ := by
  obtain ⟨early, le⟩ := h.logged
  obtain ⟨late, ll⟩ := k.logged
  refine ⟨?_, ?_, k.bitmap.trans h.bitmap, k.refuses.trans h.refuses, late ++ early, ?_⟩
  · rw [k.bytes, h.bytes, overwrite_append]
  · rw [k.position, List.length_append, Nat.add_assoc]
  · rw [List.length_append, ← Nat.add_assoc]
    exact le.append ll

/-! ## Single calls -/

theorem onFile_spec (f : ImageFile → ImageFile) (s : Builder) :
    wp (onFile f) (fun _ s' => s' = { s with file := f { s.file with calls := s.file.calls + 1 } })
      (fun _ _ => ∃ k, s.file.refuses k = true) s := by
  rw [onFile, wp_bind, wp_get]
  split
  · rename_i refused
    exact ⟨_, refused⟩
  · rfl

/-- Everything but the position is as before. -/
structure Sought (off : Nat) (s s' : Builder) : Prop where
  bytes : s'.file.bytes = s.file.bytes
  log : s'.file.log = s.file.log
  position : s'.file.position = off
  bitmap : s'.bitmap = s.bitmap
  refuses : s'.file.refuses = s.file.refuses

theorem seek_spec (off : Nat) (s : Builder) :
    wp (seek off) (fun _ s' => Sought off s s') (fun _ _ => ∃ k, s.file.refuses k = true) s := by
  apply wp_imp (onFile_spec _ s)
  rintro _ s' rfl
  exact ⟨rfl, rfl, rfl, rfl, rfl⟩

theorem writeAll_spec (owner : Owner) (nonempty : data ≠ []) (s : Builder) :
    wp (writeAll owner data) (fun _ s' => Put owner s.file.position data s s')
      (fun _ _ => ∃ k, s.file.refuses k = true) s := by
  apply wp_imp (onFile_spec _ s)
  rintro _ s' rfl
  refine ⟨rfl, rfl, rfl, rfl, [⟨owner, s.file.position, data.length⟩], rfl, ?_, ?_, ?_⟩
  · intro w member
    rw [List.mem_singleton.mp member]
    exact ⟨rfl, Nat.le_refl _, Nat.le_refl _⟩
  · exact ⟨_, List.mem_singleton.mpr rfl, rfl, List.length_pos_iff.mpr nonempty⟩
  · exact ⟨_, List.mem_singleton.mpr rfl, rfl⟩

theorem Sought.put (h : Sought off s s₁)
    (k : Put owner s₁.file.position data s₁ s₂) : Put owner off data s s₂ := by
  have logged := k.logged
  rw [h.position] at logged
  obtain ⟨stretches, logged⟩ := logged
  refine ⟨?_, ?_, k.bitmap.trans h.bitmap, k.refuses.trans h.refuses, stretches, ?_, logged.inside, logged.first,
    logged.last⟩
  · rw [k.bytes, h.position, h.bytes]
  · rw [k.position, h.position]
  · rw [logged.log, h.log]

theorem Sought.write (h : Sought off s s₁) (nonempty : data ≠ []) :
    wp (writeAll owner data) (fun _ s' => Put owner off data s s') (fun _ _ => ∃ k, s.file.refuses k = true) s₁ := by
  rw [← h.refuses]
  exact wp_imp (writeAll_spec owner nonempty s₁) fun _ _ written => h.put written

theorem Put.write {more : List UInt8} (h : Put owner off data s s₁) (nonempty : more ≠ []) :
    wp (writeAll owner more) (fun _ s' => Put owner off (data ++ more) s s')
      (fun _ _ => ∃ k, s.file.refuses k = true) s₁ := by
  rw [← h.refuses]
  apply wp_imp (writeAll_spec owner nonempty s₁)
  intro _ s' written
  rw [h.position] at written
  exact h.append written

/-! ## One block -/

def blockBytes (next : UInt32) (chunk : List UInt8) : List UInt8 :=
  toLeBytes next ++ (chunk ++ List.replicate (508 - chunk.length) 0)

theorem blockBytes_length (next : UInt32) (fits : chunk.length ≤ 508) : (blockBytes next chunk).length = 512 := by
  simp only [blockBytes, List.length_append, toLeBytes_length, List.length_replicate]
  omega

variable (file : Nat)

theorem writeBlock_spec (current next : UInt32) (nonempty : chunk ≠ [])
    (fits : chunk.length ≤ 508) (s : Builder) :
    wp (writeBlock file current next chunk)
      (fun _ s' => Put (.data file) (current.toNat * 512) (blockBytes next chunk) s s')
      (fun _ _ => ∃ k, s.file.refuses k = true) s := by
  rw [writeBlock, wp_bind]
  apply wp_imp (seek_spec _ s)
  intro _ s₁ sought
  rw [wp_bind]
  apply wp_imp (sought.write (by simp [toLeBytes]))
  intro _ s₂ link
  rw [wp_bind]
  apply wp_imp (link.write nonempty)
  intro _ s₃ both
  rw [blockBytes]
  split_ifs with short
  · exact both.write (by simpa using by omega)
  · rw [show 508 - chunk.length = 0 by omega, List.replicate_zero, List.append_nil]
    exact both

theorem disk_of_block {c : Nat} {s' : Builder} (put : Put owner (c * 512) data s s')
    (whole : data.length = 512) (k : Nat) :
    s'.file.disk k = if k = c then patch (s.file.disk c) 0 data else s.file.disk k := by
  unfold ImageFile.disk
  rw [put.bytes]
  split_ifs with here
  · have inside := window_overwrite s.file.bytes (c * 512) 0 512 data
    rw [Nat.add_zero] at inside
    rw [here, inside]
  · exact window_overwrite_apart s.file.bytes (by omega)

theorem block_link (buf : Block) (next : UInt32) (fits : chunk.length ≤ 508) :
    nextOf (patch buf 0 (blockBytes next chunk)) = next := by
  have length := blockBytes_length next fits
  have window := @slice_patch_inside UInt8 512 buf 0 0 4 (blockBytes next chunk) (by omega) (by omega)
  rw [nextOf, window, List.drop_zero, blockBytes, List.take_left' (toLeBytes_length next), fromLeBytes_toLeBytes]

theorem block_payload (buf : Block) (next : UInt32) (fits : chunk.length ≤ 508) :
    payload (patch buf 0 (blockBytes next chunk)) = chunk ++ List.replicate (508 - chunk.length) 0 := by
  have length := blockBytes_length next fits
  have window := @slice_patch_inside UInt8 512 buf 0 4 508 (blockBytes next chunk) (by omega) (by omega)
  rw [payload, window, blockBytes, List.drop_left' (toLeBytes_length next), List.take_of_length_le (by simp; omega)]

/-! ## The blocks of a file -/

/-- The sectors a file of `count` blocks has when `start` is the first free one. -/
def run (start count : Nat) : List UInt32 := (List.range' start count).map UInt32.ofNat

theorem expectFreeSector_spec {n : Nat} (filled : Filled s n) :
    wp expectFreeSector
      (fun sector s' => sector = UInt32.ofNat n ∧ Filled s' (n + 1) ∧ s'.file = s.file)
      (fun _ _ => mapBits < n + 1) s := by
  have high := filled.high
  have low := filled.low
  rw [expectFreeSector, wp_bind, findFreeSector, wp_bind, wp_get, filled.bitmap]
  by_cases room : n < mapBits
  · rw [firstFree_markBelow room]
    refine ⟨rfl, ⟨?_, by omega, room⟩, rfl⟩
    rw [markBelow_succ]
  · rw [show n = mapBits by omega, firstFree_markBelow_full]
    exact Nat.lt_succ_self _

theorem toNat_sector {c : Nat} (high : c < mapBits) : (UInt32.ofNat c).toNat = c := by
  simp only [mapBits, secMapCount, sectorSize] at high
  rw [UInt32.toNat_ofNat']
  omega

/-- `data` was stored in the sectors from `start` on. -/
structure Stored (file : Nat) (data : List UInt8) (start : Nat) (s s' : Builder) : Prop where
  filled : Filled s' (start + blocksFor data.length)
  refuses : s'.file.refuses = s.file.refuses
  linked : Linked s'.file.disk ((run start (blocksFor data.length)).headD 0) (run start (blocksFor data.length))
  holds : (contents s'.file.disk (run start (blocksFor data.length))).take data.length = data
  frame : ∀ k, k < start ∨ start + blocksFor data.length ≤ k → s'.file.disk k = s.file.disk k
  logged : if data = [] then s'.file.log = s.file.log
    else ∃ stretches, Logged (.data file) (start * 512) ((start + blocksFor data.length) * 512) s s' stretches

theorem Stored.nil {start : Nat} (filled : Filled s start) : Stored file [] start s s :=
  ⟨filled, rfl, rfl, rfl, fun _ _ => rfl, rfl⟩

theorem blocksFor_pos {length : Nat} (positive : 0 < length) :
    blocksFor length = blocksFor (length - min length 508) + 1 := by
  unfold blocksFor
  omega

theorem run_succ (start count : Nat) : run start (count + 1) = UInt32.ofNat start :: run (start + 1) count := by
  rw [run, List.range'_succ, List.map_cons, run]

theorem Stored.cons {file : Nat} {c : Nat} {next : UInt32} {s₃ : Builder} (nonempty : data ≠ [])
    (low : secDataStart ≤ c) (high : c < mapBits) (same : s₁.file = s.file)
    (put : Put (.data file) (c * 512) (blockBytes next (data.take (min data.length 508))) s₁ s₂)
    (link : next = (run (c + 1) (blocksFor (data.drop (min data.length 508)).length)).headD 0)
    (later : Stored file (data.drop (min data.length 508)) (c + 1) s₂ s₃) : Stored file data c s s₃ := by
  have positive := List.length_pos_iff.mpr nonempty
  have short : (data.take (min data.length 508)).length ≤ 508 := by
    rw [List.length_take]
    omega
  have chunkLength : (data.take (min data.length 508)).length = min data.length 508 := by
    rw [List.length_take]
    omega
  have restLength : (data.drop (min data.length 508)).length = data.length - min data.length 508 := List.length_drop
  have count : blocksFor data.length = blocksFor (data.drop (min data.length 508)).length + 1 := by
    rw [restLength]
    exact blocksFor_pos positive
  have disk := disk_of_block put (blockBytes_length next short)
  have here : s₃.file.disk c = patch (s₁.file.disk c) 0 (blockBytes next (data.take (min data.length 508))) := by
    rw [later.frame c (Or.inl (Nat.lt_succ_self c)), disk, if_pos rfl]
  have index := toNat_sector high
  have sectorsAdd : c + blocksFor data.length = c + 1 + blocksFor (data.drop (min data.length 508)).length := by omega
  refine ⟨?_, ?_, ?_, ?_, fun k outside => ?_, ?_⟩
  · rw [sectorsAdd]
    exact later.filled
  · rw [later.refuses, put.refuses, same]
  · rw [count]
    refine ⟨rfl, fun zero => ?_, ?_⟩
    · have := congrArg UInt32.toNat zero
      rw [index] at this
      simp only [secDataStart] at low
      simp at this
      omega
    · rw [index, here, block_link _ _ short, link]
      exact later.linked
  · rw [count, run_succ, contents, List.flatMap_cons, index, here, block_payload _ _ short]
    by_cases last : data.length ≤ 508
    · have all : min data.length 508 = data.length := by omega
      rw [List.append_assoc, List.take_append_of_le_length (by rw [chunkLength]; omega), all, List.take_length,
        List.take_length]
    · have whole : min data.length 508 = 508 := by omega
      have rest := later.holds
      rw [whole] at rest chunkLength restLength ⊢
      rw [chunkLength, List.replicate_zero, List.append_nil, List.take_append, chunkLength,
        List.take_of_length_le (by rw [chunkLength]; omega), ← restLength]
      rw [contents] at rest
      rw [rest, List.take_append_drop]
  · rw [later.frame k (by omega), disk, if_neg (by omega), same]
  · rw [if_neg nonempty]
    obtain ⟨early, log, inside, first, last⟩ := put.logged
    rw [blockBytes_length next short, ← Nat.succ_mul] at inside last
    rw [same] at log
    have le : Logged (.data file) (c * 512) ((c + 1) * 512) s s₂ early := ⟨log, inside, first, last⟩
    have logged := later.logged
    rw [sectorsAdd]
    split_ifs at logged with done
    · rw [done]
      exact ⟨early, logged.trans log, inside, first, last⟩
    · obtain ⟨late, ll⟩ := logged
      exact ⟨late ++ early, le.append ll⟩

/-- Why a file may not be stored: the host refuses a call, or the bitmap has too few sectors. -/
def Obstacle (s : Builder) (need : Nat) : Prop := (∃ k, s.file.refuses k = true) ∨ mapBits < need

/-- The loop of `write_data`, `current` having been taken from the bitmap already. -/
theorem writeChunks_spec (remaining : List UInt8) {c : Nat} {s : Builder} (nonempty : remaining ≠ [])
    (low : secDataStart ≤ c) (filled : Filled s (c + 1)) :
    wp (writeChunks file remaining (UInt32.ofNat c)) (fun _ s' => Stored file remaining c s s')
      (fun _ _ => Obstacle s (c + blocksFor remaining.length)) s := by
  have positive := List.length_pos_iff.mpr nonempty
  have high : c < mapBits := filled.high
  have index := toNat_sector high
  have count := blocksFor_pos positive
  have chunk : remaining.take (min remaining.length 508) ≠ [] := by
    rw [← List.length_pos_iff, List.length_take]
    omega
  have short : (remaining.take (min remaining.length 508)).length ≤ 508 := by
    rw [List.length_take]
    omega
  rw [writeChunks, dif_neg nonempty, wp_bind]
  by_cases done : remaining.drop (min remaining.length 508) = []
  · -- the last block has no successor
    rw [done, nextSector, List.isEmpty_nil, if_pos rfl, wp_pure, wp_bind]
    apply wp_mono (writeBlock_spec file _ 0 chunk short s) _ (fun _ _ refused => Or.inl refused)
    intro _ s₁ put
    rw [index] at put
    rw [writeChunks]
    refine Stored.cons nonempty low high rfl put (by rw [done]; rfl) ?_
    rw [done]
    exact Stored.nil file ⟨put.bitmap.trans filled.bitmap, filled.low, filled.high⟩
  · rw [nextSector, if_neg (by simpa using done)]
    have restLength :
        (remaining.drop (min remaining.length 508)).length = remaining.length - min remaining.length 508 :=
      List.length_drop
    have restPositive := List.length_pos_iff.mpr done
    apply wp_mono (expectFreeSector_spec filled)
    · rintro _ s₁ ⟨rfl, filled₁, same⟩
      rw [wp_bind]
      apply wp_mono (writeBlock_spec file _ _ chunk short s₁) _
        (fun _ _ refused => Or.inl (by rw [← same]; exact refused))
      intro _ s₂ put
      rw [index] at put
      have filled₂ : Filled s₂ (c + 1 + 1) := ⟨put.bitmap.trans filled₁.bitmap, filled₁.low, filled₁.high⟩
      apply wp_mono (writeChunks_spec (remaining.drop (min remaining.length 508)) done (by omega) filled₂)
      · intro _ s₃ later
        refine Stored.cons nonempty low high same put ?_ later
        rw [blocksFor_pos (by omega)]
        rfl
      · intro _ _ obstacle
        rcases obstacle with refused | full
        · exact Or.inl (by rw [← same, ← put.refuses]; exact refused)
        · rw [restLength] at full
          exact Or.inr (by omega)
    · intro _ _ full
      rw [restLength] at restPositive
      have more := blocksFor_pos restPositive
      exact Or.inr (by omega)
decreasing_by
  omega

theorem writeData_spec (data : List UInt8) {start : Nat} (filled : Filled s start) :
    wp (writeData file data)
      (fun head s' => head = (run start (blocksFor data.length)).headD 0 ∧ Stored file data start s s')
      (fun _ _ => Obstacle s (start + blocksFor data.length)) s := by
  rw [writeData]
  by_cases empty : data = []
  · subst empty
    exact ⟨rfl, Stored.nil file filled⟩
  · have count := blocksFor_pos (List.length_pos_iff.mpr empty)
    rw [if_neg (by simpa using empty), wp_bind]
    apply wp_mono (expectFreeSector_spec filled)
    · rintro _ _ ⟨rfl, filled₁, same⟩
      rw [wp_bind]
      apply wp_mono (writeChunks_spec file data empty filled.low filled₁)
      · intro _ s₂ stored
        refine ⟨?_, stored.filled, ?_, stored.linked, stored.holds, fun k outside => ?_, ?_⟩
        · rw [count]
          rfl
        · rw [stored.refuses, same]
        · rw [stored.frame k outside, same]
        · have logged := stored.logged
          rw [if_neg empty] at logged ⊢
          obtain ⟨stretches, logged⟩ := logged
          exact ⟨stretches, by rw [logged.log, same], logged.inside, logged.first, logged.last⟩
      · intro _ _ obstacle
        rw [Obstacle, ← same]
        exact obstacle
    · exact fun _ _ full => Or.inr (by omega)

/-! ## Directory entries -/

theorem writeDirEntry_spec (idx : Nat) (name : String) (size head : UInt32) (s : Builder) :
    wp (writeDirEntry idx name size head)
      (fun _ s' => Put (.entry idx) (entryOffset idx) (DirEntry.mk (fixedName (asBytes name)) size head).bytes s s')
      (fun _ _ => (∃ k, s.file.refuses k = true) ∨ 64 < (asBytes name).length) s := by
  rw [writeDirEntry, wp_bind]
  apply wp_mono (seek_spec _ s) _ (fun _ _ refused => Or.inl refused)
  intro _ s₁ sought
  dsimp only
  split_ifs with fits
  · rw [wp_bind]
    have padded : asBytes name ++ List.replicate (64 - (asBytes name).length) 0 ≠ [] := by
      rw [← List.length_pos_iff, List.length_append, List.length_replicate]
      omega
    apply wp_mono (sought.write padded) _ (fun _ _ refused => Or.inl refused)
    intro _ s₂ first
    rw [wp_bind]
    apply wp_mono (first.write (by simp [toLeBytes])) _ (fun _ _ refused => Or.inl refused)
    intro _ s₃ second
    rw [DirEntry.bytes, fixedName_toList fits, ← List.append_assoc]
    exact wp_mono (second.write (by simp [toLeBytes])) (fun _ _ third => third) fun _ _ refused => Or.inl refused
  · exact Or.inr (by omega)

end HavyOs.Mkfs
