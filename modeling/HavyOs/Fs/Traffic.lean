import HavyOs.Fs.Chain
import Mathlib.Data.Finset.Card

/-!
# What a filesystem call does to the sectors

Every call is a sequence of cache accesses, and between two calls of `sync` the device
changes only by evictions. `Traffic fresh loads` says what such a sequence leaves: a
sector outside `fresh` is on the device as it was or as the cache showed it before,
only the sectors of `loads` came into the cache, and when all of it fits into the cache
the device is not written at all.
-/

namespace HavyOs.Fs

open HavyOs.Lib

namespace CacheMem

open BufferCache (Loaded Stored)

/-- From `m` to `m'` by cache accesses that load `loads` and change the view in `fresh`. -/
structure Traffic (fresh loads : List Nat) (m m' : CacheMem) : Prop where
  coherent : Coherent m'
  fails : m'.dev.fails = m.dev.fails
  disk : ∀ s, s ∉ fresh → m'.dev.disk s = m.dev.disk s ∨ m'.dev.disk s = m.view s
  cached : ∀ s, m'.Cached s → m.Cached s ∨ s ∈ loads
  quiet : ∀ set : Finset Nat, set.card ≤ cacheMaxBlocks → (∀ s, m.Cached s → s ∈ set) → (∀ s ∈ loads, s ∈ set) →
    m'.dev.disk = m.dev.disk

variable {m : CacheMem} {sector : Nat} {m' : CacheMem}

theorem Traffic.reliable {fresh loads : List Nat} (h : Traffic fresh loads m m') (reliable : m.dev.Reliable) :
    m'.dev.Reliable := by
  rw [BlockDev.Reliable, h.fails]
  exact reliable

/-- If `sector` and all that is cached fit into the cache, nothing is evicted for `sector`. -/
theorem room_of_card {set : Finset Nat} (small : set.card ≤ cacheMaxBlocks)
    (within : ∀ s, m.Cached s → s ∈ set) (member : sector ∈ set) : m.Cached sector ∨ m.size < cacheMaxBlocks := by
  by_cases cached : m.Cached sector
  · exact Or.inl cached
  · have fewer : m.size ≤ (set.erase sector).card := by
      have distinct : m.cache.blocks.keys.Nodup := by
        refine (Std.TreeMap.distinct_keys).imp fun {a b} apart same => apart ?_
        rw [same]
        exact Std.ReflCmp.compare_self
      rw [size, ← Std.TreeMap.length_keys, ← List.toFinset_card_of_nodup distinct]
      apply Finset.card_le_card
      intro s listed
      have present : m.Cached s := Std.TreeMap.mem_keys.mp (List.mem_toFinset.mp listed)
      exact Finset.mem_erase.mpr ⟨fun same => cached (same ▸ present), within s present⟩
    have := Finset.card_erase_lt_of_mem member
    exact Or.inr (by omega)

theorem Traffic.refl (h : Coherent m) : Traffic [] [] m m :=
  ⟨h, rfl, fun _ _ => Or.inl rfl, fun _ present => Or.inl present, fun _ _ _ _ => rfl⟩

theorem Traffic.of_same (h : Coherent m) (cache : m'.cache = m.cache) (disk : m'.dev.disk = m.dev.disk)
    (fails : m'.dev.fails = m.dev.fails) : Traffic [] [] m m' := by
  refine ⟨(Kept.of_same h (by rw [cache]) disk fails).coherent, fails, fun s _ => Or.inl (by rw [disk]),
    fun s present => ?_,
    fun _ _ _ _ => disk⟩
  rw [Cached, cache] at present
  exact Or.inl present

theorem Traffic.of_loaded (h : Loaded sector m m') : Traffic [] [sector] m m' := by
  refine ⟨h.kept.coherent, h.kept.fails, fun s _ => h.kept.disk s, fun s present => ?_,
    fun set small within loads => ?_⟩
  · simpa using h.only s present
  · exact h.quiet (room_of_card small within (loads sector (by simp)))

/-- A store is traffic of its one sector, with or without an eviction. -/
theorem Traffic.of_stored {data : Block} (h : Stored sector data m m') : Traffic [] [sector] m m' := by
  refine ⟨h.coherent, h.fails, fun s _ => h.disk s, fun s present => ?_, fun set small within loads => ?_⟩
  · simpa using h.only s present
  · exact h.quiet (room_of_card small within (loads sector (by simp)))

/-- Two stretches of traffic, the first of which changed the view inside `fresh` only. -/
theorem Traffic.trans {a b c : CacheMem} {fresh fresh₁ fresh₂ loads loads₁ loads₂ : List Nat}
    (h : Traffic fresh₁ loads₁ a b) (k : Traffic fresh₂ loads₂ b c) (view : ∀ s, s ∉ fresh → b.view s = a.view s)
    (first : ∀ s, s ∈ fresh₁ → s ∈ fresh) (second : ∀ s, s ∈ fresh₂ → s ∈ fresh)
    (loaded : ∀ s, s ∈ loads₁ ∨ s ∈ loads₂ → s ∈ loads) : Traffic fresh loads a c := by
  refine ⟨k.coherent, k.fails.trans h.fails, fun s outside => ?_, fun s present => ?_, fun set small within loads => ?_⟩
  · rcases k.disk s (fun member => outside (second s member)) with same | taken
    · rw [same]
      exact h.disk s fun member => outside (first s member)
    · rw [taken, view s outside]
      exact Or.inr rfl
  · rcases k.cached s present with old | new
    · exact (h.cached s old).imp_right fun member => loaded s (Or.inl member)
    · exact Or.inr (loaded s (Or.inr new))
  · have firstQuiet := h.quiet set small within fun s member => loads s (loaded s (Or.inl member))
    refine (k.quiet set small ?_ ?_).trans firstQuiet
    · intro s present
      rcases h.cached s present with old | new
      · exact within s old
      · exact loads s (loaded s (Or.inl new))
    · exact fun s member => loads s (loaded s (Or.inr member))

end CacheMem

namespace BufferCache

open CacheMem

/-- On a reliable device the change is in the view, whatever was evicted for it. -/
theorem modifyBlock_spec {m : CacheMem} (h : Coherent m) (reliable : m.dev.Reliable) (sector : Nat) (f : Block → Block)
    {E : String → CacheMem → Prop} :
    wp (modifyBlock sector f)
      (fun _ m' => m'.view = Function.update m.view sector (f (m.view sector)) ∧ Traffic [] [sector] m m') E m := by
  rw [modifyBlock, wp_bind]
  apply wp_mono (readMut_spec h sector)
  · rintro _ m₁ ⟨rfl, loaded⟩
    apply wp_imp (edit_mark_spec loaded.kept.coherent loaded.cached f)
    rintro _ _ ⟨stored, size, -⟩
    have whole := loaded.stored.trans stored loaded.cached size
    refine ⟨?_, Traffic.of_stored whole⟩
    rw [whole.view, loaded.kept.view]
  · rintro e m₁ ⟨-, -, k, refused⟩
    rw [reliable k] at refused
    cases refused

theorem write_reliable {m : CacheMem} (h : Coherent m) (reliable : m.dev.Reliable) (sector : Nat) (data : Block)
    {E : String → CacheMem → Prop} :
    wp (write sector data)
      (fun _ m' => m'.view = Function.update m.view sector data ∧ Traffic [] [sector] m m') E m := by
  apply wp_mono (write_spec h sector data)
  · exact fun _ m' stored => ⟨stored.view, Traffic.of_stored stored⟩
  · rintro e _ ⟨-, -, k, refused⟩
    rw [reliable k] at refused
    cases refused

end BufferCache

end HavyOs.Fs
