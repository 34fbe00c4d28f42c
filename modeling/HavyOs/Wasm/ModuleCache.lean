import Std.Data.TreeMap
import Mathlib.Data.Finset.Card
import Mathlib.Data.List.Induction

/-!
# The cache of WASM modules

`execute` in `wasm.rs` keeps parsed modules under a hash of their bytes. The hash looks at the
length, the first 32, the last 16 and 16 bytes in the middle, and the bytes are not kept, so a call
finds the module of any earlier call whose bytes differ elsewhere. The parser is a parameter; the
bytes a module was compiled from are kept beside it, to say which module is instantiated.
-/

namespace HavyOs.Wasm

open Std.TreeMap

def maxCacheEntries : Nat := 16

/-- One of the loops of `hash_wasm`. -/
def hashBytes (factor : UInt64) (h : UInt64) (bytes : List UInt8) : UInt64 :=
  bytes.foldl (fun h b => h * factor + b.toUInt64) h

def hashWasm (bytes : List UInt8) : UInt64 :=
  let h := UInt64.ofNat bytes.length
  let h := hashBytes 31 h (bytes.take 32)
  let h := hashBytes 37 h (bytes.reverse.take 16)
  if bytes.length > 64 then hashBytes 41 h ((bytes.drop (bytes.length / 2)).take 16) else h

/-- `CachedModule`, with the bytes it was compiled from. -/
structure CachedModule (μ : Type) where
  module : μ
  bytes : List UInt8
deriving DecidableEq

abbrev ModuleCache (μ : Type) := Std.TreeMap UInt64 (CachedModule μ)

section Execute

variable {μ : Type} (parse : List UInt8 → Except String μ)

def compile (bytes : List UInt8) : Except String (CachedModule μ) := (parse bytes).map fun module => ⟨module, bytes⟩

/-- The eviction: a full cache gives up the entry with the smallest key. -/
def evict (cache : ModuleCache μ) : ModuleCache μ :=
  if cache.size ≥ maxCacheEntries then
    match cache.minKey? with
    | some oldestKey => cache.erase oldestKey
    | none => cache
  else cache

/-- `execute` up to the instantiation: the module that is instantiated, or the parser's error. -/
def execute (cache : ModuleCache μ) (bytes : List UInt8) : Except String (CachedModule μ) × ModuleCache μ :=
  match cache[hashWasm bytes]? with
  | some cached => (.ok cached, cache)
  | none =>
    match compile parse bytes with
    | .error message => (.error message, cache)
    | .ok compiled => (.ok compiled, (evict cache).insert (hashWasm bytes) compiled)

def executeAll (calls : List (List UInt8)) : ModuleCache μ :=
  calls.foldl (fun cache bytes => (execute parse cache bytes).2) ∅

end Execute

/-! ## The hashes that are kept -/

/-- A hash comes in if it is not there, and the smallest goes if there are sixteen. -/
def takeIn (kept : Finset UInt64) (hash : UInt64) : Finset UInt64 :=
  if hash ∈ kept then kept
  else insert hash (if 16 ≤ kept.card then kept.filter fun key => ∃ other ∈ kept, other < key else kept)

variable {μ : Type}

/-- The hashes that are kept after some calls, from the hashes of those whose bytes parse. -/
def keptHashes (parse : List UInt8 → Except String μ) (calls : List (List UInt8)) : Finset UInt64 :=
  ((calls.filter fun bytes => (parse bytes).isOk).map hashWasm).foldl takeIn ∅

/-- These bytes were the last to be compiled under their hash: they parse, nothing was kept under their hash before the
call, and the hash was kept ever since. -/
def LoadedBy (parse : List UInt8 → Except String μ) (calls : List (List UInt8)) (bytes : List UInt8) : Prop :=
  ∃ before after, calls = before ++ bytes :: after ∧ (parse bytes).isOk = true ∧
    hashWasm bytes ∉ keptHashes parse before ∧
    ∀ more, more <+: after → hashWasm bytes ∈ keptHashes parse (before ++ bytes :: more)

section History

variable {parse : List UInt8 → Except String μ} {calls : List (List UInt8)} {bytes earlier : List UInt8}

theorem keptHashes_snoc (calls : List (List UInt8)) (bytes : List UInt8) : keptHashes parse (calls ++ [bytes]) =
    if (parse bytes).isOk then takeIn (keptHashes parse calls) (hashWasm bytes) else keptHashes parse calls := by
  cases parses : (parse bytes).isOk <;> simp [keptHashes, parses]

theorem LoadedBy.snoc (loaded : LoadedBy parse calls earlier)
    (kept : hashWasm earlier ∈ keptHashes parse (calls ++ [bytes])) : LoadedBy parse (calls ++ [bytes]) earlier := by
  obtain ⟨before, after, rfl, parses, absent, since⟩ := loaded
  refine ⟨before, after ++ [bytes], by simp, parses, absent, fun more part => ?_⟩
  obtain rfl | part := List.prefix_concat_iff.mp part
  · simpa using kept
  · exact since more part

/-- One call at most loaded what is kept under a hash. -/
theorem LoadedBy.unique (loaded : LoadedBy parse calls earlier) (loaded' : LoadedBy parse calls bytes)
    (same : hashWasm earlier = hashWasm bytes) : earlier = bytes := by
  obtain ⟨before, after, split, -, absent, since⟩ := loaded
  obtain ⟨before', after', split', -, absent', since'⟩ := loaded'
  obtain ⟨between, front, back⟩ | ⟨between, front, back⟩ := List.append_eq_append_iff.mp (split.symm.trans split')
  · obtain ⟨-, rfl, -⟩ | ⟨more, rfl, rest⟩ := List.cons_eq_append_iff.mp back
    · rfl
    · -- the first of the two was kept until the second came
      rw [front, ← same] at absent'
      exact absurd (since more ⟨_, rest.symm⟩) absent'
  · obtain ⟨-, rfl, -⟩ | ⟨more, rfl, rest⟩ := List.cons_eq_append_iff.mp back
    · rfl
    · rw [front, same] at absent
      exact absurd (since' more ⟨_, rest.symm⟩) absent

end History

/-! ## The invariant -/

variable {parse : List UInt8 → Except String μ}

/-- The cache has the hashes that are kept, no more than its capacity, and under each the module that was loaded last.
-/
structure Sound (parse : List UInt8 → Except String μ) (calls : List (List UInt8)) (cache : ModuleCache μ) : Prop where
  bounded : cache.size ≤ maxCacheEntries
  keys : ∀ key, key ∈ cache ↔ key ∈ keptHashes parse calls
  hashed : ∀ {key : UInt64} {cached}, cache[key]? = some cached → hashWasm cached.bytes = key
  compiled : ∀ {key : UInt64} {cached}, cache[key]? = some cached → compile parse cached.bytes = .ok cached
  loaded : ∀ {key : UInt64} {cached}, cache[key]? = some cached → LoadedBy parse calls cached.bytes

theorem sound_empty : Sound parse [] ∅ where
  bounded := Nat.zero_le _
  keys key := by simp [keptHashes]
  hashed found := absurd found (by simp)
  compiled found := absurd found (by simp)
  loaded found := absurd found (by simp)

variable {cache : ModuleCache μ} {calls : List (List UInt8)} {bytes : List UInt8}

theorem mem_of_found {key : UInt64} {cached : CachedModule μ} (found : cache[key]? = some cached) : key ∈ cache := by
  rw [mem_iff_isSome_getElem?, found]
  rfl

theorem not_mem_of_missing {key : UInt64} (missing : cache[key]? = none) : key ∉ cache := by
  rw [mem_iff_isSome_getElem?, missing]
  exact Bool.false_ne_true

theorem size_evict (bounded : cache.size ≤ maxCacheEntries) : (evict cache).size < maxCacheEntries := by
  unfold evict
  split_ifs with full
  · have positive : 0 < maxCacheEntries := by decide
    cases least : cache.minKey? with
    | none =>
      have empty := minKey?_eq_none_iff.mp least
      rw [isEmpty_eq_size_eq_zero, beq_iff_eq] at empty
      omega
    | some oldestKey =>
      have member := (minKey?_eq_some_iff_mem_and_forall.mp least).1
      rw [size_erase, if_pos (contains_iff_mem.mpr member)]
      omega
  · exact Nat.lt_of_not_le full

theorem getElem?_evict {key : UInt64} {cached : CachedModule μ} (found : (evict cache)[key]? = some cached) :
    cache[key]? = some cached := by
  unfold evict at found
  split at found
  · split at found
    · rw [getElem?_erase] at found
      split_ifs at found
      exact found
    · exact found
  · exact found

section Keys

variable {kept : Finset UInt64} (keys : ∀ key, key ∈ cache ↔ key ∈ kept)
include keys

theorem size_eq_card : cache.size = kept.card := by
  have same : kept = ⟨cache.keys, nodup_keys⟩ := by
    ext key
    rw [← keys, ← mem_keys]
    rfl
  rw [same, ← length_keys]
  rfl

/-- The eviction takes the smallest hash. -/
theorem mem_evict_iff (key : UInt64) : key ∈ evict cache ↔
    key ∈ if 16 ≤ kept.card then kept.filter fun key => ∃ other ∈ kept, other < key else kept := by
  rw [evict, size_eq_card keys]
  by_cases full : 16 ≤ kept.card
  · rw [if_pos full, if_pos (show kept.card ≥ maxCacheEntries from full)]
    cases least : cache.minKey? with
    | none =>
      have empty := minKey?_eq_none_iff.mp least
      rw [isEmpty_eq_size_eq_zero, beq_iff_eq, size_eq_card keys] at empty
      omega
    | some oldestKey =>
      obtain ⟨member, smallest⟩ := minKey?_eq_some_iff_mem_and_forall.mp least
      have le {other : UInt64} (inside : other ∈ cache) : oldestKey ≤ other :=
        Std.isLE_compare.mp (smallest other inside)
      rw [mem_erase, ne_eq, Std.compare_eq_iff_eq, Finset.mem_filter, ← keys, and_comm]
      refine and_congr_right fun inside => ⟨fun other => ⟨oldestKey, (keys _).mp member, ?_⟩, ?_⟩
      · exact UInt64.lt_of_le_of_ne (le inside) other
      · rintro ⟨other, there, less⟩ rfl
        exact UInt64.not_lt.mpr (le ((keys other).mpr there)) less
  · rw [if_neg full, if_neg (show ¬kept.card ≥ maxCacheEntries from full), keys]

end Keys

theorem bytes_of_compile {compiled : CachedModule μ} (done : compile parse bytes = .ok compiled) :
    compiled.bytes = bytes ∧ (parse bytes).isOk = true := by
  unfold compile at done
  cases parsed : parse bytes with
  | error message =>
    rw [parsed] at done
    cases done
  | ok module =>
    rw [parsed] at done
    rw [← Except.ok.inj done]
    exact ⟨rfl, rfl⟩

/-- The cache stays as it is where the hashes do. -/
theorem Sound.same (sound : Sound parse calls cache)
    (same : keptHashes parse (calls ++ [bytes]) = keptHashes parse calls) : Sound parse (calls ++ [bytes]) cache where
  bounded := sound.bounded
  keys := by
    rw [same]
    exact sound.keys
  hashed := sound.hashed
  compiled := sound.compiled
  loaded {key cached} found := by
    refine (sound.loaded found).snoc ?_
    rw [same, sound.hashed found, ← sound.keys]
    exact mem_of_found found

/-- A module is compiled and comes into the cache. -/
theorem Sound.load (sound : Sound parse calls cache) {compiled : CachedModule μ}
    (missing : cache[hashWasm bytes]? = none) (done : compile parse bytes = .ok compiled) :
    Sound parse (calls ++ [bytes]) ((evict cache).insert (hashWasm bytes) compiled) := by
  obtain ⟨own, parses⟩ := bytes_of_compile done
  have absent : hashWasm bytes ∉ keptHashes parse calls := (sound.keys _).not.mp (not_mem_of_missing missing)
  have keys (key : UInt64) : key ∈ (evict cache).insert (hashWasm bytes) compiled ↔
      key ∈ keptHashes parse (calls ++ [bytes]) := by
    rw [keptHashes_snoc, if_pos parses, takeIn, if_neg absent, Finset.mem_insert, ← mem_evict_iff sound.keys,
      mem_insert, Std.compare_eq_iff_eq, eq_comm]
  -- an entry is the new one or was there before
  have cases : ∀ {key : UInt64} {cached}, ((evict cache).insert (hashWasm bytes) compiled)[key]? = some cached →
      cached = compiled ∧ key = hashWasm bytes ∨ cache[key]? = some cached := by
    intro key cached found
    rw [getElem?_insert] at found
    split_ifs at found with same
    · exact .inl ⟨(Option.some.inj found).symm, (Std.compare_eq_iff_eq.mp same).symm⟩
    · exact .inr (getElem?_evict found)
  refine ⟨Nat.le_trans size_insert_le (size_evict sound.bounded), keys, ?_, ?_, ?_⟩
  · intro key cached found
    obtain ⟨rfl, rfl⟩ | before := cases found
    · rw [own]
    · exact sound.hashed before
  · intro key cached found
    obtain ⟨rfl, rfl⟩ | before := cases found
    · rw [own]
      exact done
    · exact sound.compiled before
  · intro key cached found
    obtain ⟨rfl, rfl⟩ | before := cases found
    · rw [own]
      refine ⟨calls, [], rfl, parses, absent, fun more part => ?_⟩
      rw [List.prefix_nil.mp part, ← keys]
      exact mem_insert_self
    · refine (sound.loaded before).snoc ?_
      rw [← keys, sound.hashed before]
      exact mem_of_found found

theorem Sound.execute (sound : Sound parse calls cache) (bytes : List UInt8) :
    Sound parse (calls ++ [bytes]) (execute parse cache bytes).2 := by
  unfold Wasm.execute
  split
  · rename_i cached found
    refine sound.same ?_
    have kept := (sound.keys _).mp (mem_of_found found)
    rw [keptHashes_snoc, takeIn, if_pos kept, ite_self]
  · rename_i missing
    split
    · rename_i message failed
      refine sound.same ?_
      rw [keptHashes_snoc, if_neg]
      unfold compile at failed
      cases parsed : parse bytes with
      | error => exact Bool.false_ne_true
      | ok =>
        rw [parsed] at failed
        cases failed
    · rename_i compiled done
      exact sound.load missing done

theorem sound_executeAll (parse : List UInt8 → Except String μ) (calls : List (List UInt8)) :
    Sound parse calls (executeAll parse calls) := by
  induction calls using List.reverseRecOn with
  | nil => exact sound_empty
  | append_singleton calls bytes ih =>
    rw [executeAll, List.foldl_append]
    exact ih.execute bytes

/-- A call instantiates the module of its bytes exactly when what it finds, if anything, was loaded by the same bytes.
-/
theorem Sound.execute_iff (sound : Sound parse calls cache)
    (bytes : List UInt8) : (Wasm.execute parse cache bytes).1 = compile parse bytes ↔
      ∀ earlier, hashWasm earlier = hashWasm bytes → LoadedBy parse calls earlier → earlier = bytes := by
  unfold Wasm.execute
  cases found : cache[hashWasm bytes]? with
  | none =>
    have own : (match compile parse bytes with
        | .error message => ((.error message, cache) : Except String (CachedModule μ) × ModuleCache μ)
        | .ok compiled => (.ok compiled, (evict cache).insert (hashWasm bytes) compiled)).1 = compile parse bytes := by
      cases compile parse bytes <;> rfl
    refine iff_of_true own fun earlier same loaded => ?_
    obtain ⟨before, after, rfl, -, -, since⟩ := loaded
    have kept := since after (List.prefix_refl _)
    rw [same, ← sound.keys] at kept
    exact absurd kept (not_mem_of_missing found)
  | some cached =>
    have loaded := sound.loaded found
    constructor
    · intro same earlier hash loaded'
      rw [loaded'.unique loaded (hash.trans (sound.hashed found).symm)]
      exact (bytes_of_compile same.symm).1
    · intro own
      rw [← own cached.bytes (sound.hashed found) loaded]
      exact (sound.compiled found).symm

/-- **Transparency.** After every sequence of calls the cache is within its capacity, and the next call instantiates the
module of its own bytes exactly when the earlier call with the same hash whose module is still kept, if there is one,
had the same bytes. -/
theorem module_cache_transparent (parse : List UInt8 → Except String μ) (calls : List (List UInt8))
    (bytes : List UInt8) :
    ((execute parse (executeAll parse calls) bytes).1 = compile parse bytes ↔
      ∀ earlier, hashWasm earlier = hashWasm bytes → LoadedBy parse calls earlier → earlier = bytes) ∧
    (executeAll parse calls).size ≤ maxCacheEntries :=
  ⟨(sound_executeAll parse calls).execute_iff bytes, (sound_executeAll parse calls).bounded⟩

/-- A module of 100 bytes with a custom section, whose bytes 40 can be anything. -/
def someModule (b : UInt8) : List UInt8 :=
  [0x00, 0x61, 0x73, 0x6D, 0x01, 0x00, 0x00, 0x00, 0x00, 0x5A, 0x00] ++ List.replicate 29 0 ++ [b] ++
    List.replicate 59 0

/-- A second module that differs from the first in a byte that is not hashed: the first is run again. -/
theorem another_module_runs : someModule 1 ≠ someModule 0 ∧
    (execute Except.ok (executeAll Except.ok [someModule 0]) (someModule 1)).1 = compile Except.ok (someModule 0) := by
  have same : hashWasm (someModule 1) = hashWasm (someModule 0) := by decide +kernel
  have first : executeAll Except.ok [someModule 0] =
      (evict ∅).insert (hashWasm (someModule 0)) ⟨someModule 0, someModule 0⟩ := by
    rfl
  refine ⟨by decide, ?_⟩
  rw [first, execute, same, getElem?_insert_self]
  rfl

end HavyOs.Wasm
