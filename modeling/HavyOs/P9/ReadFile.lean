import Mathlib.Order.Monotone.Basic
import HavyOs.P9.Driver

/-!
# Reading a file over 9P

`read_file` of `virtio_p9.rs`: it opens the file and reads chunk after chunk until a read gives
nothing, then closes. A read that fails ends the loop as the end of the file does, and a message
size of 100 makes the chunks empty, so what is returned may be a part of the file. The loop is run
for a number of rounds.
-/

namespace HavyOs.P9

open Lib VirtioP9Driver Server List

/-- What `read_file` returns: `None`, `Some`, or nothing yet. -/
inductive ReadResult where
  | absent
  | contents (data : List UInt8)
  | running
deriving DecidableEq, Repr

def openForReading (path : List UInt8) : Drive (Option UInt32) := do
  match ← attempt (walk path) with
  | none => pure none
  | some fid =>
    match ← attempt (openFid fid oRdonly) with
    | some _ => pure (some fid)
    | none =>
      let _ ← attempt (clunk fid)
      pure none

def readLoop (fid chunkSize : UInt32) : Nat → UInt64 → List UInt8 → Drive (Option (List UInt8))
  | 0, _, _ => pure none
  | rounds + 1, offset, data => do
    match ← attempt (read fid offset chunkSize) with
    | none => pure (some data)
    | some chunk =>
      if chunk ≠ [] then readLoop fid chunkSize rounds (offset + UInt64.ofNat chunk.length) (data ++ chunk)
      else pure (some data)

/-- `(self.msize - 100).min(4096)`, where the difference wraps. -/
def VirtioP9Driver.chunkSize (d : VirtioP9Driver) : UInt32 := min (d.msize - 100) 4096

def readFile (rounds : Nat) (path : List UInt8) : Drive ReadResult := do
  match ← openForReading path with
  | none => pure .absent
  | some fid =>
    let d ← get
    match ← readLoop fid d.chunkSize rounds 0 [] with
    | none => pure .running
    | some data =>
      let _ ← attempt (clunk fid)
      pure (.contents data)

/-! ## Where the loop stops -/

namespace VirtioP9Driver

/-- Where the loop is after `n` rounds, on a file of `size` bytes. -/
def offsetAt (d : VirtioP9Driver) (size : Nat) : Nat → Nat
  | 0 => 0
  | n + 1 =>
    d.offsetAt size n + min (min (size - d.offsetAt size n) (min d.chunkSize.toNat (d.server.msize - 11)))
      ((d.server.choices (d.server.time + n)).limit + 1)

/-- The request of round `n` is answered with `Rlerror`. -/
def refusedAt (d : VirtioP9Driver) (n : Nat) : Prop := (d.server.choices (d.server.time + n)).refuse = true

instance (d : VirtioP9Driver) (n : Nat) : Decidable (d.refusedAt n) := inferInstanceAs (Decidable (_ = _))

/-- How far the loop comes from round `n` on, if it ends within `rounds`. -/
def readTo (d : VirtioP9Driver) (size : Nat) : Nat → Nat → Option Nat
  | 0, _ => none
  | rounds + 1, n =>
    if d.refusedAt n ∨ d.offsetAt size (n + 1) = d.offsetAt size n then some (d.offsetAt size n)
    else d.readTo size rounds (n + 1)

/-- The driver when the server has had `n` requests that changed nothing. -/
def after (d : VirtioP9Driver) (n : Nat) :
    VirtioP9Driver := { d with queue := { d.queue with device := d.server.ticks n } }

variable {d : VirtioP9Driver} {size rounds n : Nat}

theorem offsetAt_alike {d' : VirtioP9Driver} (msize : d.msize = d'.msize) (alike : d.server.Alike d'.server)
    (size n : Nat) :
    d.offsetAt size n = d'.offsetAt size n := by
  induction n with
  | zero => rfl
  | succ n ih => rw [offsetAt, offsetAt, ih, chunkSize, chunkSize, msize, alike.msize, alike.choices, alike.time]

theorem refusedAt_alike {d' : VirtioP9Driver} (alike : d.server.Alike d'.server) (n : Nat) :
    d.refusedAt n ↔ d'.refusedAt n := by
  rw [refusedAt, refusedAt, alike.choices, alike.time]

theorem offsetAt_le (d : VirtioP9Driver) (size n : Nat) : d.offsetAt size n ≤ size := by
  induction n with
  | zero => exact Nat.zero_le size
  | succ n ih =>
    rw [offsetAt]
    omega

theorem offsetAt_mono (d : VirtioP9Driver) (size : Nat) : Monotone (d.offsetAt size) :=
  monotone_nat_of_le_succ fun _ => Nat.le_add_right _ _

theorem offsetAt_stuck (room : 24 ≤ d.server.msize) :
    d.offsetAt size (n + 1) = d.offsetAt size n ↔ d.chunkSize = 0 ∨ d.offsetAt size n = size := by
  have le := d.offsetAt_le size n
  have zero : d.chunkSize = 0 ↔ d.chunkSize.toNat = 0 := by
    rw [← UInt32.toNat_inj]
    rfl
  rw [zero, offsetAt]
  omega

theorem offsetAt_of_empty (empty : d.chunkSize = 0) (n : Nat) : d.offsetAt size n = 0 := by
  induction n with
  | zero => rfl
  | succ n ih => simp [offsetAt, ih, empty]

theorem readTo_some {at' : Nat} (ends : d.readTo size rounds n = some at') :
    ∃ m, at' = d.offsetAt size m ∧ (d.refusedAt m ∨ d.offsetAt size (m + 1) = d.offsetAt size m) := by
  induction rounds generalizing n with
  | zero => cases ends
  | succ rounds ih =>
    rw [readTo] at ends
    split_ifs at ends with last
    · exact ⟨n, (Option.some.inj ends).symm, last⟩
    · exact ih ends

/-- Each round that goes on reads a byte at least. -/
theorem readTo_ends (enough : size - d.offsetAt size n < rounds) : d.readTo size rounds n ≠ none := by
  induction rounds generalizing n with
  | zero => cases enough
  | succ rounds ih =>
    rw [readTo]
    split_ifs with going
    · simp
    · have le := d.offsetAt_le size (n + 1)
      have next : d.offsetAt size n ≤ d.offsetAt size (n + 1) := d.offsetAt_mono size (Nat.le_succ n)
      refine ih ?_
      omega

theorem readTo_all (ends : d.readTo size rounds n = some size) {m : Nat} (later : n ≤ m)
    (before : d.offsetAt size m < size) :
    ¬d.refusedAt m := by
  induction rounds generalizing n with
  | zero => cases ends
  | succ rounds ih =>
    rw [readTo] at ends
    split_ifs at ends with going
    · have last := Option.some.inj ends
      have after := d.offsetAt_mono size later
      omega
    · rcases Nat.eq_or_lt_of_le later with rfl | later
      · exact fun refused => going (.inl refused)
      · exact ih ends later

/-- Where the loop stops is the end of the file, if and only if no read before it is refused and the chunks are not
empty. -/
theorem readTo_whole_iff (room : 24 ≤ d.server.msize) :
    (∀ rounds last, d.readTo size rounds 0 = some last → last = size) ↔
      (size ≠ 0 → d.chunkSize ≠ 0 ∧ ∀ n, d.offsetAt size n < size → ¬d.refusedAt n) := by
  constructor
  · intro whole nonempty
    have ends : d.readTo size (size + 1) 0 = some size := by
      cases stop : d.readTo size (size + 1) 0 with
      | none => exact absurd stop (readTo_ends (Nat.lt_succ_of_le (Nat.sub_le _ _)))
      | some last => rw [whole _ last stop]
    constructor
    · intro empty
      obtain ⟨m, last, -⟩ := readTo_some ends
      rw [offsetAt_of_empty empty] at last
      exact nonempty last
    · intro n before
      exact readTo_all ends (Nat.zero_le n) before
  · intro served rounds last stop
    obtain ⟨m, rfl, ends⟩ := readTo_some stop
    by_contra early
    have before : d.offsetAt size m < size := Nat.lt_of_le_of_ne (d.offsetAt_le size m) early
    obtain ⟨chunks, answered⟩ := served (Nat.ne_zero_of_lt before)
    rcases ends with refused | stuck
    · exact answered m before refused
    · exact ((offsetAt_stuck room).mp stuck).elim chunks early

end VirtioP9Driver

/-! ## The loop -/

variable {d d₁ d' : VirtioP9Driver} {path contents : List UInt8} {fid : UInt32} {i : Ino} {n : Nat}

theorem given_length (now : d.server = d₁.server.ticks n) (contents : List UInt8) :
    d₁.offsetAt contents.length (n + 1) = d₁.offsetAt contents.length n +
      (d.given contents (d₁.offsetAt contents.length n) d₁.chunkSize.toNat).length := by
  have choice : d.server.choice = d₁.server.choices (d₁.server.time + n) := by rw [now]; rfl
  have msize : d.server.msize = d₁.server.msize := by rw [now]; rfl
  simp only [offsetAt, given, length_take, length_drop, choice, msize]
  omega

theorem take_append_given (contents : List UInt8) (offset count : Nat) :
    contents.take offset ++ d.given contents offset count =
    contents.take (offset + (d.given contents offset count).length) := by
  have front : d.given contents offset count <+: contents.drop offset :=
    (List.take_prefix _ _).trans (List.take_prefix _ _)
  rw [take_add, ← prefix_iff_eq_take.mp front]

theorem wp_readLoop (opened : d₁.Opened path fid i oRdonly contents) (inFile : contents.length < 2 ^ 64)
    (rounds n : Nat)
    (ready : d.Ready) (now : d.server = d₁.server.ticks n) :
    wp (readLoop fid d₁.chunkSize rounds (UInt64.ofNat (d₁.offsetAt contents.length n))
        (contents.take (d₁.offsetAt contents.length n)))
      (fun result _ => result = (d₁.readTo contents.length rounds n).map fun size => contents.take size)
      (fun _ _ => False) d := by
  induction rounds generalizing n d with
  | zero => rfl
  | succ rounds ih =>
    have le := d₁.offsetAt_le contents.length n
    have exact : (UInt64.ofNat (d₁.offsetAt contents.length n)).toNat = d₁.offsetAt contents.length n :=
      UInt64.toNat_ofNat_of_lt' (Nat.lt_of_le_of_lt le inFile)
    have room : 23 ≤ d.server.msize := by
      rw [now]
      exact Nat.le_of_succ_le opened.room
    have bound : d.server.fids fid = some ⟨i, some oRdonly⟩ := by
      rw [now]
      exact opened.bound
    have file : d.server.tree.contents i = some contents := by
      rw [now]
      exact opened.file
    have reading :=
      wp_read ready bound (by decide) file room (UInt64.ofNat (d₁.offsetAt contents.length n)) d₁.chunkSize
    rw [readLoop, readTo, wp_bind, wp_attempt]
    refine wp_mono reading ?_ ?_
    · rintro chunk d' ⟨ready', may, next, -, rfl⟩
      rw [now] at may
      rw [exact]
      have grown := given_length now contents
      dsimp only
      by_cases none : d.given contents (d₁.offsetAt contents.length n) d₁.chunkSize.toNat = []
      · rw [none] at grown
        rw [if_neg (not_not.mpr none), if_pos (.inr grown)]
        rfl
      · have going : ¬(d₁.refusedAt n ∨ d₁.offsetAt contents.length (n + 1) = d₁.offsetAt contents.length n) := by
          rintro (refused | _)
          · cases refused.symm.trans may
          · have some := length_pos_iff.mpr none
            omega
        rw [if_pos none, if_neg going, ← UInt64.ofNat_add, take_append_given, ← grown]
        exact ih (n + 1) ready' (next.trans (by rw [now]; rfl))
    · rintro e d' ⟨-, refused, -⟩
      rw [now] at refused
      rw [if_pos (.inl refused)]
      rfl

/-! ## The file -/

theorem wp_openForReading (attached : d.Attached) (path : Path) (there : d.fileAt path.bytes = some contents) :
    wp (openForReading path.bytes)
      (fun result d' => match result with
        | some fid => ∃ i, d'.Opened path.bytes fid i oRdonly contents ∧
          d.server.Opens d.rootFid d.nextFid (components path.bytes) i ∧ d'.server.Alike (d.server.ticks 2)
        | none => ∀ i, ¬d.server.Opens d.rootFid d.nextFid (components path.bytes) i) (fun _ _ => False) d := by
  obtain ⟨i, leads, file⟩ := Option.bind_eq_some_iff.mp there
  have fits := path.fits
  rw [openForReading, wp_bind, wp_attempt]
  refine wp_mono (wp_walk attached (by omega)) ?_ ?_
  · rintro fid d₁ ⟨ready, -, j, reaches, now⟩
    cases leads.symm.trans reaches.leads
    have bound : d₁.server.fids fid = some ⟨i, none⟩ := by rw [now, fids_tick, fids_setFid]
    simp only [wp_bind, wp_attempt, wp_pure]
    refine wp_mono (wp_openFid ready bound (by decide)) ?_ ?_
    · rintro - d₂ ⟨ready₂, may, room, opened⟩
      rw [now] at may room opened
      obtain ⟨dir, -⟩ | ⟨_, file₁, now₂⟩ := opened
      · cases (Tree.contents_eq.mp file).symm.trans dir
      · cases file.symm.trans file₁
        have opens : d.server.Opens d.rootFid d.nextFid (components path.bytes) i := ⟨reaches, may, room⟩
        obtain ⟨opened, alike⟩ := opens.opened file (by decide) ready₂ now₂
        exact ⟨i, opened, opens, alike⟩
    · intro e d₂ unopened
      have never : ∀ j, ¬d.server.Opens d.rootFid d.nextFid (components path.bytes) j := by
        intro j opens
        rw [now] at unopened
        cases (unopened opens.opens opens.room).symm.trans file
      exact wp_of_forall (fun _ _ => never) fun _ _ => never
  · intro e d₁ unreached j opens
    exact unreached.2 j opens.toReaches

theorem chunkSize_eq_zero : d.chunkSize = 0 ↔ d.msize = 100 := by
  change (if d.msize - 100 ≤ 4096 then d.msize - 100 else 4096) = 0 ↔ d.msize = 100
  split
  · rw [UInt32.sub_eq_iff_eq_add, UInt32.zero_add]
  · rename_i large
    refine ⟨fun none => absurd none (by decide), fun hundred => absurd ?_ large⟩
    rw [hundred]
    decide

/-- The first bytes of the file, or nothing yet. -/
def ReadResult.ofSize (contents : List UInt8) : Option Nat → ReadResult
  | none => .running
  | some size => .contents (contents.take size)

theorem readFile_opened (opened : d₁.Opened path fid i oRdonly contents) (inFile : contents.length < 2 ^ 64)
    (run : openForReading path d = .ok (some fid) d₁) (rounds : Nat) :
    ∃ d', readFile rounds path d = .ok (.ofSize contents (d₁.readTo contents.length rounds 0)) d' := by
  obtain ⟨_, d₂, looped, rfl⟩ := wp_returns (wp_readLoop opened inFile rounds 0 opened.ready rfl)
  change readLoop fid d₁.chunkSize rounds 0 [] d₁ = _ at looped
  obtain ⟨_, d₃, clunked, -⟩ := wp_returns (Q := fun _ _ => True)
    ((wp_attempt _).mpr (wp_of_forall (fun _ _ => trivial) fun _ _ => trivial))
  rw [readFile, bind_ok _ run]
  dsimp only
  rw [bind_ok _ (show (get : Drive VirtioP9Driver) d₁ = .ok d₁ d₁ from rfl), bind_ok _ looped]
  cases d₁.readTo contents.length rounds 0 with
  | none => exact ⟨d₂, rfl⟩
  | some size => exact ⟨d₃, bind_ok _ clunked⟩

theorem readFile_absent (run : openForReading path d = .ok none d₁) (rounds : Nat) :
    readFile rounds path d = .ok .absent d₁ := bind_ok _ run

section

variable (opened : d₁.Opened path fid i oRdonly contents) (inFile : contents.length < 2 ^ 64)
  (run : openForReading path d = .ok (some fid) d₁)

include opened inFile run

theorem readFile_whole_iff :
    (∀ rounds data d', readFile rounds path d = .ok (.contents data) d' → data = contents) ↔
      ∀ rounds last, d₁.readTo contents.length rounds 0 = some last → last = contents.length := by
  constructor
  · intro whole rounds last stop
    obtain ⟨d', returned⟩ := readFile_opened opened inFile run rounds
    rw [stop] at returned
    have length := congrArg length (whole rounds _ d' returned)
    obtain ⟨m, rfl, -⟩ := readTo_some stop
    have le := d₁.offsetAt_le contents.length m
    rw [length_take] at length
    omega
  · intro ends rounds data d' returned
    obtain ⟨_, result⟩ := readFile_opened opened inFile run rounds
    obtain ⟨result, -⟩ := EStateM.Result.ok.inj (returned.symm.trans result)
    cases stop : d₁.readTo contents.length rounds 0 with
    | none =>
      rw [stop] at result
      cases result
    | some last =>
      rw [stop, ends rounds last stop] at result
      cases result
      exact take_length

theorem readFile_ends {rounds : Nat} (enough : contents.length < rounds) :
    readFile rounds path d ≠ .ok .running d' := by
  intro returned
  obtain ⟨_, result⟩ := readFile_opened opened inFile run rounds
  obtain ⟨result, -⟩ := EStateM.Result.ok.inj (returned.symm.trans result)
  cases stop : d₁.readTo contents.length rounds 0 with
  | none => exact readTo_ends (Nat.lt_of_le_of_lt (Nat.sub_le _ _) enough) stop
  | some last =>
    rw [stop] at result
    cases result

end

/-- A read returns the whole file and ends if and only if no read before the end of the file is refused and the agreed
message size is not 100. -/
theorem read_complete (attached : d.Attached) (path : Path) (there : d.fileAt path.bytes = some contents)
    (inFile : contents.length < 2 ^ 64) :
    ((∀ rounds data d', readFile rounds path.bytes d = .ok (.contents data) d' → data = contents) ∧
      ∀ rounds d', contents.length < rounds → readFile rounds path.bytes d ≠ .ok .running d') ↔
      ∀ i, d.server.Opens d.rootFid d.nextFid (components path.bytes) i → contents ≠ [] →
        d.msize ≠ 100 ∧ ∀ n, (d.after 2).offsetAt contents.length n < contents.length → ¬(d.after 2).refusedAt n := by
  have opening := wp_openForReading attached path there
  cases run : openForReading path.bytes d with
  | error e d₁ => exact (wp_of_error opening run).elim
  | ok handle d₁ =>
    cases handle with
    | none =>
      have never := wp_of_ok opening run
      constructor
      · intro _ i opens
        exact (never i opens).elim
      · intro _
        constructor
        · intro rounds data d' returned
          cases (readFile_absent run rounds).symm.trans returned
        · intro rounds d' _ returned
          cases (readFile_absent run rounds).symm.trans returned
    | some fid =>
      obtain ⟨i, opened, opens, alike⟩ := wp_of_ok opening run
      have alike : d₁.server.Alike (d.after 2).server := alike
      have msize : d₁.msize = (d.after 2).msize := by
        apply UInt32.toNat_inj.mp
        rw [opened.ready.agreed, alike.msize]
        exact attached.agreed.symm
      have chunks : d₁.chunkSize = 0 ↔ d.msize = 100 := by
        rw [chunkSize_eq_zero, msize]
        rfl
      rw [and_iff_left fun rounds d' => readFile_ends opened inFile run, readFile_whole_iff opened inFile run,
        readTo_whole_iff opened.room]
      simp only [offsetAt_alike msize alike, refusedAt_alike alike, Ne, length_eq_zero_iff, chunks]
      exact ⟨fun served _ _ => served, fun served => served i opens⟩

/-- A server that gives one byte at a time and refuses one request. -/
def refusing (request : Nat) : VirtioP9Driver := mounted (oneFile [1, 2, 3]) 8192 fun n => ⟨n = request, 0⟩

/-- The request that is refused comes after the one which reads the last byte. -/
theorem read_complete_late :
    (refusing 5).server.Opens 0 1 (components [47, 97]) 1 ∧
    (∀ rounds data d', readFile rounds [47, 97] (refusing 5) = .ok (.contents data) d' → data = [1, 2, 3]) ∧
      ∀ rounds d', 3 < rounds → readFile rounds [47, 97] (refusing 5) ≠ .ok .running d' := by
  refine ⟨⟨⟨rfl, .inr rfl, by decide, by decide, by decide⟩, rfl, by decide⟩, ?_⟩
  refine (read_complete (attached_mounted (by decide)) ⟨[47, 97], by decide⟩ (by decide) (by decide)).mpr ?_
  intro _ _ _
  refine ⟨by decide, fun n before refused => ?_⟩
  have fifth : 0 + 2 + n = 5 := of_decide_eq_true refused
  obtain rfl : n = 3 := by omega
  exact absurd before (by decide)

/-- The second read of the file fails, and its first byte is returned as the whole. -/
theorem failed_read_ends_file :
    (refusing 3).fileAt [47, 97] = some [1, 2, 3] ∧
    ∃ d', readFile 4 [47, 97] (refusing 3) = .ok (.contents [1]) d' := by
  refine ⟨by decide, ?_⟩
  have sees : returned (fun result _ => result) (readFile 4 [47, 97] (refusing 3)) = some (.contents [1]) := by
    decide +kernel
  obtain ⟨_, d', run, rfl⟩ := returned_eq sees
  exact ⟨d', run⟩

end HavyOs.P9
