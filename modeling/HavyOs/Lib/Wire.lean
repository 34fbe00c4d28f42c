import Mathlib.Algebra.Group.Nat.Defs
import Mathlib.Data.List.Induction

/-!
# Numbers on the wire

`to_be_bytes` and `to_le_bytes` for a number of any width. A field of `n` bytes holds a
number modulo `256 ^ n`; it is read back as it was written when it fits, and two fields of
the same width are equal only if the numbers are.
-/

namespace HavyOs.Lib

open List

/-- The `n` lowest bytes of `x`, the highest first. -/
def toBe : Nat → Nat → List UInt8
  | 0, _ => []
  | n + 1, x => toBe n (x / 256) ++ [UInt8.ofNat x]

/-- The number that big-endian bytes stand for. -/
def fromBe (bytes : List UInt8) : Nat := bytes.foldl (fun acc b => 256 * acc + b.toNat) 0

/-- The `n` lowest bytes of `x`, the lowest first. -/
def toLe : Nat → Nat → List UInt8
  | 0, _ => []
  | n + 1, x => UInt8.ofNat x :: toLe n (x / 256)

/-- The number that little-endian bytes stand for. -/
def fromLe (bytes : List UInt8) : Nat := bytes.foldr (fun b acc => b.toNat + 256 * acc) 0

variable (n x : Nat) (bytes : List UInt8)

@[simp] theorem toBe_length : (toBe n x).length = n := by
  induction n generalizing x with
  | zero => rfl
  | succ n ih => simp [toBe, ih]

@[simp] theorem toLe_length : (toLe n x).length = n := by
  induction n generalizing x with
  | zero => rfl
  | succ n ih => simp [toLe, ih]

theorem mod_succ_pow : x % 256 ^ (n + 1) = x % 256 + 256 * (x / 256 % 256 ^ n) := by
  rw [Nat.pow_succ', Nat.mod_mul]

theorem fromBe_toBe : fromBe (toBe n x) = x % 256 ^ n := by
  induction n generalizing x with
  | zero => simp [toBe, fromBe, Nat.mod_one]
  | succ n ih =>
    have high := ih (x / 256)
    simp only [fromBe] at high
    simp only [toBe, fromBe, foldl_append, foldl_cons, foldl_nil, UInt8.toNat_ofNat']
    rw [mod_succ_pow]
    omega

theorem fromLe_toLe : fromLe (toLe n x) = x % 256 ^ n := by
  induction n generalizing x with
  | zero => simp [toLe, fromLe, Nat.mod_one]
  | succ n ih =>
    have high := ih (x / 256)
    simp only [fromLe] at high
    simp only [toLe, fromLe, foldr_cons, high, UInt8.toNat_ofNat']
    rw [mod_succ_pow]

theorem fromBe_toBe_of_lt {n x : Nat} (fits : x < 256 ^ n) : fromBe (toBe n x) = x := by
  rw [fromBe_toBe, Nat.mod_eq_of_lt fits]

theorem fromBe_append (b : UInt8) : fromBe (bytes ++ [b]) = 256 * fromBe bytes + b.toNat := by
  simp [fromBe]

theorem toBe_fromBe : toBe bytes.length (fromBe bytes) = bytes := by
  induction bytes using reverseRecOn with
  | nil => rfl
  | append_singleton bytes b ih =>
    have bound := b.toNat_lt
    have high : (256 * fromBe bytes + b.toNat) / 256 = fromBe bytes := by omega
    have low : UInt8.ofNat (256 * fromBe bytes + b.toNat) = b := by
      apply UInt8.toNat_inj.mp
      rw [UInt8.toNat_ofNat']
      omega
    rw [length_append, length_singleton, fromBe_append, toBe, high, low, ih]

theorem toBe_inj {n x y : Nat} (hx : x < 256 ^ n) (hy : y < 256 ^ n) (same : toBe n x = toBe n y) : x = y := by
  rw [← fromBe_toBe_of_lt hx, ← fromBe_toBe_of_lt hy, same]

/-! ## Reading fields -/

/-- What reads fields from the front of some bytes, or fails. -/
abbrev Reader := StateT (List UInt8) Option

def readBytes (n : Nat) : Reader (List UInt8) := fun bytes =>
  if n ≤ bytes.length then some (bytes.take n, bytes.drop n) else none

/-- The next `n` bytes as a little-endian number. -/
def readLe (n : Nat) : Reader Nat := do
  let bytes ← readBytes n
  pure (fromLe bytes)

/-- `n` times the same. -/
def readMany {α : Type} (reader : Reader α) : Nat → Reader (List α)
  | 0 => pure []
  | n + 1 => do
    let first ← reader
    let rest ← readMany reader n
    pure (first :: rest)

section Reading

variable {α β : Type} {rest : List UInt8}

/-- A reader that succeeds goes on with what it leaves. -/
theorem reader_bind {reader : Reader α} {next : α → Reader β} {bytes : List UInt8} {a : α}
    (read : reader bytes = some (a, rest)) : (reader >>= next) bytes = next a rest := by
  simp [bind, StateT.bind, read]

theorem readBytes_append (bytes rest : List UInt8) : readBytes bytes.length (bytes ++ rest) = some (bytes, rest) := by
  rw [readBytes, if_pos (by rw [length_append]; omega), take_left, drop_left]

theorem readLe_append (n x : Nat) (rest : List UInt8) : readLe n (toLe n x ++ rest) = some (x % 256 ^ n, rest) := by
  have field := readBytes_append (toLe n x) rest
  rw [toLe_length] at field
  rw [readLe, reader_bind field, fromLe_toLe]
  rfl

theorem readLe_of_lt {n x : Nat} (small : x < 256 ^ n) (rest : List UInt8) :
    readLe n (toLe n x ++ rest) = some (x, rest) := by
  rw [readLe_append, Nat.mod_eq_of_lt small]

theorem readMany_append {reader : Reader α} {write : α → List UInt8} {items : List α}
    (one : ∀ item ∈ items, ∀ rest, reader (write item ++ rest) = some (item, rest)) (rest : List UInt8) :
    readMany reader items.length ((items.map write).flatten ++ rest) = some (items, rest) := by
  induction items with
  | nil => rfl
  | cons item items ih =>
    rw [forall_mem_cons] at one
    rw [length_cons, map_cons, flatten_cons, append_assoc, readMany, reader_bind (one.1 _),
      reader_bind (ih one.2)]
    rfl

end Reading

end HavyOs.Lib
