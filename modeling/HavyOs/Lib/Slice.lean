import Mathlib.Data.List.Basic

/-!
# Slices of fixed-size arrays

`buf[off..off + len]` and `buf[off..].copy_from_slice(bytes)` on an array of
fixed size. A read after a copy is either inside the copied window, where it
returns the copied values, or apart from it, where it returns what was there
before; every layout fact of the development comes down to one of the two.
`patch` is irreducible, since a definitional comparison of two arrays would
otherwise unfold every element. The little-endian word codec lives here as well,
since a word in a buffer is a four-element slice.
-/

namespace HavyOs.Lib

open Option

section Slice

variable {α : Type} {n : Nat}

/-- `b[off..off + len]`, cut at the end of the array. -/
def slice (b : Vector α n) (off len : Nat) : List α :=
  (b.toList.drop off).take len

/-- `b[off..off + bs.len()].copy_from_slice(bs)`. -/
@[irreducible] def patch (b : Vector α n) (off : Nat) (bs : List α) : Vector α n :=
  Vector.ofFn fun i => if off ≤ i.val then (bs[i.val - off]?).getD b[i.val] else b[i.val]

section

variable (b : Vector α n)

include b

theorem getElem_patch (off : Nat) (bs : List α) (i : Nat) (hi : i < n) :
    (patch b off bs)[i] = if off ≤ i then (bs[i - off]?).getD b[i] else b[i] := by
  simp [patch]

variable {off len : Nat} {bs : List α}

theorem slice_length (fits : off + len ≤ n) : (slice b off len).length = len := by
  simp only [slice, List.length_take, List.length_drop, Vector.length_toList]
  omega

theorem slice_length_le (off len : Nat) : (slice b off len).length ≤ len := by
  simp only [slice, List.length_take]
  omega

theorem slice_getElem? {i : Nat} (hi : i < len) : (slice b off len)[i]? = b[off + i]? := by
  rw [slice, List.getElem?_take, if_pos hi, List.getElem?_drop, Vector.getElem?_toList]

omit b in
theorem slice_congr {a b : Vector α n} (fits : off + len ≤ n)
    (agree : ∀ i (hi : i < n), off ≤ i → i < off + len → a[i] = b[i]) : slice a off len = slice b off len := by
  apply List.ext_getElem?
  intro i
  by_cases hi : i < len
  · rw [slice_getElem? a hi, slice_getElem? b hi, Vector.getElem?_eq_getElem (by omega),
      Vector.getElem?_eq_getElem (by omega), agree (off + i) (by omega) (by omega) (by omega)]
  · rw [List.getElem?_eq_none (by have := slice_length_le a off len; omega),
      List.getElem?_eq_none (by have := slice_length_le b off len; omega)]

theorem slice_patch_inside {off k len : Nat} {bs : List α} (inside : k + len ≤ bs.length)
    (fits : off + bs.length ≤ n) : slice (patch b off bs) (off + k) len = (bs.drop k).take len := by
  apply List.ext_getElem?
  intro i
  by_cases hi : i < len
  · rw [slice_getElem? _ hi, List.getElem?_take, if_pos hi, List.getElem?_drop,
      Vector.getElem?_eq_getElem (by omega), getElem_patch, if_pos (by omega),
      show off + k + i - off = k + i by omega, List.getElem?_eq_getElem (by omega : k + i < bs.length),
      getD_some]
  · rw [List.getElem?_eq_none (by have := slice_length_le (patch b off bs) (off + k) len; omega),
      List.getElem?_eq_none (by simp only [List.length_take]; omega)]

theorem slice_patch_self (fits : off + bs.length ≤ n) : slice (patch b off bs) off bs.length = bs := by
  have whole : 0 + bs.length ≤ bs.length := by omega
  simpa using slice_patch_inside b whole fits

theorem slice_patch_apart {off' : Nat} (fits : off' + len ≤ n)
    (apart : off' + len ≤ off ∨ off + bs.length ≤ off') : slice (patch b off bs) off' len = slice b off' len := by
  apply slice_congr fits
  intro i hi lower upper
  rw [getElem_patch]
  split
  · rw [List.getElem?_eq_none (by omega), getD_none]
  · rfl

theorem getElem_patch_apart {i : Nat} (hi : i < n)
    (apart : i < off ∨ off + bs.length ≤ i) : (patch b off bs)[i] = b[i] := by
  rw [getElem_patch]
  split
  · rw [List.getElem?_eq_none (by omega), getD_none]
  · rfl

theorem getElem_patch_inside {k : Nat} (hk : k < bs.length) (hi : off + k < n) : (patch b off bs)[off + k] = bs[k] := by
  rw [getElem_patch, if_pos (by omega), show off + k - off = k by omega, List.getElem?_eq_getElem hk,
    getD_some]

end

theorem patch_replicate_toList (x : α) (fits : bs.length ≤ n) :
    (patch (Vector.replicate n x) 0 bs).toList = bs ++ List.replicate (n - bs.length) x := by
  apply List.ext_getElem
  · simp only [Vector.length_toList, List.length_append, List.length_replicate]
    omega
  · intro k hk _
    rw [Vector.getElem_toList, getElem_patch, if_pos (Nat.zero_le k), List.getElem_append, Nat.sub_zero]
    split_ifs with inside
    · rw [List.getElem?_eq_getElem inside, getD_some]
    · rw [List.getElem?_eq_none (by omega), getD_none, Vector.getElem_replicate, List.getElem_replicate]

end Slice

/-! ## Little-endian words -/

variable (x : UInt32)

def toLeBytes : List UInt8 :=
  [UInt8.ofNat x.toNat, UInt8.ofNat (x.toNat / 256), UInt8.ofNat (x.toNat / 65536), UInt8.ofNat (x.toNat / 16777216)]

/-- `u32::from_le_bytes`; the callers hand it four bytes. -/
def fromLeBytes (bs : List UInt8) : UInt32 :=
  UInt32.ofNat (bs.foldr (fun b acc => b.toNat + 256 * acc) 0)

@[simp] theorem toLeBytes_length : (toLeBytes x).length = 4 := rfl

@[simp] theorem fromLeBytes_toLeBytes : fromLeBytes (toLeBytes x) = x := by
  apply UInt32.toNat_inj.mp
  have bound := x.toNat_lt
  simp only [fromLeBytes, toLeBytes, List.foldr_cons, UInt8.toNat_ofNat', UInt32.toNat_ofNat']
  omega

end HavyOs.Lib
