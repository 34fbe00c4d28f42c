import HavyOs.Lib.Slice

/-!
# Files as functions of the offset

A file that is written by `seek` and `write_all` is a function from offsets to values.
A write replaces a stretch of it; a window of fixed size taken from the file is patched
when the stretch starts inside it and stays when the two are apart.
-/

namespace HavyOs.Lib


variable {α : Type}

/-- `bytes` with `data` written at offset `off`. -/
@[irreducible] def overwrite (bytes : Nat → α) (off : Nat) (data : List α) (k : Nat) : α :=
  if off ≤ k then (data[k - off]?).getD (bytes k) else bytes k

/-- The `n` values from offset `off` on. -/
@[irreducible] def window (bytes : Nat → α) (off n : Nat) : Vector α n := Vector.ofFn fun i => bytes (off + i.val)

variable {off : Nat} {data : List α} {n : Nat} (bytes : Nat → α)

theorem overwrite_apart {k : Nat} (apart : k < off ∨ off + data.length ≤ k) : overwrite bytes off data k = bytes k := by
  unfold overwrite
  split
  · rw [List.getElem?_eq_none (by omega), Option.getD_none]
  · rfl

theorem overwrite_inside {i : Nat} (inside : i < data.length) : overwrite bytes off data (off + i) = data[i] := by
  unfold overwrite
  rw [if_pos (by omega), Nat.add_sub_cancel_left, List.getElem?_eq_getElem inside, Option.getD_some]

theorem overwrite_append (off : Nat) (data more : List α) :
    overwrite (overwrite bytes off data) (off + data.length) more = overwrite bytes off (data ++ more) := by
  funext k
  unfold overwrite
  by_cases first : off ≤ k
  · rw [if_pos first, if_pos first]
    by_cases second : off + data.length ≤ k
    · rw [if_pos second, List.getElem?_append_right (by omega),
        List.getElem?_eq_none (by omega : data.length ≤ k - off),
        Option.getD_none, Nat.sub_sub]
    · rw [if_neg second, List.getElem?_append_left (by omega)]
  · rw [if_neg first, if_neg first, if_neg (by omega)]

theorem getElem_window (off : Nat) {i : Nat} (hi : i < n) : (window bytes off n)[i] = bytes (off + i) := by
  simp [window]

theorem window_overwrite_apart {off' : Nat}
    (apart : off' + n ≤ off ∨ off + data.length ≤ off') :
    window (overwrite bytes off data) off' n = window bytes off' n := by
  apply Vector.ext
  intro i hi
  rw [getElem_window, getElem_window, overwrite_apart bytes (by omega)]

/-- A write that starts in the window patches it. -/
theorem window_overwrite (off d n : Nat) (data : List α) :
    window (overwrite bytes (off + d) data) off n = patch (window bytes off n) d data := by
  apply Vector.ext
  intro i hi
  rw [getElem_window, getElem_patch, getElem_window, overwrite]
  by_cases inside : d ≤ i
  · rw [if_pos (by omega), if_pos inside, Nat.add_sub_add_left]
  · rw [if_neg (by omega), if_neg inside]

end HavyOs.Lib
