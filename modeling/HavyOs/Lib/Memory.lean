import Mathlib.Algebra.Group.Nat.Defs
import Mathlib.Data.List.TakeWhile

/-!
# Memory read through raw pointers

A memory is a function from 64-bit addresses to bytes, and addresses are added modulo `2 ^ 64`, so
every read has a value, wherever it goes. `bytesAt` are the bytes of a range; `textLength` is the
length of a text that ends at a zero byte or at a limit.
-/

namespace HavyOs.Lib

open List
open UInt64 (ofNat)

variable {mem mem' : UInt64 → UInt8} {addr : UInt64}

def bytesAt (mem : UInt64 → UInt8) (addr : UInt64) (n : Nat) : List UInt8 :=
  (range n).map fun i => mem (addr + ofNat i)

@[simp] theorem length_bytesAt (mem : UInt64 → UInt8) (addr : UInt64) (n : Nat) : (bytesAt mem addr n).length = n := by
  simp [bytesAt]

theorem add_ofNat_add (addr : UInt64) (m n : Nat) : addr + ofNat (m + n) = addr + ofNat m + ofNat n := by
  rw [UInt64.ofNat_add, UInt64.add_assoc]

theorem bytesAt_add (mem : UInt64 → UInt8) (addr : UInt64) (m n : Nat) :
    bytesAt mem addr (m + n) = bytesAt mem addr m ++ bytesAt mem (addr + ofNat m) n := by
  simp only [bytesAt, range_add, map_append, map_map]
  congr 1
  apply map_congr_left
  intro i _
  simp only [Function.comp_apply, add_ofNat_add]

variable {n i : Nat} {bytes rest : List UInt8}

theorem getElem?_bytesAt (inside : i < n) : (bytesAt mem addr n)[i]? = some (mem (addr + ofNat i)) := by
  simp [bytesAt, getElem?_range inside]

section

variable (holds : bytesAt mem addr bytes.length = bytes)
include holds

theorem byte_of_bytesAt {b : UInt8}
    (here : bytes[i]? = some b) : mem (addr + ofNat i) = b := by
  have inside : i < bytes.length := (List.getElem?_eq_some_iff.mp here).1
  rw [← holds, getElem?_bytesAt inside] at here
  exact Option.some.inj here

theorem bytesAt_window {k : Nat} (inside : i + k ≤ bytes.length) :
    bytesAt mem (addr + ofNat i) k = (bytes.drop i).take k := by
  obtain ⟨_, whole⟩ := Nat.exists_eq_add_of_le inside
  rw [whole, Nat.add_assoc, bytesAt_add, bytesAt_add] at holds
  rw [← holds, drop_left' (by simp), take_left' (by simp)]

theorem bytesAt_of_isPrefix {text : List UInt8} (starts : text <+: bytes) : bytesAt mem addr text.length = text := by
  obtain ⟨_, rfl⟩ := starts
  rw [length_append, bytesAt_add] at holds
  exact (append_inj holds (by simp)).1

end

theorem bytesAt_congr (agree : ∀ i, i < n → mem (addr + ofNat i) = mem' (addr + ofNat i)) :
    bytesAt mem addr n = bytesAt mem' addr n := by
  apply map_congr_left
  intro i member
  exact agree i (mem_range.mp member)

/-! ## Contents -/

/-- These bytes lie at `addr`. -/
def HasBytes (mem : UInt64 → UInt8) (addr : UInt64) (bytes : List UInt8) : Prop := bytesAt mem addr bytes.length = bytes

theorem hasBytes_append :
    HasBytes mem addr (bytes ++ rest) ↔ HasBytes mem addr bytes ∧ HasBytes mem (addr + ofNat bytes.length) rest := by
  simp only [HasBytes, length_append, bytesAt_add]
  constructor
  · intro holds
    exact append_inj holds (by simp)
  · rintro ⟨first, second⟩
    rw [first, second]

theorem HasBytes.left (holds : HasBytes mem addr (bytes ++ rest)) : HasBytes mem addr bytes :=
  (hasBytes_append.mp holds).1

theorem HasBytes.right (holds : HasBytes mem addr (bytes ++ rest)) (length : bytes.length = n) :
    HasBytes mem (addr + ofNat n) rest := by
  rw [← length]
  exact (hasBytes_append.mp holds).2

/-- A memory that is zero but for these bytes at `addr`. -/
def load (addr : UInt64) (bytes : List UInt8) : UInt64 → UInt8 := fun a => bytes.getD (a - addr).toNat 0

theorem hasBytes_load (addr : UInt64) (fits : bytes.length ≤ 2 ^ 64) : HasBytes (load addr bytes) addr bytes := by
  apply ext_getElem?
  intro i
  by_cases inside : i < bytes.length
  · have offset : (addr + ofNat i - addr).toNat = i := by
      rw [UInt64.add_comm, UInt64.add_sub_cancel]
      exact Nat.mod_eq_of_lt (by omega)
    rw [getElem?_bytesAt inside, load, offset, getD_eq_getElem?_getD, getElem?_eq_getElem inside, Option.getD_some]
  · rw [getElem?_eq_none (by simpa using inside), getElem?_eq_none (by simpa using inside)]

/-! ## Texts -/

/-- The search for a zero byte from the byte `len` on, `left` more bytes being looked at. -/
def zeroFrom (mem : UInt64 → UInt8) (addr : UInt64) : Nat → Nat → Nat
  | 0, len => len
  | left + 1, len => if mem (addr + ofNat len) = 0 then len else zeroFrom mem addr left (len + 1)

/-- The length of the text at `addr`: up to a zero byte, `limit` bytes at most. -/
def textLength (mem : UInt64 → UInt8) (addr : UInt64) (limit : Nat) : Nat := zeroFrom mem addr limit 0

theorem zeroFrom_eq {stop : Nat} : ∀ (left : Nat) {len : Nat}, len ≤ stop →
    (∀ i, len ≤ i → i < stop → mem (addr + ofNat i) ≠ 0) →
    (stop = len + left ∨ stop < len + left ∧ mem (addr + ofNat stop) = 0) → zeroFrom mem addr left len = stop := by
  intro left
  induction left with
  | zero =>
    intro len le _ ends
    rw [zeroFrom]
    omega
  | succ left ih =>
    intro len le text ends
    by_cases here : len = stop
    · subst here
      rcases ends with limit | ⟨_, zero⟩
      · omega
      · rw [zeroFrom, if_pos zero]
    · rw [zeroFrom, if_neg (text len (Nat.le_refl _) (by omega))]
      refine ih (by omega) (fun i low high => text i (by omega) high) ?_
      rcases ends with limit | ⟨_, zero⟩
      · exact Or.inl (by omega)
      · exact Or.inr ⟨by omega, zero⟩

theorem zeroFrom_spec : ∀ (left len : Nat), len ≤ zeroFrom mem addr left len ∧
    (∀ i, len ≤ i → i < zeroFrom mem addr left len → mem (addr + ofNat i) ≠ 0) ∧
    (zeroFrom mem addr left len = len + left ∨
      zeroFrom mem addr left len < len + left ∧ mem (addr + ofNat (zeroFrom mem addr left len)) = 0) := by
  intro left
  induction left with
  | zero => exact fun len => ⟨Nat.le_refl _, fun i low high => absurd high (by rw [zeroFrom]; omega), Or.inl rfl⟩
  | succ left ih =>
    intro len
    rw [zeroFrom]
    split_ifs with zero
    · exact ⟨Nat.le_refl _, fun i low high => absurd high (by omega), Or.inr ⟨by omega, zero⟩⟩
    · obtain ⟨le, text, ends⟩ := ih (len + 1)
      refine ⟨by omega, fun i low high => ?_, ?_⟩
      · by_cases first : i = len
        · rw [first]
          exact zero
        · exact text i (by omega) high
      · rcases ends with _ | ⟨_, zero⟩
        · exact Or.inl (by omega)
        · exact Or.inr ⟨by omega, zero⟩

theorem textLength_le (mem : UInt64 → UInt8) (addr : UInt64) (limit : Nat) : textLength mem addr limit ≤ limit := by
  obtain ⟨-, -, _⟩ := @zeroFrom_spec mem addr limit 0
  unfold textLength
  omega

theorem textLength_le_of_zero {k : Nat} (zero : mem (addr + ofNat k) = 0) (limit : Nat) :
    textLength mem addr limit ≤ k := by
  obtain ⟨-, text, -⟩ := @zeroFrom_spec mem addr limit 0
  by_contra more
  exact text k (Nat.zero_le _) (not_le.mp more) zero

theorem textLength_eq {text : List UInt8} {limit : Nat} (holds : bytesAt mem addr text.length = text)
    (nonzero : 0 ∉ text)
    (ends : text.length = limit ∨ text.length < limit ∧ mem (addr + ofNat text.length) = 0) :
    textLength mem addr limit = text.length := by
  refine zeroFrom_eq limit (Nat.zero_le _) (fun i _ inside zero => ?_) (by rw [Nat.zero_add]; exact ends)
  have here := getElem?_eq_getElem inside
  rw [byte_of_bytesAt holds here] at zero
  exact nonzero (zero ▸ getElem_mem inside)

theorem textLength_congr {limit : Nat}
    (agree : ∀ i, i ≤ textLength mem addr limit → i < limit → mem' (addr + ofNat i) = mem (addr + ofNat i)) :
    textLength mem' addr limit = textLength mem addr limit := by
  obtain ⟨-, text, ends⟩ := @zeroFrom_spec mem addr limit 0
  rw [Nat.zero_add] at ends
  have bound := textLength_le mem addr limit
  refine zeroFrom_eq limit (Nat.zero_le _) (fun i low high => ?_) ?_
  · rw [agree i (Nat.le_of_lt high) (by omega)]
    exact text i low high
  · rw [Nat.zero_add]
    rcases ends with whole | ⟨early, zero⟩
    · exact Or.inl whole
    · exact Or.inr ⟨early, by rw [agree _ (Nat.le_refl _) early]; exact zero⟩

end HavyOs.Lib
