import HavyOs.Lib.Wire

/-!
# Internet checksums

`icmp_checksum` of `lock/state/net.rs` and `recalculate_tcp_checksum` of `net/patching.rs`. Both add
up 16-bit words in 32 bits, fold the carries back in and store the complement.
-/

namespace HavyOs.Net

open Lib List

/-- The loops over the words of some bytes, with `sum` so far; `none` is an overflow. -/
def addWords (sum : Nat) : List UInt8 → Option Nat
  | a :: b :: rest => if sum + fromBe [a, b] < 2 ^ 32 then addWords (sum + fromBe [a, b]) rest else none
  | [a] => if sum + a.toNat * 256 < 2 ^ 32 then some (sum + a.toNat * 256) else none
  | [] => some sum

/-- The loops that fold the sum to 16 bits. -/
def fold (sum : Nat) : Nat := if 0xFFFF < sum then fold (sum % 65536 + sum / 65536) else sum
termination_by sum
decreasing_by omega

/-- `!(sum as u16)` of the folded sum. -/
def complement (sum : Nat) : Nat := 0xFFFF - fold sum

/-- `icmp_checksum`, on a message that is not empty. -/
def icmpChecksum (data : List UInt8) : Option Nat := (addWords 0 data).map complement

/-- The number in the two bytes at `k`. -/
def store (buffer : List UInt8) (k x : Nat) : List UInt8 := buffer.take k ++ (toBe 2 x ++ buffer.drop (k + 2))

/-- `recalculate_tcp_checksum`; `none` is a panic, at an index outside the buffer or an overflow. -/
def recalculateTcpChecksum (buffer : List UInt8) (tcpOffset : Nat) : Option (List UInt8) :=
  if tcpOffset + 18 ≤ buffer.length ∧ 34 ≤ buffer.length then
    let buffer := store buffer (tcpOffset + 16) 0
    let srcIp := fromBe ((buffer.drop 26).take 4)
    let dstIp := fromBe ((buffer.drop 30).take 4)
    let sum := srcIp / 65536 + srcIp % 65536 + dstIp / 65536 + dstIp % 65536 + 6 + (buffer.length - tcpOffset) % 2 ^ 32
    if sum < 2 ^ 32 then
      (addWords sum (buffer.drop tcpOffset)).map fun sum => store buffer (tcpOffset + 16) (complement sum)
    else none
  else none

/-- The plain sum of the 16-bit words, an odd byte at the end being the high one. -/
def sumWords : List UInt8 → Nat
  | a :: b :: rest => fromBe [a, b] + sumWords rest
  | [a] => a.toNat * 256
  | [] => 0

/-! ## The sum that is verified -/

/-- One's complement addition: a carry out of the 16 bits comes back in at the low end. -/
def onesAdd (a b : Nat) : Nat := if a + b < 65536 then a + b else a + b - 65535

/-- The one's complement sum of the 16-bit words. -/
def onesSum : List UInt8 → Nat
  | a :: b :: rest => onesAdd (a.toNat * 256 + b.toNat) (onesSum rest)
  | [a] => a.toNat * 256
  | [] => 0

/-- The pseudo-header of the segment: the addresses, the protocol and the length. -/
def pseudoHeader (buffer : List UInt8) (tcpOffset : Nat) : List UInt8 :=
  (buffer.drop 26).take 4 ++ ((buffer.drop 30).take 4 ++ ([0, 6] ++ toBe 2 (buffer.length - tcpOffset)))

theorem fold_eq (sum : Nat) : fold sum = if sum = 0 then 0 else (sum - 1) % 65535 + 1 := by
  fun_induction fold sum with
  | case1 sum large ih =>
    grind
  | case2 sum small => grind

theorem fold_add_complement (sum : Nat) : fold (sum + complement sum) = 0xFFFF := by
  rw [complement, fold_eq, fold_eq]
  grind

theorem fromBe_pair (a b : UInt8) : fromBe [a, b] = a.toNat * 256 + b.toNat := by
  simp [fromBe]; omega

/-- Folding the plain sum gives the one's complement sum. -/
theorem onesSum_eq (data : List UInt8) : onesSum data = fold (sumWords data) := by
  fun_induction sumWords data with
  | case1 a b rest ih =>
    have := a.toNat_lt
    have := b.toNat_lt
    rw [onesSum, ih, fromBe_pair, fold_eq, fold_eq, onesAdd]
    grind
  | case2 a =>
    have := a.toNat_lt
    rw [onesSum, fold_eq]
    grind
  | case3 => rw [onesSum, fold_eq, if_pos rfl]

theorem sumWords_le (data : List UInt8) : 2 * sumWords data ≤ 65535 * (data.length + 1) := by
  fun_induction sumWords data with
  | case1 a b rest ih =>
    have := a.toNat_lt
    have := b.toNat_lt
    rw [fromBe_pair, length_cons, length_cons]
    omega
  | case2 a =>
    have := a.toNat_lt
    rw [length_singleton]
    omega
  | case3 => exact Nat.zero_le _

theorem addWords_eq {sum : Nat} {data : List UInt8} (small : sum + sumWords data < 2 ^ 32) :
    addWords sum data = some (sum + sumWords data) := by
  fun_induction addWords sum data with
  | case1 => grind [sumWords]
  | case2 => grind [sumWords]
  | case3 => grind [sumWords]
  | case4 => grind [sumWords]
  | case5 => grind [sumWords]

theorem sumWords_append {left : List UInt8} (even : left.length % 2 = 0) (right : List UInt8) :
    sumWords (left ++ right) = sumWords left + sumWords right := by
  fun_induction sumWords left with
  | case1 a b rest ih =>
    rw [length_cons, length_cons] at even
    rw [cons_append, cons_append, sumWords, ih (by omega), Nat.add_assoc]
  | case2 => cases even
  | case3 => simp

theorem sumWords_toBe {x : Nat} (small : x ≤ 0xFFFF) : sumWords (toBe 2 x) = x :=
  fromBe_toBe_of_lt (n := 2) (Nat.lt_succ_of_le small)

section

variable {data buffer : List UInt8} {k x : Nat}

/-- Whatever is added to it, the sum with the checksum in its field is 0xFFFF. -/
theorem fold_store (even : k % 2 = 0) (room : k + 2 ≤ data.length) (head : Nat) :
    fold (head + sumWords (store data k (complement (head + sumWords (store data k 0))))) = 0xFFFF := by
  have front : (data.take k).length % 2 = 0 := by rw [length_take]; omega
  have parts {x : Nat} (small : x ≤ 0xFFFF) :
      sumWords (store data k x) = sumWords (data.take k) + (x + sumWords (data.drop (k + 2))) := by
    rw [store, sumWords_append front, sumWords_append (by simp), sumWords_toBe small]
  have low : complement (head + sumWords (store data k 0)) ≤ 0xFFFF := Nat.sub_le ..
  rw [parts low, show ∀ a b c d : Nat, a + (b + (c + d)) = a + (b + (0 + d)) + c by omega, ← parts (Nat.zero_le _),
    fold_add_complement]

theorem store_store (room : k + 2 ≤ buffer.length) (y : Nat) : store (store buffer k y) k x = store buffer k x := by
  have length : (buffer.take k).length = k := length_take_of_le (by omega)
  rw [store, store, take_left' length, ← drop_drop, drop_left' length, drop_left' (by simp), store]

theorem length_store (room : k + 2 ≤ buffer.length) : (store buffer k x).length = buffer.length := by
  simp [store]
  omega

theorem drop_store {off : Nat} (room : off + k + 2 ≤ buffer.length) :
    (store buffer (off + k) x).drop off = store (buffer.drop off) k x := by
  rw [store, drop_append_of_le_length (by rw [length_take]; omega), drop_take, Nat.add_sub_cancel_left, store,
    drop_drop, Nat.add_assoc]

theorem slice_store {i n : Nat} (before : i + n ≤ k) (room : k + 2 ≤ buffer.length) :
    ((store buffer k x).drop i).take n = (buffer.drop i).take n := by
  rw [take_drop, take_drop, store, take_append_of_le_length (by rw [length_take]; omega), take_take,
    Nat.min_eq_left before]

end

theorem sumWords_address {l : List UInt8} (four : l.length = 4) : sumWords l = fromBe l / 65536 + fromBe l % 65536 := by
  match l, four with
  | [a, b, c, d], _ =>
    have := c.toNat_lt
    have := d.toNat_lt
    simp [sumWords, fromBe]
    omega

section Segment

variable {buffer : List UInt8} {tcpOffset : Nat} (long : 34 ≤ buffer.length)
include long

theorem length_pseudoHeader : (pseudoHeader buffer tcpOffset).length = 12 := by
  simp [pseudoHeader]
  omega

/-- The sum over the pseudo-header, as the code computes it. -/
theorem sumWords_pseudoHeader (small : buffer.length - tcpOffset ≤ 65535) :
    sumWords (pseudoHeader buffer tcpOffset) =
      fromBe ((buffer.drop 26).take 4) / 65536 + fromBe ((buffer.drop 26).take 4) % 65536 +
        fromBe ((buffer.drop 30).take 4) / 65536 + fromBe ((buffer.drop 30).take 4) % 65536 + 6 +
          (buffer.length - tcpOffset) := by
  have four {i : Nat} (inside : i ≤ 30) : ((buffer.drop i).take 4).length = 4 := by simp; omega
  rw [pseudoHeader, sumWords_append (by rw [four (by decide)]), sumWords_append (by rw [four (by decide)]),
    sumWords_append (by decide), sumWords_toBe small, sumWords_address (four (by decide)),
    sumWords_address (four (by decide)),
    show sumWords [0, 6] = 6 from rfl]
  omega

end Segment

/-- **Checksums verify**, and no sum overflows. The TCP header lies behind the addresses. -/
theorem checksums_verify :
    (∀ (data : List UInt8) (k : Nat), data.length ≤ 65535 → k % 2 = 0 → (data.drop k).take 2 = [0, 0] →
      ∃ c, icmpChecksum data = some c ∧ onesSum (store data k c) = 0xFFFF) ∧
    ∀ (buffer : List UInt8) (tcpOffset : Nat), 18 ≤ tcpOffset → tcpOffset + 16 + 2 ≤ buffer.length →
      buffer.length - tcpOffset ≤ 65535 → ∃ c after, recalculateTcpChecksum buffer tcpOffset = some after ∧
        after = store buffer (tcpOffset + 16) c ∧
        onesSum (pseudoHeader after tcpOffset ++ after.drop tcpOffset) = 0xFFFF := by
  refine ⟨fun data k small even zero => ?_, fun buffer tcpOffset behind room small => ?_⟩
  · have length := congrArg List.length zero
    rw [length_take, length_drop, length_cons, length_singleton] at length
    have bound := sumWords_le data
    have cleared : store data k 0 = data := by
      rw [store, show toBe 2 0 = (data.drop k).take 2 from zero.symm, ← drop_drop, take_append_drop, take_append_drop]
    have sum := fold_store even (by omega : k + 2 ≤ data.length) 0
    rw [cleared, Nat.zero_add, Nat.zero_add, ← onesSum_eq] at sum
    exact ⟨_, by rw [icmpChecksum, addWords_eq (by omega), Nat.zero_add, Option.map_some], sum⟩
  · have long : 34 ≤ buffer.length := by omega
    have segment := sumWords_le (store (buffer.drop tcpOffset) 16 0)
    rw [length_store (by rw [length_drop]; omega), length_drop] at segment
    have header := sumWords_le (pseudoHeader buffer tcpOffset)
    rw [length_pseudoHeader long] at header
    -- the checksum field is apart from what the pseudo-header reads
    have apart (x : Nat) :
        pseudoHeader (store buffer (tcpOffset + 16) x) tcpOffset = pseudoHeader buffer tcpOffset := by
      rw [pseudoHeader, slice_store (by omega) room, slice_store (by omega) room, length_store room, pseudoHeader]
    refine ⟨complement (sumWords (pseudoHeader buffer tcpOffset) + sumWords (store (buffer.drop tcpOffset) 16 0)), _,
      ?_, rfl, ?_⟩
    · rw [recalculateTcpChecksum, if_pos ⟨room, long⟩]
      dsimp only
      rw [slice_store (by omega) room, slice_store (by omega) room, length_store room, drop_store room,
        Nat.mod_eq_of_lt (b := 2 ^ 32) (by omega), ← sumWords_pseudoHeader long small, if_pos (by omega),
        addWords_eq (by omega), Option.map_some, store_store room]
    · rw [apart, onesSum_eq, sumWords_append (by rw [length_pseudoHeader long]), drop_store room]
      exact fold_store (by decide) (by rw [length_drop]; omega) _

end HavyOs.Net
