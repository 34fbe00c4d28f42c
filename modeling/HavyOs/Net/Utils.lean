import HavyOs.Http.Request

/-!
# The text form of addresses

`parse_ipv4` and `format_ipv4` of `net/utils.rs`. The parser goes through the octets in one loop;
its language is the texts of four groups of digits between dots.
-/

namespace HavyOs.Http

open HavyOs.Lib List
open HavyOs.Dns (Ipv4Address)

/-- The loop of `parse_ipv4` with an eye on the 16 bits of `current`; the outer `none` is an overflow. -/
def parseIpv4Checked (octets : List Nat) (current : Nat) (hasDigit : Bool) : List UInt8 → Option (Option Ipv4Address)
  | [] => some (parseIpv4From octets current hasDigit [])
  | ch :: rest =>
    if 48 ≤ ch ∧ ch ≤ 57 then
      let next := current * 10 + (ch - 48).toNat
      if 65535 < next then none
      else if 255 < next then some none else parseIpv4Checked octets next true rest
    else if ch = 46 then
      if !hasDigit ∨ 3 ≤ octets.length then some none else parseIpv4Checked (octets ++ [current]) 0 false rest
    else some none

def formatOctet (octet : UInt8) : List UInt8 :=
  (if octet ≥ 100 then [48 + octet / 100] else []) ++ (if octet ≥ 10 then [48 + octet / 10 % 10] else []) ++
    [48 + octet % 10]

/-- `format_ipv4`: the bytes it writes. -/
def formatIpv4 (addr : Ipv4Address) : List UInt8 := [46].intercalate (addr.octets.map formatOctet)

/-- A group of digits. -/
def IsGroup (group : List UInt8) : Prop := group ≠ [] ∧ ∀ c ∈ group, IsDigit c

variable {octets : List Nat} {current : Nat} {hasDigit : Bool} {addr : Ipv4Address} {c : UInt8}

theorem isDigit_iff : IsDigit c ↔ 48 ≤ c ∧ c ≤ 57 := by
  rfl

theorem toNat_digit (digit : IsDigit c) : (c - 48).toNat ≤ 9 ∧ (asciiChar c).toNat = 48 + (c - 48).toNat := by
  have := UInt8.toNat_sub_of_le c 48 (isDigit_iff.mp digit).1
  have := toNat_asciiChar digit.isAscii
  have := digit.1
  have := digit.2
  grind

theorem parseIpv4Checked_eq (small : current ≤ 255) (text : List UInt8) :
    parseIpv4Checked octets current hasDigit text = some (parseIpv4From octets current hasDigit text) := by
  induction text generalizing octets current hasDigit with
  | nil => rfl
  | cons c rest ih =>
    rw [parseIpv4Checked, parseIpv4From]
    split
    · have := toNat_digit (isDigit_iff.mpr ‹_›)
      grind
    · grind

theorem le_ofDigitChars (digits : List Char) (current : Nat) : current ≤ Nat.ofDigitChars 10 digits current := by
  induction digits generalizing current with
  | nil => exact Nat.le_refl _
  | cons c digits ih =>
    exact (show current ≤ 10 * current + (c.toNat - '0'.toNat) by omega).trans (ih _)

theorem parseIpv4From_iff {text group : List UInt8} {more : List (List UInt8)} (small : current ≤ 255)
    (before : ∀ octet ∈ octets, octet ≤ 255) (groups : text.splitOn 46 = group :: more) :
    parseIpv4From octets current hasDigit text = some addr ↔ (hasDigit = false → group ≠ []) ∧
    (∀ c ∈ group, IsDigit c) ∧
      (∀ group ∈ more, IsGroup group) ∧ addr.octets.map UInt8.toNat =
        octets ++ Nat.ofDigitChars 10 (group.map asciiChar) current :: more.map decimalValue := by
  induction text generalizing octets current hasDigit group more with
  | nil =>
    cases groups
    unfold parseIpv4From
    split
    · simp only [forall_mem_cons] at before
      simp only [Ipv4Address.octets]
      constructor
      · rintro ⟨⟩
        simp
        omega
      · rintro ⟨-, -, -, same⟩
        obtain ⟨rfl, rfl, rfl, rfl, -⟩ := same
        simp
    · rename_i other
      refine iff_of_false nofun fun ⟨digit, _, _, same⟩ => ?_
      have first : octets ++ [current] = [_, _, _] ++ [_] := same.symm
      exact other _ _ _ (append_inj_left' first rfl) (by simpa using digit)
  | cons c rest ih =>
    obtain ⟨next, later, parts⟩ := exists_cons_of_ne_nil (splitOnP_ne_nil (· == 46) rest)
    rw [splitOn, splitOnP_cons_eq_if_modifyHead, parts] at groups
    rw [parseIpv4From]
    by_cases digit : IsDigit c
    · have ⟨low, value⟩ := toNat_digit digit
      have other : c ≠ 46 := by rintro rfl; revert digit; decide
      rw [if_neg (by simpa using other)] at groups
      cases groups
      rw [if_pos (isDigit_iff.mp digit)]
      have read : Nat.ofDigitChars 10 ((c :: next).map asciiChar) current =
          Nat.ofDigitChars 10 (next.map asciiChar) (current * 10 + (c - 48).toNat) := by
        rw [map_cons, Nat.ofDigitChars_cons]
        congr 1
        simp
        omega
      rw [read]
      dsimp only
      split
      · refine iff_of_false nofun fun ⟨_, _, _, same⟩ => ?_
        have larger := le_ofDigitChars (next.map asciiChar) (current * 10 + (c - 48).toNat)
        have octet :
            Nat.ofDigitChars 10 (next.map asciiChar) (current * 10 + (c - 48).toNat) ∈ addr.octets.map UInt8.toNat := by
          simp [same]
        obtain ⟨octet, -, same⟩ := mem_map.mp octet
        have := octet.toNat_lt
        omega
      · rw [ih (by omega) before parts]
        simp [digit]
    · rw [if_neg (isDigit_iff.not.mp digit)]
      by_cases dot : c = 46
      · rw [if_pos (by simpa using dot)] at groups
        cases groups
        rw [if_pos dot]
        split
        · refine iff_of_false nofun fun ⟨digit, _, _, same⟩ => ?_
          have size := congrArg length same
          simp [Ipv4Address.octets] at size
          grind
        · rw [ih (Nat.zero_le _) (by grind) parts]
          simp_all [IsGroup, decimalValue, and_assoc]
      · rw [if_neg (by simpa using dot)] at groups
        cases groups
        rw [if_neg dot]
        exact iff_of_false nofun fun ⟨_, digits, _⟩ => digit (digits c mem_cons_self)

theorem digit_byte {d : UInt8} (small : d.toNat < 10) :
    IsDigit (48 + d) ∧ (asciiChar (48 + d)).toNat - 48 = d.toNat := by
  have value : (48 + d).toNat = 48 + d.toNat := by
    rw [UInt8.toNat_add]
    exact Nat.mod_eq_of_lt (by simp; omega)
  have digit : IsDigit (48 + d) := ⟨by omega, by omega⟩
  rw [toNat_asciiChar digit.isAscii, value]
  exact ⟨digit, Nat.add_sub_cancel_left ..⟩

theorem formatOctet_group (octet : UInt8) :
    IsGroup (formatOctet octet) ∧ decimalValue (formatOctet octet) = octet.toNat := by
  have range := octet.toNat_lt
  obtain ⟨ones, last⟩ := digit_byte (d := octet % 10) (by simp; omega)
  obtain ⟨tens, middle⟩ := digit_byte (d := octet / 10 % 10) (by simp; omega)
  obtain ⟨hundreds, first⟩ := digit_byte (d := octet / 100) (by simp; omega)
  simp only [UInt8.toNat_mod, UInt8.toNat_div, UInt8.reduceToNat] at last middle first
  have large := UInt8.le_iff_toNat_le (a := 100) (b := octet)
  have middling := UInt8.le_iff_toNat_le (a := 10) (b := octet)
  rw [formatOctet, decimalValue]
  split_ifs <;> simp_all [IsGroup, Nat.ofDigitChars_cons] <;> omega

theorem parseIpv4_eq_some (text : List UInt8) (addr : Ipv4Address) : parseIpv4 text = some addr ↔
    (∀ group ∈ text.splitOn 46, IsGroup group) ∧ addr.octets.map UInt8.toNat = (text.splitOn 46).map decimalValue := by
  obtain ⟨group, more, parts⟩ := exists_cons_of_ne_nil (splitOnP_ne_nil (· == 46) text)
  rw [parseIpv4, parseIpv4From_iff (Nat.zero_le _) (by simp) parts, splitOn, parts]
  simp [IsGroup, decimalValue, and_assoc]

theorem parseIpv4_formatIpv4 (addr : Ipv4Address) : parseIpv4 (formatIpv4 addr) = some addr := by
  have parts : (formatIpv4 addr).splitOn 46 = addr.octets.map formatOctet := by
    refine splitOn_intercalate _ (forall_mem_map.mpr fun octet _ dot => ?_) (cons_ne_nil _ _)
    exact absurd ((formatOctet_group octet).1.2 _ dot) (by decide)
  rw [parseIpv4_eq_some, parts, forall_mem_map]
  exact ⟨fun octet _ => (formatOctet_group octet).1, map_congr_left fun octet _ => (formatOctet_group octet).2.symm⟩

/-- **The text form of addresses.** No number overflows; what is accepted are four groups of digits between dots, with
values that fit, and these are the octets; a formatted address is parsed to itself. -/
theorem parse_format_ipv4 :
    (∀ text, parseIpv4Checked [] 0 false text = some (parseIpv4 text)) ∧
    (∀ text addr, parseIpv4 text = some addr ↔
      (∀ group ∈ text.splitOn 46, IsGroup group) ∧ addr.octets.map UInt8.toNat = (text.splitOn 46).map decimalValue) ∧
    ∀ addr, parseIpv4 (formatIpv4 addr) = some addr :=
  ⟨parseIpv4Checked_eq (Nat.zero_le _), parseIpv4_eq_some, parseIpv4_formatIpv4⟩

end HavyOs.Http
