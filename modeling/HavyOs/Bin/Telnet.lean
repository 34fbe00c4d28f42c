import Mathlib.Data.List.Flatten

/-!
# The telnet client

What `telnet.rs` prints of what it receives. The filter starts afresh with every received piece,
so that a command sequence which lies across two pieces is printed.
-/

namespace HavyOs.Bin.Telnet

open List

/-- The byte is printed: control characters are not, but for line feeds and tabs. -/
def Printed (c : UInt8) : Prop := ¬ (c < 0x20 ∧ c ≠ 13 ∧ c ≠ 10 ∧ c ≠ 9) ∧ c ≠ 13

instance : DecidablePred Printed := fun _ => inferInstanceAs (Decidable (_ ∧ _))

theorem drop_shorter (c : UInt8) (rest : List UInt8) (n : Nat) : (rest.drop n).length < (c :: rest).length :=
  Nat.lt_succ_of_le (drop_sublist n rest).length_le

/-- `print_telnet_data`: the bytes it prints. An IAC (0xFF) without two bytes behind it is an ordinary byte. -/
def printTelnetData : List UInt8 → List UInt8
  | [] => []
  | c :: rest =>
    if c = 0xFF ∧ 2 ≤ rest.length then printTelnetData (rest.drop 2)
    else if Printed c then c :: printTelnetData rest
    else printTelnetData rest
termination_by data => data.length
decreasing_by
  · exact drop_shorter c rest 2
  · exact drop_shorter c rest 0
  · exact drop_shorter c rest 0

/-- The receive loop prints every piece by itself. -/
def received (pieces : List (List UInt8)) : List UInt8 := pieces.flatMap printTelnetData

/-- The stream without the sequences of an IAC and two more bytes. -/
def dropCommands : List UInt8 → List UInt8
  | [] => []
  | c :: rest => if c = 0xFF ∧ 2 ≤ rest.length then dropCommands (rest.drop 2) else c :: dropCommands rest
termination_by stream => stream.length
decreasing_by
  · exact drop_shorter c rest 2
  · exact drop_shorter c rest 0

/-- What the filter is to leave: tabs, line feeds and what is no control character below the space. -/
def Shown (c : UInt8) : Prop := c = 9 ∨ c = 10 ∨ 32 ≤ c

instance : DecidablePred Shown := fun _ => inferInstanceAs (Decidable (_ ∨ _))

def filtered (stream : List UInt8) : List UInt8 := (dropCommands stream).filter (Shown ·)

/-- The pieces make up the stream; the receive buffer has 4096 bytes. -/
structure Splits (pieces : List (List UInt8)) (stream : List UInt8) : Prop where
  whole : pieces.flatten = stream
  sizes : ∀ piece ∈ pieces, 0 < piece.length ∧ piece.length ≤ 4096

/-- No IAC of the stream has two bytes behind it. -/
def Plain (stream : List UInt8) : Prop := ∀ i : Nat, stream[i]? = some 0xFF → stream.length ≤ i + 2

theorem printed_iff (c : UInt8) : Printed c ↔ Shown c := by
  rw [Printed, Shown]
  grind

theorem printTelnetData_eq (data : List UInt8) : printTelnetData data = filtered data := by
  fun_induction printTelnetData data with
  | case1 => rw [filtered, dropCommands, filter_nil]
  | case2 c rest command ih => rw [ih, filtered, filtered, dropCommands, if_pos command]
  | case3 c rest plain shown ih =>
    rw [ih, filtered, filtered, dropCommands, if_neg plain, filter_cons_of_pos (by simpa [← printed_iff])]
  | case4 c rest plain hidden ih =>
    rw [ih, filtered, filtered, dropCommands, if_neg plain, filter_cons_of_neg (by simpa [← printed_iff])]

theorem plain_cons {c : UInt8} {rest : List UInt8} : Plain (c :: rest) ↔ (c = 0xFF → rest.length ≤ 1) ∧ Plain rest := by
  refine ⟨fun plain => ⟨fun same => ?_, fun i found => ?_⟩, fun ⟨first, plain⟩ i found => ?_⟩
  · have := plain 0 (congrArg some same)
    simpa using this
  · have := plain (i + 1) found
    simpa using this
  · cases i with
    | zero => simpa using first (Option.some.inj found)
    | succ i => simpa using plain i found

theorem Plain.append {left right : List UInt8} (plain : Plain (left ++ right)) : Plain left ∧ Plain right := by
  refine ⟨fun i found => ?_, fun i found => ?_⟩
  · have := plain i (by grind)
    grind
  · have := plain (left.length + i) (by grind)
    grind

theorem dropCommands_plain {stream : List UInt8} (plain : Plain stream) : dropCommands stream = stream := by
  fun_induction dropCommands stream with
  | case1 => rfl
  | case2 c rest command ih =>
    have short := (plain_cons.mp plain).1 command.1
    omega
  | case3 c rest _ ih => rw [ih (plain_cons.mp plain).2]

theorem count_dropCommands (stream : List UInt8) : (dropCommands stream).count 0xFF ≤ stream.count 0xFF ∧
    ((dropCommands stream).count 0xFF = stream.count 0xFF → Plain stream) := by
  fun_induction dropCommands stream with
  | case1 => exact ⟨Nat.le_refl _, fun _ => nofun⟩
  | case2 c rest command ih =>
    have fewer := (drop_sublist 2 rest).count_le 0xFF
    rw [command.1, count_cons_self]
    omega
  | case3 c rest other ih =>
    rw [count_cons, count_cons]
    refine ⟨by omega, fun same => plain_cons.mpr ⟨fun command => ?_, ih.2 (by omega)⟩⟩
    exact Nat.le_of_lt_succ (Nat.lt_of_not_le fun room => other ⟨command, room⟩)

theorem received_plain {pieces : List (List UInt8)} (plain : Plain pieces.flatten) :
    received pieces = pieces.flatten.filter (Shown ·) := by
  induction pieces with
  | nil => rfl
  | cons piece pieces ih =>
    obtain ⟨first, later⟩ := plain.append
    rw [received, flatMap_cons, ← received, ih later, printTelnetData_eq, filtered, dropCommands_plain first,
      flatten_cons, filter_append]

theorem received_single (stream : List UInt8) : received (stream.map ([·])) = stream.filter (Shown ·) := by
  induction stream with
  | nil => rfl
  | cons c stream ih =>
    rw [received] at ih ⊢
    rw [map_cons, flatMap_cons, ih]
    by_cases shown : Shown c <;> simp [printTelnetData, printed_iff, shown]

/-- **What is printed of a stream does not depend on the pieces** it comes in exactly when no IAC has two bytes behind
it. -/
theorem telnet_pieces_iff (stream : List UInt8) :
    (∀ pieces, Splits pieces stream → received pieces = filtered stream) ↔ Plain stream := by
  constructor
  · intro all
    have single := all (stream.map ([·])) ⟨flatMap_singleton' stream, by simp⟩
    rw [received_single] at single
    have same := congrArg (count 0xFF) single
    rw [filtered, count_filter (by decide), count_filter (by decide)] at same
    exact (count_dropCommands stream).2 same.symm
  · intro plain pieces split
    rw [filtered, dropCommands_plain plain]
    rw [← split.whole] at plain ⊢
    exact received_plain plain

/-- A negotiation that arrives in two pieces is printed. -/
theorem cut_sequence_printed : Splits [[0xFF], [0xFB, 1]] [0xFF, 0xFB, 1] ∧
    received [[0xFF], [0xFB, 1]] = [0xFF, 0xFB] ∧ filtered [0xFF, 0xFB, 1] = [] := by
  refine ⟨⟨rfl, by decide⟩, ?_, ?_⟩
  · simp [received, printTelnetData, Printed]
  · simp [filtered, dropCommands]

end HavyOs.Bin.Telnet
