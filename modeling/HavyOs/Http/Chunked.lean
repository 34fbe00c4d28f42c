import HavyOs.Http.Response

/-!
# Chunked bodies

What `decode_chunked` makes of a body, chunk by chunk.
-/

namespace HavyOs.Http

open HavyOs.Lib List
open HavyOs.Fs (fromUtf8)

/-! ## One chunk -/

/-- The line with a chunk's size at a position: where the data begin behind it, and the size. -/
def sizeLine (data : List UInt8) (pos : Nat) : Option (Nat × Nat) := do
  let length ← findSub [13, 10] (data.drop pos)
  let text ← fromUtf8 ((data.drop pos).take length)
  let size ← parseHex (trim ((text.toList.splitOn ';').head?.getD text.toList))
  return (pos + length + 2, size)

/-- The position behind a chunk whose data end here: a CRLF is skipped if it is there. -/
def behind (data : List UInt8) (stop : Nat) : Nat :=
  if data[stop]? = some 13 ∧ data[stop + 1]? = some 10 then stop + 2 else stop

variable {data result : List UInt8} {pos start size : Nat}

theorem decodeFrom_line (line : sizeLine data pos = some (start, size)) :
    decodeFrom data pos result =
      if size = 0 then some (some result)
      else if 2 ^ 64 ≤ start + size then none
      else if data.length < start + size then some (some (result ++ data.drop start))
      else decodeFrom data (behind data (start + size)) (result ++ (data.drop start).take size) := by
  simp only [sizeLine, Option.bind_eq_bind, Option.bind_eq_some_iff] at line
  obtain ⟨length, found, _, read, _, parsed, rfl, rfl⟩ := line
  have inside : ¬data.length ≤ pos := by
    intro outside
    rw [drop_eq_nil_of_le outside] at found
    cases found
  rw [decodeFrom, dif_neg inside, found]
  simp only [read, parsed, behind]
  split_ifs <;> rfl

theorem decodeFrom_no_line (none : sizeLine data pos = none) : decodeFrom data pos result ≠ .none := by
  rw [decodeFrom]
  split
  · exact Option.some_ne_none _
  · split
    · exact Option.some_ne_none _
    · rename_i found
      split
      · exact Option.some_ne_none _
      · rename_i read
        split
        · exact Option.some_ne_none _
        · rename_i parsed
          simp [sizeLine, found, read, parsed] at none

theorem pos_lt_of_sizeLine (line : sizeLine data pos = some (start, size)) : pos < start ∧ start ≤ data.length := by
  simp only [sizeLine, Option.bind_eq_bind, Option.bind_eq_some_iff] at line
  obtain ⟨length, found, _, _, _, _, rfl, _⟩ := line
  have fits := (findSub_sound found).1.length_le
  simp only [length_drop, length_cons] at fits
  omega

/-! ## The data come back -/

/-- The character is the digit for `v`, in lower or in upper case. -/
def HexDigit (c : Char) (v : Nat) : Prop :=
  ['0', '1', '2', '3', '4', '5', '6', '7', '8', '9', 'a', 'b', 'c', 'd', 'e', 'f'][v]? = some c ∨
    ['0', '1', '2', '3', '4', '5', '6', '7', '8', '9', 'A', 'B', 'C', 'D', 'E', 'F'][v]? = some c

/-- The digits, of any case and with any leading zeros, spell a number to the base 16. -/
def HexSpells (digits : List Char) (n : Nat) : Prop :=
  digits ≠ [] ∧ ∃ values, Forall₂ HexDigit digits values ∧ values.foldl (fun acc v => 16 * acc + v) 0 = n

/-- The line with a size, and an extension behind a semicolon. -/
def sizeText (digits : List Char) (extension : Option (List Char)) : List Char := digits ++ extension.elim [] (';' :: ·)

/-- A nonempty chunk with the spelling of its size and its extension. -/
structure Chunk where
  digits : List Char
  extension : Option (List Char)
  data : List UInt8
  nonempty : data ≠ []
  spelled : HexSpells digits data.length
  plain : ∀ text ∈ extension, '\r' ∉ text ∧ '\n' ∉ text

def Chunk.bytes (chunk : Chunk) : List UInt8 :=
  encode (sizeText chunk.digits chunk.extension) ++ [13, 10] ++ chunk.data ++ [13, 10]

theorem hexValue_range {c : Char} {v : Nat} (digit : hexValue c = some v) :
    48 ≤ c.toNat ∧ c.toNat ≤ 102 ∧ c.toNat ≠ 59 := by
  unfold hexValue at digit
  split_ifs at digit with decimal
  · simp only [Char.isDigit, Bool.and_eq_true, decide_eq_true_iff] at decimal
    change 48 ≤ c.toNat ∧ c.toNat ≤ 57 at decimal
    omega
  · omega
  · omega

theorem HexDigit.value {c : Char} {v : Nat} (digit : HexDigit c v) : hexValue c = some v := by
  obtain digit | digit := digit
  all_goals
    have small := (List.getElem?_eq_some_iff.mp digit).1
    match v, small with
    | 0, _ | 1, _ | 2, _ | 3, _ | 4, _ | 5, _ | 6, _ | 7, _ | 8, _ | 9, _ | 10, _ | 11, _ | 12, _ | 13, _ | 14, _
    | 15, _ =>
      cases digit
      rfl

theorem mapM_hexValue {digits : List Char} {values : List Nat} (all : Forall₂ HexDigit digits values) :
    digits.mapM hexValue = some values := by
  induction all with
  | nil => rfl
  | cons digit _ ih =>
    rw [mapM_cons, digit.value, ih]
    rfl

namespace HexSpells

variable {digits : List Char} {n : Nat} (spelled : HexSpells digits n)
include spelled

theorem range : ∀ c ∈ digits, 48 ≤ c.toNat ∧ c.toNat ≤ 102 ∧ c.toNat ≠ 59 := by
  obtain ⟨-, _, all, -⟩ := spelled
  induction all with
  | nil => exact nofun
  | cons digit _ ih => exact forall_mem_cons.mpr ⟨hexValue_range digit.value, ih⟩

theorem not_mem {c : Char} (other : c.toNat < 48 ∨ c.toNat = 59) : c ∉ digits := by
  intro member
  have := spelled.range c member
  omega

theorem parse (small : n < 2 ^ 64) : parseHex digits = some n := by
  have sign := spelled.not_mem (c := '+') (by decide)
  obtain ⟨nonempty, _, all, rfl⟩ := spelled
  have unsigned : parseHex digits = parseHexDigits digits := by
    cases digits with
    | nil => rfl
    | cons c rest =>
      unfold parseHex
      split
      · rename_i same
        cases same
        exact absurd mem_cons_self sign
      · rfl
  rw [unsigned, parseHexDigits, mapM_hexValue all]
  exact if_pos ⟨nonempty, small⟩

theorem trim_eq : trim digits = digits := by
  refine trim_of_all fun c member => ?_
  have := spelled.range c member
  simp only [isWhitespace, Bool.or_eq_false_iff, Bool.and_eq_false_iff, decide_eq_false_iff_not, beq_eq_false_iff_ne]
  omega

theorem sizePart (extension : Option (List Char)) :
    ((sizeText digits extension).splitOn ';').head?.getD (sizeText digits extension) = digits := by
  have plain := spelled.not_mem (c := ';') (by decide)
  cases extension with
  | none => simp [sizeText, splitOn_eq_singleton plain]
  | some text => simp [sizeText, splitOn_append_cons_self_of_not_mem plain]

end HexSpells

theorem encode_not_mem_cr {text : List Char} (plain : '\r' ∉ text) : 13 ∉ encode text := by
  intro member
  obtain ⟨c, present, byte⟩ := mem_flatMap.mp member
  obtain ⟨_, rfl⟩ := utf8EncodeChar_of_ascii byte (by decide)
  exact plain present

theorem sizeLine_text {digits : List Char} {n : Nat} {extension : Option (List Char)} {rest : List UInt8}
    (spelled : HexSpells digits n) (small : n < 2 ^ 64) (plain : ∀ text ∈ extension, '\r' ∉ text)
    (there : data.drop pos = encode (sizeText digits extension) ++ [13, 10] ++ rest) :
    sizeLine data pos = some (pos + (encode (sizeText digits extension)).length + 2, n) := by
  have line : 13 ∉ encode (sizeText digits extension) := by
    refine encode_not_mem_cr fun member => ?_
    rcases mem_append.mp member with digit | behind
    · exact spelled.not_mem (by decide) digit
    · cases extension with
      | none => cases behind
      | some text => exact plain text rfl (by simpa using behind)
  have found : findSub [13, 10] (data.drop pos) = some (encode (sizeText digits extension)).length := by
    rw [there, append_assoc]
    refine findSub_first (cons_ne_nil _ _) ?_ fun j before occurs => ?_
    · rw [drop_left]
      exact prefix_append _ _
    · exact absurd (length_le_of_cr line occurs) (by omega)
  rw [sizeLine, found]
  simp only [there, append_assoc, take_left, fromUtf8_encode, String.toList_ofList, spelled.sizePart, spelled.trim_eq,
    spelled.parse small, Option.bind_eq_bind, Option.bind_some, Option.pure_def]

/-- A body in chunks, then the last chunk, which is empty, and a trailer. -/
def chunkedBody (chunks : List Chunk) (zeros : List Char) (extension : Option (List Char)) (trailer : List UInt8) :
    List UInt8 :=
  chunks.flatMap Chunk.bytes ++ (encode (sizeText zeros extension) ++ [13, 10] ++ trailer)

section Body

variable {zeros : List Char} {extension : Option (List Char)} {trailer : List UInt8}

theorem decodeFrom_chunks (last : HexSpells zeros 0) (plain : ∀ text ∈ extension, '\r' ∉ text ∧ '\n' ∉ text)
    (fits : data.length < 2 ^ 64) (chunks : List Chunk) :
    ∀ pos result, data.drop pos = chunkedBody chunks zeros extension trailer →
      decodeFrom data pos result = some (some (result ++ chunks.flatMap Chunk.data)) := by
  induction chunks with
  | nil =>
    intro pos result there
    have line := sizeLine_text last (by decide) (fun text member => (plain text member).1) there
    rw [decodeFrom_line line, if_pos rfl, flatMap_nil, append_nil]
  | cons chunk chunks ih =>
    intro pos result there
    have rest : data.drop pos = encode (sizeText chunk.digits chunk.extension) ++ [13, 10] ++
        (chunk.data ++ [13, 10] ++ chunkedBody chunks zeros extension trailer) := by
      rw [there]
      simp [chunkedBody, Chunk.bytes]
    have inside : data.drop (pos + (encode (sizeText chunk.digits chunk.extension)).length + 2) =
        chunk.data ++ ([13, 10] ++ chunkedBody chunks zeros extension trailer) := by
      rw [Nat.add_assoc, ← drop_drop, rest, ← append_assoc chunk.data]
      exact drop_left' (by rw [length_append]; rfl)
    have room := congrArg length inside
    simp only [length_drop, length_append] at room
    have some : chunk.data.length ≠ 0 := mt length_eq_zero_iff.mp chunk.nonempty
    have line := sizeLine_text chunk.spelled (by omega) (fun text member => (chunk.plain text member).1) rest
    generalize pos + (encode (sizeText chunk.digits chunk.extension)).length + 2 = start at line inside room
    have stop : data.drop (start + chunk.data.length) = [13, 10] ++ chunkedBody chunks zeros extension trailer := by
      rw [← drop_drop, inside, drop_left]
    have crlf : data[start + chunk.data.length]? = .some 13 ∧ data[start + chunk.data.length + 1]? = .some 10 := by
      rw [← head?_drop, ← getElem?_drop, stop]
      exact ⟨rfl, rfl⟩
    have next : data.drop (start + chunk.data.length + 2) = chunkedBody chunks zeros extension trailer := by
      rw [← drop_drop, stop]
      rfl
    rw [decodeFrom_line line, if_neg some, if_neg (by omega), if_neg (by omega), behind, if_pos crlf,
      ih _ _ next, inside,
      take_left, flatMap_cons, append_assoc]

/-- **The data of the chunks come back.** -/
theorem decodeChunked_chunkedBody (chunks : List Chunk) (last : HexSpells zeros 0)
    (plain : ∀ text ∈ extension, '\r' ∉ text ∧ '\n' ∉ text)
    (fits : (chunkedBody chunks zeros extension trailer).length < 2 ^ 64) :
    decodeChunked (chunkedBody chunks zeros extension trailer) = some (some (chunks.flatMap Chunk.data)) :=
  decodeFrom_chunks last plain fits chunks 0 [] rfl

theorem decodeChunked_chunkedBody_crlf :
    decodeChunked (chunkedBody [⟨['0', 'A'], some ['x'], [13, 10, 48, 13, 10, 13, 10, 97, 98, 99],
      cons_ne_nil _ _, ⟨cons_ne_nil _ _, [0, 10], .cons (.inl rfl) (.cons (.inr rfl) .nil), rfl⟩, by decide⟩] ['0'] none
      [13, 10]) =
      some (some [13, 10, 48, 13, 10, 13, 10, 97, 98, 99]) :=
  decodeChunked_chunkedBody _ ⟨cons_ne_nil _ _, [0], .cons (.inl rfl) .nil, rfl⟩ nofun (by decide +kernel)

end Body

/-! ## Where the decoder panics -/

/-- From this position on, behind chunks that are all there, comes one whose end has no position. -/
inductive Overruns (data : List UInt8) : Nat → Prop
  | here {pos start size : Nat} (line : sizeLine data pos = some (start, size)) (some : size ≠ 0)
      (large : 2 ^ 64 ≤ start + size) : Overruns data pos
  | later {pos start size : Nat} (line : sizeLine data pos = some (start, size)) (some : size ≠ 0)
      (whole : start + size ≤ data.length) (rest : Overruns data (behind data (start + size))) : Overruns data pos

theorem le_behind (data : List UInt8) (stop : Nat) : stop ≤ behind data stop := by
  unfold behind
  split <;> omega

theorem decodeFrom_eq_none_iff (data : List UInt8) (pos : Nat) (result : List UInt8) :
    decodeFrom data pos result = none ↔ Overruns data pos := by
  induction left : data.length - pos using Nat.strong_induction_on generalizing pos result with
  | _ left ih =>
    cases line : sizeLine data pos with
    | none =>
      refine iff_of_false (decodeFrom_no_line line) fun overruns => ?_
      cases overruns with
      | here there | later there => rw [line] at there; cases there
    | some header =>
      obtain ⟨start, size⟩ := header
      have before := pos_lt_of_sizeLine line
      have next := le_behind data (start + size)
      rw [decodeFrom_line line]
      constructor
      · intro panics
        split_ifs at panics with zero large beyond
        · exact .here line zero large
        · exact .later line zero (by omega) ((ih _ (by omega) _ _ rfl).mp panics)
      · intro overruns
        cases overruns with
        | here there some large =>
          rw [line] at there
          cases there
          rw [if_neg some, if_pos large]
        | later there some whole rest =>
          rw [line] at there
          cases there
          rw [if_neg some]
          split_ifs with large
          · rfl
          · omega
          · exact (ih _ (by omega) _ _ rfl).mpr rest

/-- A field that announces chunks. -/
def Announces (line : List Char) : Prop :=
  ∃ name value, splitOnce ':' line = some (name, value) ∧ toLowercase (trim name) = "transfer-encoding".toList ∧
    "chunked".toList <:+: toLowercase (trim value)

/-- A head with a status line that is accepted and a field that announces chunks. -/
def ChunkedHead (head : List Char) : Prop :=
  ∃ statusLine fields version code rest, lines head = statusLine :: fields ∧
    splitn ' ' 3 statusLine = version :: code :: rest ∧ (∃ n, parseUnsigned (2 ^ 16) code = some n) ∧
    ∃ line ∈ fields, Announces line

/-- A response whose body is announced as chunked and overruns. -/
def Oversized (data : List UInt8) : Prop :=
  ∃ head rest, data = encode (head ++ blankText ++ rest) ∧
    findSub blankText (head ++ blankText ++ rest) = some head.length ∧ ChunkedHead head ∧ Overruns (encode rest) 0

theorem isChunked_readHeader (headers : Headers) (line : List Char) :
    (readHeader headers line).isChunked = true ↔ headers.isChunked = true ∨ Announces line := by
  unfold readHeader Announces
  cases splitOnce ':' line with
  | none => simp only [reduceCtorEq, false_and, exists_false, or_false]
  | some parts =>
    obtain ⟨_, _⟩ := parts
    simp only [Bool.or_eq_true, Bool.and_eq_true, decide_eq_true_iff, Option.some.injEq, Prod.mk.injEq, and_assoc,
      exists_and_left, exists_eq_left']

theorem isChunked_foldl (fields : List (List Char)) (headers : Headers) :
    (fields.foldl readHeader headers).isChunked = true ↔
    headers.isChunked = true ∨ ∃ line ∈ fields, Announces line := by
  induction fields generalizing headers with
  | nil => simp
  | cons line fields ih =>
    rw [foldl_cons, ih, isChunked_readHeader, or_assoc]
    simp only [mem_cons, exists_eq_or_imp]

theorem extractBody_eq_none_iff {isChunked : Bool} :
    extractBody isChunked data = none ↔ isChunked = true ∧ Overruns data 0 := by
  cases isChunked with
  | false => simp [extractBody]
  | true => simp [extractBody, decodeChunked, decodeFrom_eq_none_iff]

theorem parseText_eq_none_iff {head rest : List Char}
    (found : findSub blankText (head ++ blankText ++ rest) = some head.length) :
    parseText (encode (head ++ blankText ++ rest)) (head ++ blankText ++ rest) = none ↔
      ChunkedHead head ∧ Overruns (encode rest) 0 := by
  have before : (head ++ blankText ++ rest).take head.length = head := by rw [append_assoc, take_left]
  have body : (encode (head ++ blankText ++ rest)).drop ((encode head).length + 4) = encode rest := by
    rw [encode_append, encode_append]
    exact drop_left' (by rw [length_append]; rfl)
  simp only [parseText, found, before, body]
  constructor
  · intro panics
    split at panics
    · cases panics
    · rename_i statusLine fields cut
      split at panics
      · cases panics
      · rename_i status
        rw [Option.map_eq_none_iff, extractBody_eq_none_iff, readHeaders, isChunked_foldl] at panics
        obtain ⟨announced, overruns⟩ := panics
        unfold parseStatusLine at status
        split at status
        · cases status
        · cases status
        · rename_i parts
          split at status
          · cases status
          · rename_i code
            exact ⟨⟨_, _, _, _, _, cut, parts, ⟨_, code⟩, announced.resolve_left nofun⟩, overruns⟩
  · rintro ⟨⟨statusLine, fields, _, code, _, cut, parts, ⟨n, parsed⟩, announced⟩, overruns⟩
    simp only [cut, parseStatusLine, parts, parsed, Option.map_eq_none_iff, extractBody_eq_none_iff, readHeaders,
      isChunked_foldl]
    exact ⟨.inr announced, overruns⟩

theorem parseResponse_eq_none_iff : parseResponse data = none ↔ Oversized data := by
  constructor
  · intro panics
    unfold parseResponse at panics
    split at panics
    · cases panics
    · rename_i text read
      cases found : findSub blankText text.toList with
      | none => simp [parseText, found] at panics
      | some i =>
        have occurs := (findSub_sound found).1
        obtain ⟨head, rest, whole, rfl⟩ : ∃ head rest, text.toList = head ++ blankText ++ rest ∧ head.length = i := by
          have inside := occurs.length_le
          obtain ⟨rest, cut⟩ := occurs
          refine ⟨text.toList.take i, rest, by rw [append_assoc, cut, take_append_drop], ?_⟩
          simp only [blankText, length_drop, length_cons] at inside
          rw [length_take]
          omega
        rw [← encode_of_fromUtf8 read] at panics ⊢
        rw [whole] at panics found ⊢
        exact ⟨head, rest, rfl, found, (parseText_eq_none_iff found).mp panics⟩
  · rintro ⟨head, rest, rfl, found, chunked, overruns⟩
    rw [parseResponse, fromUtf8_encode]
    dsimp only
    rw [String.toList_ofList]
    exact (parseText_eq_none_iff found).mpr ⟨chunked, overruns⟩

/-- **The parser returns unless a chunk's end has no position.** -/
theorem parseResponse_returns_iff (data : List UInt8) : (∃ result, parseResponse data = some result) ↔
    ¬Oversized data := by
  rw [← parseResponse_eq_none_iff, ← Option.ne_none_iff_exists']

def chunkedHead : List Char := "HTTP/1.1 200 OK\r\nTransfer-Encoding: chunked".toList

/-- A chunk of 2 ^ 64 - 1 bytes, of which one is there. -/
def hugeChunk : List Char := "ffffffffffffffff\r\nx".toList

theorem huge_chunk_panics : parseResponse (encode (chunkedHead ++ blankText ++ hugeChunk)) = none := by
  have header : sizeLine (encode hugeChunk) 0 = some (18, 2 ^ 64 - 1) := by decide +kernel
  refine parseResponse_eq_none_iff.mpr
    ⟨chunkedHead, hugeChunk, rfl, by decide +kernel, ?_, .here header (by omega) (by omega)⟩
  exact ⟨_, _, _, _, _, rfl, rfl, ⟨200, by decide +kernel⟩, _, mem_singleton.mpr rfl, _, _,
    rfl, by decide +kernel, by decide +kernel⟩

end HavyOs.Http
