import HavyOs.Fs.Layout
import HavyOs.Lib.Text
import Mathlib.Data.List.Infix

/-!
# HTTP responses

`parse_response`, `decode_chunked` and `find_header_end` of `commands/http/mod.rs`, and the scan for
the content length that `http_request` makes. A `Response` is a well-formed response with a content
length: a status line, fields, and whatever the server sends behind them. On what has arrived of
one, the parser returns the bytes behind the head as the body, however many they are.
-/

namespace HavyOs.Http

open HavyOs.Lib List
open HavyOs.Fs (asBytes fromUtf8 asBytes_eq_encode asBytes_of_fromUtf8 fromUtf8_asBytes)

/-- `HttpResponse`; the order of the headers is not observed. -/
structure HttpResponse where
  statusCode : Nat
  statusText : List Char
  headers : List (List Char × List Char)
  body : List UInt8
deriving DecidableEq

def blankLine : List UInt8 := [13, 10, 13, 10]

def blankText : List Char := ['\r', '\n', '\r', '\n']

/-- One character of `to_lowercase`. It is compared with ASCII text only. Of the other characters the Kelvin
sign becomes an ASCII letter, and a dotted capital I becomes two characters that match nothing here. -/
def lowerChar (c : Char) : Char := if c = Char.ofNat 0x212A then 'k' else c.toLower

def toLowercase (text : List Char) : List Char := text.map lowerChar

/-! ## Chunked bodies -/

def hexValue (c : Char) : Option Nat :=
  if c.isDigit then some (c.toNat - 48)
  else if 97 ≤ c.toNat ∧ c.toNat ≤ 102 then some (c.toNat - 87)
  else if 65 ≤ c.toNat ∧ c.toNat ≤ 70 then some (c.toNat - 55)
  else none

def parseHexDigits (digits : List Char) : Option Nat := do
  let values ← digits.mapM hexValue
  let n := values.foldl (fun acc v => 16 * acc + v) 0
  if digits ≠ [] ∧ n < 2 ^ 64 then some n else none

/-- `usize::from_str_radix` to the base 16. -/
def parseHex : List Char → Option Nat
  | '+' :: digits => parseHexDigits digits
  | digits => parseHexDigits digits

variable (data : List UInt8)

/-- The loop of `decode_chunked`; the outer `none` is a panic. -/
def decodeFrom (pos : Nat) (result : List UInt8) : Option (Option (List UInt8)) :=
  if _done : data.length ≤ pos then some (some result)
  else
    match findSub [13, 10] (data.drop pos) with
    | none => some (some result)
    | some lineLength =>
      match fromUtf8 ((data.drop pos).take lineLength) with
      | none => some none
      | some sizeStr =>
        match parseHex (trim ((sizeStr.toList.splitOn ';').head?.getD sizeStr.toList)) with
        | none => some none
        | some chunkSize =>
          let start := pos + lineLength + 2
          let stop := start + chunkSize
          if chunkSize = 0 then some (some result)
          -- `pos + chunk_size` wraps to less than `pos`, and the slice ends before it starts
          else if 2 ^ 64 ≤ stop then none
          else if data.length < stop then some (some (result ++ data.drop start))
          else if data[stop]? = some 13 ∧ data[stop + 1]? = some 10 then
            decodeFrom (stop + 2) (result ++ (data.drop start).take chunkSize)
          else decodeFrom stop (result ++ (data.drop start).take chunkSize)
termination_by data.length - pos

def decodeChunked : Option (Option (List UInt8)) := decodeFrom data 0 []

/-! ## The parser -/

def parseStatusLine (line : List Char) : Except String (Nat × List Char) :=
  match splitn ' ' 3 line with
  | [] => .error "Missing HTTP version"
  | [_version] => .error "Missing status code"
  | _version :: statusStr :: rest =>
    match parseUnsigned (2 ^ 16) statusStr with
    | none => .error "Invalid status code"
    | some statusCode => .ok (statusCode, rest.head?.getD [])

structure Headers where
  fields : List (List Char × List Char)
  isChunked : Bool

def insertHeader (key value : List Char) (fields : List (List Char × List Char)) : List (List Char × List Char) :=
  (key, value) :: fields.filter fun field => field.1 ≠ key

def readHeader (headers : Headers) (line : List Char) : Headers :=
  match splitOnce ':' line with
  | none => headers
  | some (left, right) =>
    let key := trim left
    let value := trim right
    ⟨insertHeader key value headers.fields,
      headers.isChunked || (toLowercase key = "transfer-encoding".toList && "chunked".toList <:+: toLowercase value)⟩

def readHeaders (lines : List (List Char)) : Headers := lines.foldl readHeader ⟨[], false⟩

/-- The body as it is returned; `none` is a panic. -/
def extractBody (isChunked : Bool) (rawBody : List UInt8) : Option (List UInt8) :=
  if isChunked then (decodeChunked rawBody).map fun decoded => decoded.getD rawBody else some rawBody

/-- `parse_response` behind the check for UTF-8. -/
def parseText (text : List Char) : Option (Except String HttpResponse) :=
  match findSub blankText text with
  | none => some (.error "No header/body separator found")
  | some headerEnd =>
    match lines (text.take headerEnd) with
    | [] => some (.error "Missing status line")
    | statusLine :: rest =>
      match parseStatusLine statusLine with
      | .error e => some (.error e)
      | .ok (statusCode, statusText) =>
        let headers := readHeaders rest
        let bodyStart := (encode (text.take headerEnd)).length + 4
        (extractBody headers.isChunked (data.drop bodyStart)).map fun body =>
          .ok ⟨statusCode, statusText, headers.fields, body⟩

/-- `parse_response`; `none` is a panic. -/
def parseResponse : Option (Except String HttpResponse) :=
  match fromUtf8 data with
  | none => some (.error "Invalid UTF-8 in response")
  | some text => parseText data text.toList

def findHeaderEnd : Option Nat := findSub blankLine data

def scanLine (found : Option Nat) (line : List Char) : Option Nat :=
  if "content-length:".toList <+: toLowercase line then
    match (line.splitOn ':')[1]? with
    | none => found
    | some lenStr => parseUnsigned (2 ^ 64) (trim lenStr)
  else found

/-- The scan of `http_request` over the head. -/
def scanContentLength (head : List UInt8) : Option Nat :=
  match fromUtf8 head with
  | none => none
  | some text => (lines text.toList).foldl scanLine none

/-! ## Well-formed responses -/

variable (b : UInt8)

/-- A byte of a line. -/
def Plain : Prop := b ≠ 13 ∧ b ≠ 10

def IsDigit : Prop := 48 ≤ b.toNat ∧ b.toNat ≤ 57

/-- A byte of a field name: visible, and not a colon. -/
def IsToken : Prop := 33 ≤ b.toNat ∧ b.toNat ≤ 126 ∧ b ≠ 58

/-- Optional white space, a blank or a tabulator. -/
def IsOws : Prop := b = 32 ∨ b = 9

instance : DecidablePred Plain := fun b => inferInstanceAs (Decidable (b ≠ 13 ∧ b ≠ 10))

instance : DecidablePred IsDigit := fun b => inferInstanceAs (Decidable (48 ≤ b.toNat ∧ b.toNat ≤ 57))

instance : DecidablePred IsToken := fun b => inferInstanceAs (Decidable (33 ≤ b.toNat ∧ b.toNat ≤ 126 ∧ b ≠ 58))

instance : DecidablePred IsOws := fun b => inferInstanceAs (Decidable (b = 32 ∨ b = 9))

/-- A header field with the white space around its value. -/
structure Field where
  name : List UInt8
  value : List UInt8
  named : name ≠ []
  token : ∀ b ∈ name, IsToken b
  plain : ∀ b ∈ value, Plain b

variable (field : Field)

namespace Field

def line : List UInt8 := field.name ++ 58 :: field.value

/-- Names are compared without regard to case. -/
def Is (name : String) : Prop := toLowercase (field.name.map asciiChar) = name.toList

instance (name : String) : Decidable (field.Is name) :=
  inferInstanceAs (Decidable (toLowercase (field.name.map asciiChar) = name.toList))

/-- The value is the number `n`. -/
def Gives (n : Nat) : Prop :=
  ∃ left digits right, field.value = left ++ digits ++ right ∧ (∀ b ∈ left, IsOws b) ∧ (∀ b ∈ right, IsOws b) ∧
    digits ≠ [] ∧ (∀ b ∈ digits, IsDigit b) ∧ Nat.ofDigitChars 10 (digits.map asciiChar) 0 = n

end Field

/-- A response with a content length, and the bytes that the server sends behind the head. -/
structure Response where
  major : UInt8
  minor : UInt8
  hundreds : UInt8
  tens : UInt8
  ones : UInt8
  reason : List UInt8
  fields : List Field
  contentLength : Nat
  sent : List UInt8
  version : IsDigit major ∧ IsDigit minor
  code : IsDigit hundreds ∧ IsDigit tens ∧ IsDigit ones
  plain : ∀ b ∈ reason, Plain b
  announced : ∃ field ∈ fields, field.Is "content-length"
  agreed : ∀ field ∈ fields, field.Is "content-length" → field.Gives contentLength
  unchunked : ∀ field ∈ fields, ¬field.Is "transfer-encoding"

variable (r : Response)

namespace Response

def versionBytes : List UInt8 := [72, 84, 84, 80, 47, r.major, 46, r.minor]

def codeBytes : List UInt8 := [r.hundreds, r.tens, r.ones]

def statusLine : List UInt8 := r.versionBytes ++ 32 :: (r.codeBytes ++ 32 :: r.reason)

def fieldLines : List (List UInt8) := r.fields.map Field.line

def head : List UInt8 := r.statusLine ++ r.fieldLines.flatMap fun line => 13 :: 10 :: line

def stream : List UInt8 := r.head ++ blankLine ++ r.sent

def headLength : Nat := r.head.length + 4

/-- The number of bytes up to the end of the announced body. -/
def total : Nat := r.headLength + r.contentLength

end Response

/-! ## Lines of the head -/

theorem encode_of_fromUtf8 {bytes : List UInt8} {text : String} (read : fromUtf8 bytes = some text) :
    encode text.toList = bytes := by
  rw [← asBytes_eq_encode, asBytes_of_fromUtf8 read]

theorem fromUtf8_encode (text : List Char) : fromUtf8 (encode text) = some (String.ofList text) := by
  have bytes : encode text = asBytes (String.ofList text) := by rw [asBytes_eq_encode, String.toList_ofList]
  rw [bytes, fromUtf8_asBytes]

variable {b : UInt8} {first : List UInt8}

theorem IsDigit.isAscii (digit : IsDigit b) : IsAscii b := by
  unfold IsAscii IsDigit at *
  omega

theorem IsDigit.notBlank (digit : IsDigit b) : IsAscii b ∧ b ≠ 32 := by
  refine ⟨digit.isAscii, ?_⟩
  rintro rfl
  exact absurd digit.1 (by decide)

theorem IsToken.isAscii (token : IsToken b) : IsAscii b := by
  unfold IsAscii
  have := token.2.1
  omega

/-- A line has something in it, and no line end. -/
def IsLine (line : List UInt8) : Prop := line ≠ [] ∧ ∀ b ∈ line, Plain b

theorem plain_of_visible (visible : 33 ≤ b.toNat) : Plain b := by
  constructor
  · rintro rfl
    exact absurd visible (by decide)
  · rintro rfl
    exact absurd visible (by decide)

theorem IsDigit.plain (digit : IsDigit b) : Plain b := plain_of_visible (by unfold IsDigit at digit; omega)

theorem Field.isLine : IsLine field.line := by
  refine ⟨append_ne_nil_of_right_ne_nil _ (cons_ne_nil _ _), fun b member => ?_⟩
  rcases mem_append.mp member with name | rest
  · exact plain_of_visible (field.token b name).1
  · rcases mem_cons.mp rest with rfl | value
    · exact ⟨by decide, by decide⟩
    · exact field.plain b value

namespace Response

variable (r : Response)

theorem statusLine_isLine : IsLine r.statusLine := by
  obtain ⟨major, minor⟩ := r.version
  obtain ⟨hundreds, tens, ones⟩ := r.code
  refine ⟨cons_ne_nil _ _, fun b member => ?_⟩
  simp only [statusLine, versionBytes, codeBytes, mem_append, mem_cons, not_mem_nil, or_false] at member
  rcases member with (rfl | rfl | rfl | rfl | rfl | rfl | rfl | rfl) | rfl | (rfl | rfl | rfl) | rfl | reason
  iterate 5 exact ⟨by decide, by decide⟩
  · exact major.plain
  · exact ⟨by decide, by decide⟩
  · exact minor.plain
  · exact ⟨by decide, by decide⟩
  · exact hundreds.plain
  · exact tens.plain
  · exact ones.plain
  · exact ⟨by decide, by decide⟩
  · exact r.plain b reason

theorem fieldLines_isLine : ∀ line ∈ r.fieldLines, IsLine line := by
  intro line member
  obtain ⟨field, _, rfl⟩ := mem_map.mp member
  exact field.isLine

end Response

theorem length_le_of_cr {rest more : List UInt8} {i : Nat} (plain : 13 ∉ first)
    (occurs : 13 :: more <+: (first ++ rest).drop i) : first.length ≤ i := by
  by_contra inside
  obtain ⟨_, whole⟩ := occurs
  have byte : (first ++ rest)[i]? = some 13 := by
    rw [← head?_drop, ← whole]
    rfl
  rw [getElem?_append_left (by omega)] at byte
  exact plain (mem_of_getElem? byte)

theorem blankLine_after_line (line : IsLine first) {rest : List UInt8} {i : Nat}
    (occurs : blankLine <+: (first ++ rest).drop i) : first.length ≤ i :=
  length_le_of_cr (fun member => (line.2 13 member).1 rfl) occurs

theorem blankLine_after_lines {more : List (List UInt8)} (line : IsLine first)
    (lines : ∀ line ∈ more, IsLine line) (rest : List UInt8) (i : Nat)
    (occurs : blankLine <+: ((first ++ more.flatMap fun line => 13 :: 10 :: line) ++ rest).drop i) :
    (first ++ more.flatMap fun line => 13 :: 10 :: line).length ≤ i := by
  induction more generalizing first i with
  | nil =>
    rw [flatMap_nil, append_nil] at occurs ⊢
    exact blankLine_after_line line occurs
  | cons second more ih =>
    obtain ⟨nonempty, plain⟩ := lines second mem_cons_self
    rw [append_assoc] at occurs
    have behind := blankLine_after_line line occurs
    obtain ⟨j, rfl⟩ : ∃ j, i = first.length + j := ⟨i - first.length, by omega⟩
    rw [drop_append, drop_of_length_le (by omega), Nat.add_sub_cancel_left] at occurs
    -- the line end itself is followed by a byte of the next line
    match j, occurs with
    | 0, occurs =>
      obtain ⟨tail, whole⟩ := occurs
      cases second with
      | nil => exact absurd rfl nonempty
      | cons b second =>
        injection whole with _ whole
        injection whole with _ whole
        injection whole with same _
        exact absurd same.symm (plain b mem_cons_self).1
    | 1, occurs =>
      obtain ⟨tail, whole⟩ := occurs
      injection whole with impossible _
      exact absurd impossible (by decide)
    | k + 2, occurs =>
      have later := ih (lines second mem_cons_self) (fun line member => lines line (mem_cons_of_mem second member)) k
        occurs
      rw [flatMap_cons]
      simp only [length_append, length_cons] at later ⊢
      omega

namespace Response

variable (r : Response)

/-- The first blank line of what the server sends is the one behind the head. -/
theorem head_le_of_blankLine {rest : List UInt8} {i : Nat} (occurs : blankLine <+: (r.head ++ rest).drop i) :
    r.head.length ≤ i :=
  blankLine_after_lines r.statusLine_isLine r.fieldLines_isLine rest i occurs

theorem findHeaderEnd_complete (part : List UInt8) :
    findHeaderEnd (r.head ++ blankLine ++ part) = some r.head.length := by
  apply findSub_first (cons_ne_nil _ _)
  · rw [append_assoc, drop_left]
    exact prefix_append blankLine part
  · intro j before occurs
    rw [append_assoc] at occurs
    exact absurd (r.head_le_of_blankLine occurs) (by omega)

theorem no_blankLine {count : Nat} (short : count < r.headLength) (i : Nat) :
    ¬blankLine <+: (r.stream.take count).drop i := by
  intro occurs
  have whole : blankLine <+: (r.head ++ (blankLine ++ r.sent)).drop i := by
    rw [drop_take] at occurs
    rw [stream, append_assoc] at occurs
    exact occurs.trans (List.take_prefix _ _)
  have behind := r.head_le_of_blankLine whole
  have fits := occurs.length_le
  rw [length_drop, length_take] at fits
  change 4 ≤ _ at fits
  unfold headLength at short
  omega

theorem findHeaderEnd_short {count : Nat} (short : count < r.headLength) : findHeaderEnd (r.stream.take count) = none :=
  findSub_none (r.no_blankLine short)

end Response

/-! ## The text of the head -/

theorem encode_lines {text : List Char} {more : List (List UInt8)}
    (bytes : encode text = first ++ more.flatMap fun line => 13 :: 10 :: line) :
    ∃ (firstText : List Char) (moreTexts : List (List Char)),
      text = firstText ++ moreTexts.flatMap (fun line => '\r' :: '\n' :: line) ∧ encode firstText = first ∧
      moreTexts.map encode = more := by
  induction more generalizing text first with
  | nil => exact ⟨text, [], (append_nil text).symm, by rw [bytes, flatMap_nil, append_nil], rfl⟩
  | cons second more ih =>
    obtain ⟨firstText, _, rfl, sameFirst, restBytes⟩ := encode_split (by decide : IsAscii 13) bytes
    obtain ⟨_, rfl, laterBytes⟩ := @encode_ascii_append _ [10] _ (by simp [IsAscii]) restBytes
    obtain ⟨secondText, moreTexts, rfl, sameSecond, sameMore⟩ := ih laterBytes
    exact ⟨firstText, secondText :: moreTexts, rfl, sameFirst, by rw [map_cons, sameSecond, sameMore]⟩

theorem IsLine.text {line : List UInt8} (isLine : IsLine line) {text : List Char} (bytes : encode text = line) :
    text ≠ [] ∧ '\n' ∉ text ∧ '\r' ∉ text := by
  have inside : ∀ {c : Char} {b : UInt8}, b ∈ String.utf8EncodeChar c → c ∈ text → b ∈ line := by
    intro c b member present
    rw [← bytes]
    exact mem_flatMap.mpr ⟨c, present, member⟩
  refine ⟨?_, fun newline => ?_, fun carriage => ?_⟩
  · rintro rfl
    exact isLine.1 bytes.symm
  · exact (isLine.2 10 (inside (by decide) newline)).2 rfl
  · exact (isLine.2 13 (inside (by decide) carriage)).1 rfl

theorem Field.text {text : List Char} (bytes : encode text = field.line) :
    ∃ value, text = field.name.map asciiChar ++ ':' :: value ∧ encode value = field.value := by
  obtain ⟨name, value, rfl, nameBytes, valueBytes⟩ := encode_split (by decide : IsAscii 58) bytes
  refine ⟨value, ?_, valueBytes⟩
  rw [eq_map_of_encode_ascii (fun b member => (field.token b member).isAscii) nameBytes]
  rfl

/-- The text of the head: the status line, and a line for each field. -/
structure Response.HeadText (r : Response) (text : List Char) where
  status : List Char
  fieldTexts : List (List Char)
  lines_eq : lines text = status :: fieldTexts
  statusBytes : encode status = r.statusLine
  fieldBytes : fieldTexts.map encode = r.fieldLines

theorem Response.head_text {text : List Char} (bytes : encode text = r.head) : Nonempty (r.HeadText text) := by
  obtain ⟨status, fieldTexts, rfl, statusBytes, fieldBytes⟩ := encode_lines bytes
  refine ⟨⟨status, fieldTexts, lines_crlf fun line member => ?_, statusBytes, fieldBytes⟩⟩
  rcases mem_cons.mp member with rfl | later
  · exact r.statusLine_isLine.text statusBytes
  · have present : encode line ∈ r.fieldLines := by
      rw [← fieldBytes]
      exact mem_map_of_mem later
    exact (r.fieldLines_isLine _ present).text rfl

namespace Response.HeadText

variable {r : Response} {text : List Char} (h : r.HeadText text)

/-- Each line is that of a field. -/
theorem exists_field {line : List Char} (member : line ∈ h.fieldTexts) :
    ∃ field ∈ r.fields, ∃ value, line = field.name.map asciiChar ++ ':' :: value ∧ encode value = field.value := by
  have present : encode line ∈ r.fieldLines := by
    rw [← h.fieldBytes]
    exact mem_map_of_mem member
  obtain ⟨field, listed, same⟩ := mem_map.mp present
  exact ⟨field, listed, field.text same.symm⟩

end Response.HeadText

/-! ## The content length -/

theorem lowerChar_colon {c : Char} (same : lowerChar c = ':') : c = ':' := by
  unfold lowerChar Char.toLower at same
  split at same
  · exact absurd same (by decide)
  · split_ifs at same with upper
    · have lower : (65 : Nat) ≤ c.val.toNat := UInt32.le_iff_toNat_le.mp upper.1
      have above : c.val.toNat ≤ 90 := UInt32.le_iff_toNat_le.mp upper.2
      have value : (c.val + ('a'.val - 'A'.val)).toNat = 58 := congrArg (fun d : Char => d.val.toNat) same
      change (c.val.toNat + 32) % 2 ^ 32 = 58 at value
      omega
    · exact same

namespace Field

variable (field : Field)

theorem colon_not_mem : ':' ∉ field.name.map asciiChar := by
  refine @asciiChar_not_mem 58 _ (by decide) fun b present => ?_
  have token := field.token b present
  exact ⟨token.isAscii, token.2.2⟩

theorem colon_not_mem_lower : ':' ∉ toLowercase (field.name.map asciiChar) := by
  intro member
  obtain ⟨c, present, same⟩ := mem_map.mp member
  rw [lowerChar_colon same] at present
  exact field.colon_not_mem present

theorem scanned_iff (value : List Char) :
    "content-length:".toList <+: toLowercase (field.name.map asciiChar ++ ':' :: value) ↔
    field.Is "content-length" := by
  have split : toLowercase (field.name.map asciiChar ++ ':' :: value) =
      toLowercase (field.name.map asciiChar) ++ ':' :: toLowercase value := by
    rw [toLowercase, map_append]
    rfl
  have word : "content-length:".toList = "content-length".toList ++ [':'] := by decide
  rw [split, word]
  constructor
  · -- the part in front of the first colon decides how the line starts
    rintro ⟨tail, whole⟩
    have left := splitOnce_append (show ':' ∉ "content-length".toList by decide) tail
    rw [append_assoc, singleton_append] at whole
    rw [whole, splitOnce_append field.colon_not_mem_lower] at left
    exact (Prod.mk.inj (Option.some.inj left)).1
  · intro same
    exact ⟨toLowercase
      value, by rw [append_assoc, singleton_append, ← show toLowercase (field.name.map asciiChar) = _ from same]⟩

end Field

theorem IsDigit.isDigit (digit : IsDigit b) : (asciiChar b).isDigit = true := by
  have value := toNat_asciiChar digit.isAscii
  have lower : (48 : UInt32) ≤ (asciiChar b).val := UInt32.le_iff_toNat_le.mpr (digit.1.trans_eq value.symm)
  have upper : (asciiChar b).val ≤ 57 := UInt32.le_iff_toNat_le.mpr (value.trans_le digit.2)
  exact Bool.and_eq_true_iff.mpr ⟨decide_eq_true lower, decide_eq_true upper⟩

theorem isDigit_of_mem_map {digits : List UInt8} (decimal : ∀ b ∈ digits, IsDigit b) {c : Char}
    (member : c ∈ digits.map asciiChar) : c.isDigit = true := by
  obtain ⟨b, present, rfl⟩ := mem_map.mp member
  exact (decimal b present).isDigit

def decimalValue (digits : List UInt8) : Nat := Nat.ofDigitChars 10 (digits.map asciiChar) 0

theorem parseUnsigned_digits {digits : List UInt8} (nonempty : digits ≠ []) (decimal : ∀ b ∈ digits, IsDigit b)
    (bound : Nat) :
    parseUnsigned bound (digits.map asciiChar) =
      if decimalValue digits < bound then some (decimalValue digits) else none := by
  have unsigned : '+' ∉ digits.map asciiChar := fun member => absurd (isDigit_of_mem_map decimal member) (by decide)
  have parsed : parseUnsigned bound (digits.map asciiChar) = parseDigits bound (digits.map asciiChar) := by
    unfold parseUnsigned
    split
    · rename_i rest same
      rw [same] at unsigned
      exact absurd mem_cons_self unsigned
    · rfl
  have present : digits.map asciiChar ≠ [] := mt map_eq_nil_iff.mp nonempty
  have all : (digits.map asciiChar).all Char.isDigit = true := all_eq_true.mpr fun c => isDigit_of_mem_map decimal
  rw [parsed]
  by_cases small : decimalValue digits < bound
  · rw [if_pos small]
    exact if_pos ⟨present, all, small⟩
  · rw [if_neg small]
    exact if_neg fun parts => small parts.2.2

theorem isWhitespace_visible (ascii : IsAscii b) (visible : 33 ≤ b.toNat) : isWhitespace (asciiChar b) = false := by
  have value := toNat_asciiChar ascii
  unfold IsAscii at ascii
  simp only [isWhitespace, Bool.or_eq_false_iff, Bool.and_eq_false_iff, beq_eq_false_iff_ne, decide_eq_false_iff_not]
  omega

theorem IsOws.isAscii (ows : IsOws b) : IsAscii b := by
  rcases ows with rfl | rfl
  · decide
  · decide

/-- What the scan makes of the number `n`. -/
def scannedLength (n : Nat) : Option Nat := if n < 2 ^ 64 then some n else none

namespace Field

variable {field : Field} {value : List Char}

theorem Gives.parse {n : Nat} (gives : field.Gives n) (bytes : encode value = field.value) :
    ':' ∉ value ∧ parseUnsigned (2 ^ 64) (trim value) = scannedLength n := by
  obtain ⟨left, digits, right, whole, before, behind, nonempty, decimal, number⟩ := gives
  have ascii : ∀ b ∈ field.value, IsAscii b := by
    rw [whole, forall_mem_append, forall_mem_append]
    exact ⟨⟨fun b inside => (before b inside).isAscii, fun b inside => (decimal b inside).isAscii⟩,
      fun b inside => (behind b inside).isAscii⟩
  have text : value = left.map asciiChar ++ digits.map asciiChar ++ right.map asciiChar := by
    rw [eq_map_of_encode_ascii ascii bytes, whole, map_append, map_append]
  have blanks : ∀ {ows : List UInt8}, (∀ b ∈ ows, IsOws b) → ∀ c ∈ ows.map asciiChar, isWhitespace c = true := by
    intro ows all c member
    obtain ⟨b, present, rfl⟩ := mem_map.mp member
    rcases all b present with rfl | rfl
    · decide
    · decide
  have word : ∀ c ∈ digits.map asciiChar, isWhitespace c = false := by
    intro c member
    obtain ⟨b, present, rfl⟩ := mem_map.mp member
    have digit := decimal b present
    exact isWhitespace_visible digit.isAscii (by unfold IsDigit at digit; omega)
  constructor
  · rw [text]
    intro member
    rcases mem_append.mp member with front | last
    · rcases mem_append.mp front with first | middle
      · exact absurd (blanks before _ first) (by decide)
      · exact absurd (isDigit_of_mem_map decimal middle) (by decide)
    · exact absurd (blanks behind _ last) (by decide)
  · have present : digits.map asciiChar ≠ [] := mt map_eq_nil_iff.mp nonempty
    rw [text, trim_word (blanks before) (blanks behind) present word, parseUnsigned_digits nonempty decimal,
      show decimalValue digits = n from number]
    rfl

theorem scanLine_own {n : Nat} (own : field.Is "content-length") (gives : field.Gives n)
    (bytes : encode value = field.value)
    (found : Option Nat) : scanLine found (field.name.map asciiChar ++ ':' :: value) = scannedLength n := by
  obtain ⟨plain, parsed⟩ := gives.parse bytes
  have split : (field.name.map asciiChar ++ ':' :: value).splitOn ':' = [field.name.map asciiChar, value] := by
    rw [splitOn_append_cons_self_of_not_mem field.colon_not_mem, splitOn_eq_singleton plain]
  rw [scanLine, if_pos ((field.scanned_iff value).mpr own), split]
  exact parsed

theorem readHeader_unchunked (other : ¬field.Is "transfer-encoding") (headers : Headers)
    (plain : headers.isChunked = false)
    (value : List Char) : (readHeader headers (field.name.map asciiChar ++ ':' :: value)).isChunked = false := by
  have key : trim (field.name.map asciiChar) = field.name.map asciiChar := by
    apply trim_of_all
    intro c member
    obtain ⟨b, inside, rfl⟩ := mem_map.mp member
    have token := field.token b inside
    exact isWhitespace_visible token.isAscii token.1
  have notNamed : toLowercase (field.name.map asciiChar) ≠ "transfer-encoding".toList := other
  rw [readHeader, splitOnce_append field.colon_not_mem]
  simp only [key, plain, notNamed, decide_false, Bool.false_and, Bool.or_false]

end Field

namespace Response

variable (r : Response)

theorem versionBytes_ascii : ∀ b ∈ r.versionBytes, IsAscii b ∧ b ≠ 32 := by
  intro b member
  simp only [versionBytes, mem_cons, not_mem_nil, or_false] at member
  rcases member with rfl | rfl | rfl | rfl | rfl | rfl | rfl | rfl
  iterate 5 exact ⟨by decide, by decide⟩
  · exact r.version.1.notBlank
  · exact ⟨by decide, by decide⟩
  · exact r.version.2.notBlank

theorem codeBytes_digits : ∀ b ∈ r.codeBytes, IsDigit b := by
  obtain ⟨hundreds, tens, ones⟩ := r.code
  intro b member
  simp only [codeBytes, mem_cons, not_mem_nil, or_false] at member
  rcases member with rfl | rfl | rfl
  · exact hundreds
  · exact tens
  · exact ones

theorem code_lt : decimalValue r.codeBytes < 2 ^ 16 := by
  obtain ⟨hundreds, tens, ones⟩ := r.code
  have value : decimalValue r.codeBytes =
      10 * (10 * (10 * 0 + ((asciiChar r.hundreds).toNat - 48)) + ((asciiChar r.tens).toNat - 48)) +
        ((asciiChar r.ones).toNat - 48) := rfl
  rw [value, toNat_asciiChar hundreds.isAscii, toNat_asciiChar tens.isAscii, toNat_asciiChar ones.isAscii]
  unfold IsDigit at hundreds tens ones
  omega

variable {status : List Char}

theorem statusLine_text (bytes : encode status = r.statusLine) :
    ∃ reason, status = r.versionBytes.map asciiChar ++ ' ' :: (r.codeBytes.map asciiChar ++ ' ' :: reason) := by
  obtain ⟨version, _, rfl, versionBytes, restBytes⟩ := encode_split (by decide : IsAscii 32) bytes
  obtain ⟨code, reason, rfl, codeBytes, _⟩ := encode_split (by decide : IsAscii 32) restBytes
  refine ⟨reason, ?_⟩
  rw [eq_map_of_encode_ascii (fun b member => (r.versionBytes_ascii b member).1) versionBytes,
    eq_map_of_encode_ascii (fun b member => (r.codeBytes_digits b member).isAscii) codeBytes]
  rfl

/-- **The scan finds the content length of a head that is UTF-8.** -/
theorem scanContentLength_head {text : String} (read : fromUtf8 r.head = some text) :
    scanContentLength r.head = scannedLength r.contentLength := by
  obtain ⟨h⟩ := r.head_text (encode_of_fromUtf8 read)
  rw [scanContentLength, read]
  change (lines text.toList).foldl scanLine none = _
  rw [h.lines_eq, foldl_cons]
  apply foldl_sets
  · intro line member
    obtain ⟨field, listed, value, rfl, bytes⟩ := h.exists_field member
    by_cases own : field.Is "content-length"
    · exact Or.inr (Field.scanLine_own own (r.agreed field listed own) bytes)
    · exact Or.inl (fun _ => if_neg fun scanned => own ((field.scanned_iff value).mp scanned))
  · obtain ⟨field, listed, own⟩ := r.announced
    have present : field.line ∈ h.fieldTexts.map encode := by
      rw [h.fieldBytes]
      exact mem_map_of_mem listed
    obtain ⟨line, member, same⟩ := mem_map.mp present
    obtain ⟨value, rfl, bytes⟩ := field.text same
    exact ⟨_, member, Field.scanLine_own own (r.agreed field listed own) bytes⟩

theorem parseStatusLine_ok (bytes : encode status = r.statusLine) :
    ∃ code reason, parseStatusLine status = .ok (code, reason) := by
  obtain ⟨reason, rfl⟩ := r.statusLine_text bytes
  have noBlank {bytes : List UInt8} : (∀ b ∈ bytes, IsAscii b ∧ b ≠ 32) → ' ' ∉ bytes.map asciiChar :=
    @asciiChar_not_mem 32 _ (by decide)
  have codeBlank := noBlank fun b member => (r.codeBytes_digits b member).notBlank
  have nonempty : r.codeBytes ≠ [] := cons_ne_nil _ _
  have parsed : parseUnsigned (2 ^ 16) (r.codeBytes.map asciiChar) = some (decimalValue r.codeBytes) := by
    rw [parseUnsigned_digits nonempty r.codeBytes_digits, if_pos r.code_lt]
  refine ⟨decimalValue r.codeBytes, reason, ?_⟩
  rw [parseStatusLine, splitn_append (noBlank r.versionBytes_ascii), splitn_append codeBlank]
  simp only [parsed]
  rfl

theorem readHeaders_unchunked {text : List Char} (h : r.HeadText text) :
    (readHeaders h.fieldTexts).isChunked = false := by
  have each : ∀ line ∈ h.fieldTexts, ∀ headers : Headers, headers.isChunked = false →
      (readHeader headers line).isChunked = false := by
    intro line member headers plain
    obtain ⟨field, listed, value, rfl, _⟩ := h.exists_field member
    exact Field.readHeader_unchunked (r.unchunked field listed) headers plain value
  have start : (⟨[], false⟩ : Headers).isChunked = false := rfl
  exact foldlRecOn (motive := fun headers => headers.isChunked = false) h.fieldTexts readHeader start
    fun headers plain line member => each line member headers plain

end Response

/-! ## The parser on what has arrived -/

theorem blankLine_of_blankText {text : List Char} {i : Nat} (occurs : blankText <+: text.drop i) :
    blankLine <+: (encode text).drop (encode (text.take i)).length := by
  obtain ⟨tail, whole⟩ := occurs
  have cut : encode text = encode (text.take i) ++ (encode blankText ++ encode tail) := by
    rw [← encode_append, whole, ← encode_append, take_append_drop]
  rw [cut, drop_left]
  exact prefix_append _ _

theorem exists_text_before_blank {text : List Char} {left right : List UInt8}
    (bytes : encode text = left ++ blankLine ++ right) :
    ∃ before after, text = before ++ blankText ++ after ∧ encode before = left := by
  rw [append_assoc] at bytes
  obtain ⟨before, rest, rfl, sameLeft, restBytes⟩ := encode_split (by decide : IsAscii 13) bytes
  obtain ⟨rest, rfl, -⟩ := @encode_ascii_append _ [10, 13, 10] right (by simp [IsAscii]) restBytes
  exact ⟨before, rest, by rw [append_assoc]; rfl, sameLeft⟩

namespace Response

variable (r : Response)


theorem findSub_text {text : List Char} {part : List UInt8} (bytes : encode text = r.head ++ blankLine ++ part) :
    ∃ i, findSub blankText text = some i ∧ encode (text.take i) = r.head := by
  obtain ⟨headText, rest, rfl, headBytes⟩ := exists_text_before_blank bytes
  refine ⟨headText.length, findSub_first (cons_ne_nil _ _) ?_ ?_, by rw [append_assoc, take_left, headBytes]⟩
  · rw [append_assoc, drop_left]
    exact prefix_append blankText rest
  · -- an earlier blank line would be one of the bytes in front of the end of the head
    intro j before occurs
    have early := blankLine_of_blankText occurs
    rw [bytes, append_assoc r.head] at early
    have behind := r.head_le_of_blankLine early
    have shorter : (headText ++ blankText ++ rest).take j = headText.take j := by
      rw [append_assoc, take_append_of_le_length (by omega)]
    have whole : encode headText = encode (headText.take j) ++ encode (headText.drop j) := by
      rw [← encode_append, take_append_drop]
    have more : encode (headText.drop j) ≠ [] := by
      intro empty
      have nothing := congrArg length (encode_eq_nil empty)
      rw [length_drop, length_nil] at nothing
      omega
    have lengths := congrArg length whole
    rw [headBytes, length_append] at lengths
    rw [shorter] at behind
    have positive := length_pos_of_ne_nil more
    omega

/-- **On a complete head the parser returns what is behind it.** -/
theorem parseResponse_complete {part : List UInt8} {text : String}
    (read : fromUtf8 (r.head ++ blankLine ++ part) = some text) :
    ∃ response, parseResponse (r.head ++ blankLine ++ part) = some (.ok response) ∧ response.body = part := by
  obtain ⟨i, found, headBytes⟩ := r.findSub_text (encode_of_fromUtf8 read)
  obtain ⟨h⟩ := r.head_text headBytes
  obtain ⟨code, reason, status⟩ := r.parseStatusLine_ok h.statusBytes
  have body : (r.head ++ blankLine ++ part).drop (r.head.length + 4) = part := drop_left' (by rw [length_append]; rfl)
  refine ⟨⟨code, reason, (readHeaders h.fieldTexts).fields, part⟩, ?_, rfl⟩
  rw [parseResponse, read]
  simp only [parseText, found, h.lines_eq, status, r.readHeaders_unchunked h, headBytes, body]
  rfl

end Response

theorem parseResponse_ok {data : List UInt8} {response : HttpResponse}
    (parsed : parseResponse data = some (.ok response)) :
    ∃ text, fromUtf8 data = some text ∧ ∃ i, blankLine <+: data.drop i := by
  unfold parseResponse at parsed
  cases read : fromUtf8 data with
  | none =>
    rw [read] at parsed
    cases parsed
  | some text =>
    rw [read] at parsed
    dsimp only [parseText] at parsed
    cases found : findSub blankText text.toList with
    | none =>
      rw [found] at parsed
      cases parsed
    | some i =>
      have occurs := blankLine_of_blankText (findSub_sound found).1
      rw [encode_of_fromUtf8 read] at occurs
      exact ⟨text, rfl, _, occurs⟩

end HavyOs.Http
