import HavyOs.Lib.Outcome
import Mathlib.Algebra.GroupWithZero.Nat
import Mathlib.Tactic.Common

/-!
# DNS messages

`parse_response` and `build_query` of `dns.rs`, and what a message is: names that end with a zero
byte or a compression pointer, questions, and resource records, as relations between positions of a
packet. The parser is sound: an address it returns is that of an A record in the answer section.
-/

namespace HavyOs.Dns

open List
open UInt8 (ofNat)

abbrev Packet := List UInt8

structure Ipv4Address where
  a : UInt8
  b : UInt8
  c : UInt8
  d : UInt8
deriving DecidableEq

def Ipv4Address.octets (addr : Ipv4Address) : List UInt8 := [addr.a, addr.b, addr.c, addr.d]

def dnsTypeA : UInt16 := 1

def dnsClassIn : UInt16 := 1

def dnsFlagRd : UInt16 := 0x0100

def dnsFlagQr : UInt16 := 0x8000

def dnsRcodeMask : UInt16 := 0x000F

def dnsRcodeNxdomain : UInt16 := 3

variable (packet : Packet)

def byteAt (pos : Nat) : UInt8 := (packet[pos]?).getD 0

/-- `u16::from_be_bytes` of the two bytes at a position. -/
def be16 (pos : Nat) : UInt16 :=
  UInt16.ofNat (256 * (byteAt packet pos).toNat + (byteAt packet (pos + 1)).toNat)

def toBe16 (x : UInt16) : List UInt8 := [ofNat (x.toNat / 256), ofNat x.toNat]

/-! ## Queries -/

/-- A label with its length in front, if it has a length that can be written. -/
def encodeLabel (label : List UInt8) : List UInt8 :=
  if 0 < label.length ∧ label.length ≤ 63 then ofNat label.length :: label else []

/-- The loop of `encode_domain_name`: `label` is what was read since the last dot. -/
def encodeFrom (label : List UInt8) : List UInt8 → List UInt8
  | [] => encodeLabel label ++ [0]
  | ch :: rest => if ch = 46 then encodeLabel label ++ encodeFrom [] rest else encodeFrom (label ++ [ch]) rest

variable (hostname : List UInt8)

def encodeDomainName : List UInt8 := encodeFrom [] hostname

/-- `build_query` with the transaction id that `next_transaction_id` returns. -/
def buildQuery (txid : UInt16) (hostname : List UInt8) : Packet :=
  toBe16 txid ++ toBe16 dnsFlagRd ++ toBe16 1 ++ toBe16 0 ++ toBe16 0 ++ toBe16 0 ++ encodeDomainName hostname ++
    toBe16 dnsTypeA ++ toBe16 dnsClassIn

/-! ## Responses -/

def skipName (pos : Nat) : Except String Nat :=
  if _outside : packet.length ≤ pos then .error "Name extends past packet"
  else
    let len := byteAt packet pos
    if len = 0 then .ok (pos + 1)
    else if len &&& 0xC0 = 0xC0 then .ok (pos + 2)
    else if packet.length < pos + 1 + len.toNat then .error "Label extends past packet"
    else skipName (pos + 1 + len.toNat)
termination_by packet.length - pos

def skipQuestions : Nat → Nat → Except String Nat
  | 0, pos => .ok pos
  | count + 1, pos => do
    let pos ← skipName packet pos
    if packet.length < pos + 4 then .error "Truncated question" else skipQuestions count (pos + 4)

def addressAt (pos : Nat) : Ipv4Address :=
  ⟨byteAt packet pos, byteAt packet (pos + 1), byteAt packet (pos + 2), byteAt packet (pos + 3)⟩

def parseAnswers : Nat → Nat → List Ipv4Address → Except String (List Ipv4Address)
  | 0, _, addresses => .ok addresses
  | count + 1, pos, addresses =>
    if packet.length ≤ pos then .ok addresses
    else do
      let pos ← skipName packet pos
      if packet.length < pos + 10 then .error "Truncated answer"
      else
        let rdlength := (be16 packet (pos + 8)).toNat
        if packet.length < pos + 10 + rdlength then .error "Truncated RDATA"
        else if be16 packet pos = dnsTypeA ∧ be16 packet (pos + 2) = dnsClassIn ∧ rdlength = 4 then
          parseAnswers count (pos + 10 + rdlength) (addresses ++ [addressAt packet (pos + 10)])
        else parseAnswers count (pos + 10 + rdlength) addresses

inductive DnsResult where
  | resolved (addresses : List Ipv4Address)
  | notFound
  | error (message : String)
  | wrongId
deriving DecidableEq

def parseSections : Except String (List Ipv4Address) := do
  let pos ← skipQuestions packet (be16 packet 4).toNat 12
  parseAnswers packet (be16 packet 6).toNat pos []

def parseResponse (expectedTxid : UInt16) : DnsResult :=
  if packet.length < 12 then .error "Packet too short"
  else if be16 packet 0 ≠ expectedTxid then .wrongId
  else if be16 packet 2 &&& dnsFlagQr = 0 then .error "Not a response"
  else if be16 packet 2 &&& dnsRcodeMask = dnsRcodeNxdomain then .notFound
  else if be16 packet 2 &&& dnsRcodeMask ≠ 0 then .error "DNS server error"
  else if be16 packet 6 = 0 then .notFound
  else
    match parseSections packet with
    | .error message => .error message
    | .ok addresses => if addresses.isEmpty then .notFound else .resolved addresses

/-! ## What a message holds -/

/-- The name at `pos` takes the bytes in front of `stop`. -/
inductive NameEnds (packet : Packet) : Nat → Nat → Prop where
  | root {pos : Nat} : packet[pos]? = some 0 → NameEnds packet pos (pos + 1)
  | pointer {pos : Nat} {len : UInt8} : packet[pos]? = some len → len &&& 0xC0 = 0xC0 → NameEnds packet pos (pos + 2)
  | label {pos stop : Nat} {len : UInt8} : packet[pos]? = some len → len ≠ 0 → len &&& 0xC0 ≠ 0xC0 →
      NameEnds packet (pos + 1 + len.toNat) stop → NameEnds packet pos stop

/-- The name at `pos` has these labels; a pointer stands for the name at an offset of the packet. -/
inductive Spells (packet : Packet) : Nat → List (List UInt8) → Prop where
  | root {pos : Nat} : packet[pos]? = some 0 → Spells packet pos []
  | label {pos : Nat} {len : UInt8} {text : List UInt8} {rest : List (List UInt8)} : packet[pos]? = some len → len ≠ 0 →
      len ≤ 63 → text = (packet.drop (pos + 1)).take len.toNat → text.length = len.toNat →
      Spells packet (pos + 1 + len.toNat) rest → Spells packet pos (text :: rest)
  | pointer {pos : Nat} {len low : UInt8} {labels : List (List UInt8)} : packet[pos]? = some len →
      packet[pos + 1]? = some low →
      len &&& 0xC0 = 0xC0 → Spells packet (256 * (len &&& 0x3F).toNat + low.toNat) labels → Spells packet pos labels

/-- `count` questions from `pos` on end at `stop`. -/
inductive QuestionsEnd (packet : Packet) : Nat → Nat → Nat → Prop where
  | none (pos : Nat) : QuestionsEnd packet 0 pos pos
  | next {count pos name stop : Nat} : NameEnds packet pos name → name + 4 ≤ packet.length →
      QuestionsEnd packet count (name + 4) stop → QuestionsEnd packet (count + 1) pos stop

/-- One of `count` questions from `pos` on begins at `start`. -/
inductive QuestionAt (packet : Packet) : Nat → Nat → Nat → Prop where
  | here {count pos name : Nat} : NameEnds packet pos name → name + 4 ≤ packet.length →
      QuestionAt packet (count + 1) pos pos
  | later {count pos name start : Nat} : NameEnds packet pos name → name + 4 ≤ packet.length →
      QuestionAt packet count (name + 4) start → QuestionAt packet (count + 1) pos start

/-- A resource record, without its name and its time to live. -/
structure ResourceRecord where
  rtype : UInt16
  rclass : UInt16
  rdata : List UInt8

/-- The record at `pos` is `record` and ends in front of `stop`. -/
inductive RecordAt (packet : Packet) (pos : Nat) : ResourceRecord → Nat → Prop where
  | mk {name : Nat} : NameEnds packet pos name → name + 10 + (be16 packet (name + 8)).toNat ≤ packet.length →
      RecordAt packet pos
        ⟨be16 packet name, be16 packet (name + 2), (packet.drop (name + 10)).take (be16 packet (name + 8)).toNat⟩
        (name + 10 + (be16 packet (name + 8)).toNat)

/-- One of `count` records from `pos` on is `record`. -/
inductive AnswerAt (packet : Packet) (record : ResourceRecord) : Nat → Nat → Prop where
  | here {count pos stop : Nat} : RecordAt packet pos record stop → AnswerAt packet record (count + 1) pos
  | later {count pos stop : Nat} {other : ResourceRecord} : RecordAt packet pos other stop →
      AnswerAt packet record count stop →
      AnswerAt packet record (count + 1) pos

/-- The records from `pos` on are `records`: `count` of them, or fewer if the packet ends before. -/
inductive RecordsUpTo (packet : Packet) : Nat → Nat → List ResourceRecord → Prop where
  | none (pos : Nat) : RecordsUpTo packet 0 pos []
  | past {count pos : Nat} : packet.length ≤ pos → RecordsUpTo packet count pos []
  | next {count pos stop : Nat} {record : ResourceRecord} {records : List ResourceRecord} :
      RecordAt packet pos record stop →
      RecordsUpTo packet count stop records → RecordsUpTo packet (count + 1) pos (record :: records)

/-- The address of an A record with four bytes. -/
def ResourceRecord.address (record : ResourceRecord) : Option Ipv4Address :=
  match record.rdata with
  | [a, b, c, d] => if record.rtype = dnsTypeA ∧ record.rclass = dnsClassIn then some ⟨a, b, c, d⟩ else none
  | _ => none

/-- The header is that of a response of the transaction, without an error. -/
structure NoError (packet : Packet) (txid : UInt16) : Prop where
  header : 12 ≤ packet.length
  id : be16 packet 0 = txid
  response : be16 packet 2 &&& dnsFlagQr ≠ 0
  rcode : be16 packet 2 &&& dnsRcodeMask = 0

/-- A response without an error, with these addresses in its answer section. -/
structure Answers (packet : Packet) (txid : UInt16) (addresses : List Ipv4Address) :
    Prop extends NoError packet txid where
  sections : ∃ start records, QuestionsEnd packet (be16 packet 4).toNat 12 start ∧
    RecordsUpTo packet (be16 packet 6).toNat start records ∧ addresses = records.filterMap ResourceRecord.address

/-- The answer section of the packet has an A record with this address. -/
def HasARecord (addr : Ipv4Address) : Prop :=
  ∃ start, QuestionsEnd packet (be16 packet 4).toNat 12 start ∧
    AnswerAt packet ⟨dnsTypeA, dnsClassIn, addr.octets⟩ (be16 packet 6).toNat start

/-- The labels of a host name, as far as they can be written. -/
def labelsFrom (label : List UInt8) : List UInt8 → List (List UInt8)
  | [] => if 0 < label.length ∧ label.length ≤ 63 then [label] else []
  | ch :: rest =>
    if ch = 46 then (if 0 < label.length ∧ label.length ≤ 63 then [label] else []) ++ labelsFrom [] rest
    else labelsFrom (label ++ [ch]) rest

def queriedName : List (List UInt8) := labelsFrom [] hostname

def lowerCase (ch : UInt8) : UInt8 := if 65 ≤ ch ∧ ch ≤ 90 then ch + 32 else ch

variable (labels : List (List UInt8))

/-- Names are compared without regard to case. -/
def SameName (other : List (List UInt8)) : Prop := labels.map (·.map lowerCase) = other.map (·.map lowerCase)

/-- The question section of the packet carries the name of a query for `hostname`. -/
def Asks : Prop :=
  ∃ pos labels, QuestionAt packet (be16 packet 4).toNat 12 pos ∧ Spells packet pos labels ∧
    SameName labels (queriedName hostname)

/-! ## The parser is sound -/

variable {packet : Packet} {pos : Nat}

theorem getElem?_of_lt (inside : pos < packet.length) : packet[pos]? = some (byteAt packet pos) := by
  rw [byteAt, getElem?_eq_getElem inside, Option.getD_some]

theorem skipName_sound {stop : Nat} (skipped : skipName packet pos = .ok stop) : NameEnds packet pos stop := by
  fun_induction skipName packet pos with
  | case1 pos outside => cases skipped
  | case2 pos outside len zero =>
    cases skipped
    exact .root (by rw [getElem?_of_lt (by omega)]; exact congrArg some zero)
  | case3 pos outside len nonzero pointer =>
    cases skipped
    exact .pointer (getElem?_of_lt (by omega)) pointer
  | case4 pos outside len nonzero label long => cases skipped
  | case5 pos outside len nonzero label fits ih => exact .label (getElem?_of_lt (by omega)) nonzero label (ih skipped)

theorem byteAt_of_getElem? {b : UInt8} (read : packet[pos]? = some b) :
    byteAt packet pos = b ∧ pos < packet.length := by
  obtain ⟨inside, -⟩ := List.getElem?_eq_some_iff.mp read
  rw [byteAt, read]
  exact ⟨rfl, inside⟩

section

variable {stop : Nat} (ends : NameEnds packet pos stop)
include ends

theorem NameEnds.inside : pos < packet.length := by
  cases ends with
  | root read => exact (byteAt_of_getElem? read).2
  | pointer read _ => exact (byteAt_of_getElem? read).2
  | label read _ _ _ => exact (byteAt_of_getElem? read).2

theorem skipName_complete : skipName packet pos = .ok stop := by
  induction ends with
  | root read =>
    obtain ⟨zero, inside⟩ := byteAt_of_getElem? read
    rw [skipName, dif_neg (by omega), zero]
    exact if_pos rfl
  | pointer read pointer =>
    obtain ⟨len, inside⟩ := byteAt_of_getElem? read
    rw [skipName, dif_neg (by omega), len]
    dsimp only
    split_ifs with zero
    · rw [zero] at pointer
      exact absurd pointer (by decide)
    · rfl
  | label read nonzero label rest ih =>
    obtain ⟨len, inside⟩ := byteAt_of_getElem? read
    have fits := rest.inside
    rw [skipName, dif_neg (by omega), len]
    simp only [nonzero, label, if_false, ih]
    exact if_neg (by omega)

theorem NameEnds.unique {stop' : Nat} (ends' : NameEnds packet pos stop') : stop = stop' :=
  Except.ok.inj ((skipName_complete ends).symm.trans (skipName_complete ends'))

end

theorem skipQuestions_sound : ∀ {count pos stop : Nat}, skipQuestions packet count pos = .ok stop →
    QuestionsEnd packet count pos stop := by
  intro count
  induction count with
  | zero =>
    intro pos stop skipped
    cases skipped
    exact .none pos
  | succ count ih =>
    intro pos stop skipped
    obtain ⟨_, named, skipped⟩ := Lib.ok_of_bind skipped
    split_ifs at skipped
    exact .next (skipName_sound named) (by omega) (ih skipped)

theorem addressAt_octets (inside : pos + 4 ≤ packet.length) :
    (packet.drop pos).take 4 = (addressAt packet pos).octets := by
  apply ext_getElem?
  intro i
  by_cases small : i < 4
  · rw [getElem?_take_of_lt small, getElem?_drop, getElem?_of_lt (by omega)]
    match i, small with
    | 0, _ => rfl
    | 1, _ => rfl
    | 2, _ => rfl
    | 3, _ => rfl
  · rw [getElem?_eq_none (by rw [length_take]; omega), getElem?_eq_none]
    change 4 ≤ i
    omega

/-! ## The parser is complete -/

section Complete

variable {count : Nat}

theorem skipQuestions_complete {stop : Nat} (ends : QuestionsEnd packet count pos stop) :
    skipQuestions packet count pos = .ok stop := by
  induction ends with
  | none pos => rfl
  | next name fits _ ih =>
    rw [skipQuestions, skipName_complete name]
    exact (if_neg (by omega)).trans ih

theorem address_at {name : Nat} (fits : name + 10 + (be16 packet (name + 8)).toNat ≤ packet.length) :
    (ResourceRecord.mk (be16 packet name) (be16 packet (name + 2))
      ((packet.drop (name + 10)).take (be16 packet (name + 8)).toNat)).address =
      if be16 packet name = dnsTypeA ∧ be16 packet (name + 2) = dnsClassIn ∧ (be16 packet (name + 8)).toNat = 4 then
        some (addressAt packet (name + 10)) else none := by
  by_cases four : (be16 packet (name + 8)).toNat = 4
  · simp only [four, addressAt_octets (four ▸ fits), and_true]
    rfl
  · rw [if_neg fun all => four all.2.2, ResourceRecord.address]
    split
    · rename_i data
      have length := congrArg length data
      simp at length
      omega
    · rfl

/-- Parsing the answers gives the addresses of the records. -/
theorem parseAnswers_complete {records : List ResourceRecord} (answers : RecordsUpTo packet count pos records)
    (addresses : List Ipv4Address) :
    parseAnswers packet count pos addresses = .ok (addresses ++ records.filterMap ResourceRecord.address) := by
  induction answers generalizing addresses with
  | none pos => rw [parseAnswers, filterMap_nil, append_nil]
  | @past count pos past =>
    rw [filterMap_nil, append_nil]
    cases count with
    | zero => rfl
    | succ count => rw [parseAnswers, if_pos past]
  | next record _ ih =>
    obtain ⟨named, fits⟩ := record
    rw [parseAnswers, if_neg (Nat.not_le.mpr named.inside), skipName_complete named]
    change (if _ then _ else _) = _
    rw [if_neg (by omega), if_neg (by omega), filterMap_cons, address_at fits]
    split
    · rw [ih, append_assoc]
      rfl
    · exact ih _

theorem parseAnswers_sound : ∀ {count pos : Nat} {addresses found : List Ipv4Address},
    parseAnswers packet count pos addresses = .ok found →
      ∃ records, RecordsUpTo packet count pos records ∧
        found = addresses ++ records.filterMap ResourceRecord.address := by
  intro count
  induction count with
  | zero =>
    intro pos addresses found parsed
    cases parsed
    exact ⟨[], .none pos, (append_nil _).symm⟩
  | succ count ih =>
    intro pos addresses found parsed
    rw [parseAnswers] at parsed
    split at parsed
    · rename_i past
      cases parsed
      exact ⟨[], .past past, (append_nil _).symm⟩
    · obtain ⟨name, named, parsed⟩ := Lib.ok_of_bind parsed
      split_ifs at parsed
      dsimp only at parsed
      split at parsed
      · cases parsed
      · have fits : name + 10 + (be16 packet (name + 8)).toNat ≤ packet.length := by omega
        have record : RecordAt packet pos _ _ := .mk (skipName_sound named) fits
        split_ifs at parsed with isA
        · obtain ⟨records, later, rfl⟩ := ih parsed
          refine ⟨_, .next record later, ?_⟩
          rw [filterMap_cons, address_at fits, if_pos isA, append_assoc]
          rfl
        · obtain ⟨records, later, rfl⟩ := ih parsed
          refine ⟨_, .next record later, ?_⟩
          rw [filterMap_cons, address_at fits, if_neg isA]

theorem parseSections_iff {addresses : List Ipv4Address} : parseSections packet = .ok addresses ↔
    ∃ start records, QuestionsEnd packet (be16 packet 4).toNat 12 start ∧
      RecordsUpTo packet (be16 packet 6).toNat start records ∧
      addresses = records.filterMap ResourceRecord.address := by
  constructor
  · intro parsed
    obtain ⟨start, skipped, answers⟩ := Lib.ok_of_bind parsed
    obtain ⟨records, found, same⟩ := parseAnswers_sound answers
    exact ⟨start, records, skipQuestions_sound skipped, found, same⟩
  · rintro ⟨start, records, questions, answers, rfl⟩
    rw [parseSections, skipQuestions_complete questions]
    exact parseAnswers_complete answers []

end Complete

/-! ## What the parser returns -/

section Results

variable {txid : UInt16} {addresses : List Ipv4Address}

/-- In a response without an error the sections are parsed. -/
theorem parseResponse_of_noError (good : NoError packet txid) : parseResponse packet txid =
    if be16 packet 6 = 0 then .notFound
    else
      match parseSections packet with
      | .error message => .error message
      | .ok addresses => if addresses.isEmpty then .notFound else .resolved addresses := by
  rw [parseResponse, if_neg (by have := good.header; omega), if_neg (not_not.mpr good.id), if_neg good.response,
    good.rcode,
    if_neg (by decide), if_neg (not_not.mpr rfl)]

/-- **Addresses are returned for an answer that has some, and they are the addresses of the answer.** -/
theorem parseResponse_resolved_iff :
    parseResponse packet txid = .resolved addresses ↔ Answers packet txid addresses ∧ addresses ≠ [] := by
  constructor
  · intro parsed
    have good : NoError packet txid := by
      unfold parseResponse at parsed
      iterate 5
        split at parsed
        · cases parsed
      rename_i long id response _ rcode
      exact ⟨by omega, by simpa using id, response, by simpa using rcode⟩
    rw [parseResponse_of_noError good] at parsed
    split_ifs at parsed
    cases sections : parseSections packet with
    | error message =>
      rw [sections] at parsed
      cases parsed
    | ok found =>
      rw [sections] at parsed
      dsimp only at parsed
      split_ifs at parsed with some
      cases parsed
      exact ⟨⟨good, parseSections_iff.mp sections⟩, by simpa using some⟩
  · rintro ⟨⟨good, start, records, questions, answers, rfl⟩, some⟩
    rw [parseResponse_of_noError good, parseSections_iff.mpr ⟨start, records, questions, answers, rfl⟩]
    split_ifs with none
    · rw [none] at answers
      cases answers <;> exact absurd rfl some
    · exact if_neg (by simpa using some)

/-- A packet of another transaction is passed over, and only such a packet. -/
theorem parseResponse_wrongId_iff :
    parseResponse packet txid = .wrongId ↔ 12 ≤ packet.length ∧ be16 packet 0 ≠ txid := by
  constructor
  · intro parsed
    unfold parseResponse at parsed
    split_ifs at parsed with short other
    · exact ⟨by omega, other⟩
    · cases sections : parseSections packet with
      | error message =>
        rw [sections] at parsed
        cases parsed
      | ok found =>
        rw [sections] at parsed
        dsimp only at parsed
        split_ifs at parsed
  · rintro ⟨long, other⟩
    rw [parseResponse, if_neg (by omega), if_pos other]

theorem RecordsUpTo.answerAt {count : Nat} {records : List ResourceRecord}
    (found : RecordsUpTo packet count pos records) :
    ∀ record ∈ records, AnswerAt packet record count pos := by
  induction found with
  | none | past => exact nofun
  | next here _ ih =>
    intro record member
    obtain rfl | later := mem_cons.mp member
    · exact .here here
    · exact .later here (ih record later)

theorem ResourceRecord.eq_of_address {record : ResourceRecord} {addr : Ipv4Address} (has : record.address = some addr) :
    record = ⟨dnsTypeA, dnsClassIn, addr.octets⟩ := by
  obtain ⟨rtype, rclass, rdata⟩ := record
  unfold address at has
  split at has
  · rename_i four
    split_ifs at has with isA
    cases has
    obtain ⟨rfl, rfl⟩ := isA
    exact congrArg _ four
  · cases has

/-- An address of an answer is that of an A record. -/
theorem Answers.hasARecord (answers : Answers packet txid addresses) {addr : Ipv4Address} (member : addr ∈ addresses) :
    HasARecord packet addr := by
  obtain ⟨-, start, records, questions, found, rfl⟩ := answers
  obtain ⟨record, inside, has⟩ := mem_filterMap.mp member
  exact ⟨start, questions, ResourceRecord.eq_of_address has ▸ found.answerAt record inside⟩

end Results

/-! ## The query -/

def encodeLabels : List UInt8 := labels.flatMap (fun label => ofNat label.length :: label) ++ [0]

def Writable (label : List UInt8) : Prop := 0 < label.length ∧ label.length ≤ 63

theorem encodeFrom_eq (label hostname : List UInt8) :
    encodeFrom label hostname = encodeLabels (labelsFrom label hostname) := by
  induction hostname generalizing label with
  | nil =>
    unfold encodeFrom labelsFrom encodeLabel encodeLabels
    split
    · simp
    · simp
  | cons ch rest ih =>
    unfold encodeFrom labelsFrom
    split
    · rw [ih]
      unfold encodeLabel encodeLabels
      split
      · simp
      · simp
    · exact ih _

/-- The labels that are written are those between the dots that have a length that can be written. -/
theorem labelsFrom_eq {label : List UInt8} (plain : 46 ∉ label) (hostname : List UInt8) :
    labelsFrom label hostname = ((label ++ hostname).splitOn 46).filter fun l => 0 < l.length ∧ l.length ≤ 63 := by
  induction hostname generalizing label with
  | nil =>
    rw [labelsFrom, append_nil, splitOn_eq_singleton plain]
    simp [filter_cons]
  | cons ch rest ih =>
    rw [labelsFrom]
    split
    · rename_i dot
      rw [dot, splitOn_append_cons_self, splitOn_eq_singleton plain, filter_append, ih not_mem_nil]
      simp [filter_cons]
    · rename_i other
      rw [ih (by simpa using ⟨plain, Ne.symm other⟩), append_assoc, singleton_append]

theorem labelsFrom_writable : ∀ l ∈ labelsFrom [] hostname, Writable l := by
  intro l member
  rw [labelsFrom_eq not_mem_nil] at member
  rw [Writable]
  simpa using (mem_filter.mp member).2

theorem not_pointer_of_le {len : UInt8} (small : len ≤ 63) : len &&& 0xC0 ≠ 0xC0 := by
  intro pointer
  have bound : (0xC0 : UInt8).toNat ≤ len.toNat := by
    rw [← pointer]
    exact Nat.and_le_left
  have impossible : ¬ (0xC0 : UInt8).toNat ≤ (63 : UInt8).toNat := by decide
  exact impossible (Nat.le_trans bound small)

theorem spells_encodeLabels : ∀ (labels : List (List UInt8)) (front back : Packet), (∀ label ∈ labels, Writable label) →
    Spells (front ++ encodeLabels labels ++ back) front.length labels ∧
      NameEnds (front ++ encodeLabels labels ++ back) front.length (front.length + (encodeLabels labels).length) := by
  intro labels
  induction labels with
  | nil =>
    intro front back _
    have zero : (front ++ encodeLabels [] ++ back)[front.length]? = some 0 := by simp [encodeLabels]
    exact ⟨.root zero, .root zero⟩
  | cons label rest ih =>
    intro front back writable
    obtain ⟨_, short⟩ := writable label mem_cons_self
    have len : (ofNat label.length).toNat = label.length := by
      rw [UInt8.toNat_ofNat']
      omega
    have split : front ++ encodeLabels (label :: rest) ++ back =
        (front ++ ofNat label.length :: label) ++ encodeLabels rest ++ back := by simp [encodeLabels]
    have whole : (encodeLabels (label :: rest)).length = 1 + label.length + (encodeLabels rest).length := by
      simp [encodeLabels]
      omega
    obtain ⟨spells, ends⟩ := ih (front ++ ofNat label.length :: label) back fun l member =>
      writable l (mem_cons_of_mem _ member)
    have next : (front ++ ofNat label.length :: label).length = front.length + 1 + label.length := by
      rw [length_append, length_cons]
      omega
    rw [next] at spells ends
    rw [split]
    have first : ((front ++ ofNat label.length :: label) ++ encodeLabels rest ++ back)[front.length]? =
        some (ofNat label.length) := by simp
    have text :
      label = (((front ++ ofNat label.length :: label) ++ encodeLabels rest ++ back).drop (front.length + 1)).take
        (ofNat label.length).toNat := by
      rw [len]
      simp
    have nonzero : ofNat label.length ≠ 0 := by
      intro zero
      rw [zero] at len
      change 0 = label.length at len
      omega
    have small : ofNat label.length ≤ 63 := by
      rw [UInt8.le_iff_toNat_le, len]
      exact short
    constructor
    · refine .label first nonzero small text len.symm ?_
      rw [len]
      exact spells
    · refine .label first nonzero ?_ ?_
      · exact not_pointer_of_le small
      · rw [len, show front.length + (encodeLabels (label :: rest)).length =
          front.length + 1 + label.length + (encodeLabels rest).length by omega]
        exact ends

/-- The labels between the dots of a host name. A final dot is ignored, and the root has no labels. -/
def hostLabels : List (List UInt8) :=
  let name := if hostname.getLast? = some 46 then hostname.dropLast else hostname
  if name = [] then [] else name.splitOn 46

/-- Every label has 1 to 63 bytes, and the name with the lengths of its labels at most 255. -/
structure Encodable (hostname : List UInt8) : Prop where
  writable : ∀ label ∈ hostLabels hostname, Writable label
  short : ((hostLabels hostname).map (·.length + 1)).sum + 1 ≤ 255

/-- The first question names the host, in at most 255 bytes. -/
structure NamesHost (packet : Packet) (hostname : List UInt8) : Prop where
  spells : Spells packet 12 (hostLabels hostname)
  short : ∃ stop, NameEnds packet 12 stop ∧ stop ≤ 12 + 255

theorem Spells.writable {labels : List (List UInt8)} (spells : Spells packet pos labels) :
    ∀ label ∈ labels, Writable label := by
  induction spells with
  | root _ => exact fun _ member => absurd member not_mem_nil
  | label _ nonzero small _ length _ ih =>
    refine forall_mem_cons.mpr ⟨?_, ih⟩
    rw [Writable, length, Nat.pos_iff_ne_zero, Ne, ← UInt8.toNat_zero, UInt8.toNat_inj]
    exact ⟨nonzero, small⟩
  | pointer _ _ _ _ ih => exact ih

theorem length_encodeLabels :
    (encodeLabels labels).length = (labels.map (·.length + 1)).sum + 1 := by simp [encodeLabels]

theorem queriedName_eq {hostname : List UInt8} (writable : ∀ label ∈ hostLabels hostname, Writable label) :
    queriedName hostname = hostLabels hostname := by
  have kept : ∀ name : List UInt8, (∀ label ∈ (if name = [] then [] else name.splitOn 46), Writable label) →
      (name.splitOn 46).filter (fun l => 0 < l.length ∧ l.length ≤ 63) = if name = [] then [] else name.splitOn 46 := by
    intro name writable
    split_ifs with empty
    · rw [empty]
      rfl
    · rw [if_neg empty] at writable
      exact filter_eq_self.mpr fun label member => decide_eq_true (writable label member)
  rw [queriedName, labelsFrom_eq not_mem_nil, nil_append]
  by_cases dot : hostname.getLast? = some 46
  · obtain ⟨name, rfl⟩ := getLast?_eq_some_iff.mp dot
    simp only [hostLabels, dot, dropLast_concat] at writable ⊢
    rw [splitOn_append_cons_self, filter_append, kept name writable]
    simp
  · simp only [hostLabels, dot] at writable ⊢
    exact kept hostname writable

theorem buildQuery_name (txid : UInt16) (hostname : List UInt8) :
    Spells (buildQuery txid hostname) 12 (queriedName hostname) ∧
      NameEnds (buildQuery txid hostname) 12 (12 + (encodeLabels (queriedName hostname)).length) := by
  have query : buildQuery txid hostname =
      toBe16 txid ++ toBe16 dnsFlagRd ++ toBe16 1 ++ toBe16 0 ++ toBe16 0 ++ toBe16 0 ++
        encodeLabels (queriedName hostname) ++
        (toBe16 dnsTypeA ++ toBe16 dnsClassIn) := by
    rw [buildQuery, encodeDomainName, encodeFrom_eq, append_assoc _ (toBe16 dnsTypeA)]
    rfl
  rw [query]
  exact spells_encodeLabels (queriedName hostname) _ _ (labelsFrom_writable hostname)

/-- **The query names its host** exactly when the host name can be written: labels that cannot be are left out, and
nothing is refused. -/
theorem buildQuery_names_host_iff (txid : UInt16) (hostname : List UInt8) :
    NamesHost (buildQuery txid hostname) hostname ↔ Encodable hostname := by
  obtain ⟨spells, ends⟩ := buildQuery_name txid hostname
  constructor
  · rintro ⟨named, _, stops, _⟩
    have writable := named.writable
    rw [queriedName_eq writable, length_encodeLabels] at ends
    have same := ends.unique stops
    exact ⟨writable, by omega⟩
  · rintro ⟨writable, _⟩
    rw [queriedName_eq writable] at spells ends
    rw [length_encodeLabels] at ends
    exact ⟨spells, _, ends, by omega⟩

/-- A label of 64 bytes under `com`. -/
def longHost : List UInt8 := replicate 64 97 ++ [46, 99, 111, 109]

/-- A label that is too long is left out: the query asks for `com`. -/
theorem long_label_left_out : hostLabels longHost = [replicate 64 97, [99, 111, 109]] ∧
    Spells (buildQuery 1 longHost) 12 [[99, 111, 109]] ∧ ¬ NamesHost (buildQuery 1 longHost) longHost := by
  have labels : hostLabels longHost = [replicate 64 97, [99, 111, 109]] := by decide +kernel
  have written : queriedName longHost = [[99, 111, 109]] := by decide +kernel
  refine ⟨labels, written ▸ (buildQuery_name 1 longHost).1, fun named => ?_⟩
  have writable := named.spells.writable
  exact absurd (writable _ mem_cons_self).2 (by decide)

end HavyOs.Dns
