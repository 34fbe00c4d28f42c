import HavyOs.Dns.Message

/-!
# Parsing stays inside the packet and finds every address

The parser again, with reads that fail outside of the packet.
-/

namespace HavyOs.Dns

open List

/-! ## Reads that can fail -/

/-- What may read outside of the packet, where the source would panic. -/
abbrev Checked (α : Type) := ExceptT String Option α

variable (packet : Packet)

def readBe16 (pos : Nat) : Option UInt16 := do
  let high ← packet[pos]?
  let low ← packet[pos + 1]?
  pure (UInt16.ofNat (256 * high.toNat + low.toNat))

def readAddress (pos : Nat) : Option Ipv4Address := do
  pure ⟨← packet[pos]?, ← packet[pos + 1]?, ← packet[pos + 2]?, ← packet[pos + 3]?⟩

def skipNameChecked (pos : Nat) : Checked Nat :=
  if _outside : packet.length ≤ pos then throw "Name extends past packet"
  else do
    let len ← (packet[pos]? : Option UInt8)
    if len = 0 then pure (pos + 1)
    else if len &&& 0xC0 = 0xC0 then pure (pos + 2)
    else if packet.length < pos + 1 + len.toNat then throw "Label extends past packet"
    else skipNameChecked (pos + 1 + len.toNat)
termination_by packet.length - pos

def skipQuestionsChecked : Nat → Nat → Checked Nat
  | 0, pos => pure pos
  | count + 1, pos => do
    let pos ← skipNameChecked packet pos
    if packet.length < pos + 4 then throw "Truncated question" else skipQuestionsChecked count (pos + 4)

def parseAnswersChecked : Nat → Nat → List Ipv4Address → Checked (List Ipv4Address)
  | 0, _, addresses => pure addresses
  | count + 1, pos, addresses =>
    if packet.length ≤ pos then pure addresses
    else do
      let pos ← skipNameChecked packet pos
      if packet.length < pos + 10 then throw "Truncated answer"
      else
        let rtype ← (readBe16 packet pos : Option UInt16)
        let rclass ← (readBe16 packet (pos + 2) : Option UInt16)
        let rdlength ← (readBe16 packet (pos + 8) : Option UInt16)
        if packet.length < pos + 10 + rdlength.toNat then throw "Truncated RDATA"
        else if rtype = dnsTypeA ∧ rclass = dnsClassIn ∧ rdlength.toNat = 4 then
          let addr ← (readAddress packet (pos + 10) : Option Ipv4Address)
          parseAnswersChecked count (pos + 10 + rdlength.toNat) (addresses ++ [addr])
        else parseAnswersChecked count (pos + 10 + rdlength.toNat) addresses

def parseResponseChecked (expectedTxid : UInt16) : Option DnsResult := do
  if packet.length < 12 then return .error "Packet too short"
  let txid ← readBe16 packet 0
  if txid ≠ expectedTxid then return .wrongId
  let flags ← readBe16 packet 2
  if flags &&& dnsFlagQr = 0 then return .error "Not a response"
  if flags &&& dnsRcodeMask = dnsRcodeNxdomain then return .notFound
  if flags &&& dnsRcodeMask ≠ 0 then return .error "DNS server error"
  let qdcount ← readBe16 packet 4
  let ancount ← readBe16 packet 6
  if ancount = 0 then return .notFound
  match ← (skipQuestionsChecked packet qdcount.toNat 12 >>= fun pos =>
  parseAnswersChecked packet ancount.toNat pos []).run with
  | .error message => return .error message
  | .ok addresses => return if addresses.isEmpty then .notFound else .resolved addresses

/-- A result for which nothing outside of the packet was read. -/
def inside {α : Type} (result : Except String α) : Checked α := ExceptT.mk (some result)

section Reads

variable {packet : Packet} {pos : Nat} {α β : Type}

theorem readBe16_eq (fits : pos + 1 < packet.length) : readBe16 packet pos = some (be16 packet pos) := by
  rw [readBe16, getElem?_of_lt fits, getElem?_of_lt (Nat.lt_of_succ_lt fits)]
  rfl

theorem readAddress_eq (fits : pos + 4 ≤ packet.length) : readAddress packet pos = some (addressAt packet pos) := by
  rw [readAddress, getElem?_of_lt (by omega), getElem?_of_lt (by omega), getElem?_of_lt (by omega),
    getElem?_of_lt (by omega)]
  rfl

theorem read_bind {read : Option α} {a : α} (reads : read = some a) (next : α → Checked β) :
    (do let a ← read; next a) = next a := by
  rw [reads]
  rfl

theorem checked_bind {first : Except String α} {next : α → Checked β} {rest : α → Except String β}
    (same : ∀ a, next a = inside (rest a)) : (inside first >>= next) = inside (first >>= rest) := by
  cases first with
  | error message => rfl
  | ok a => exact same a

theorem skipNameChecked_eq (packet : Packet) (pos : Nat) :
    skipNameChecked packet pos = inside (skipName packet pos) := by
  fun_induction skipName packet pos with
  | case1 pos outside =>
    rw [skipNameChecked, dif_pos outside]
    rfl
  | case2 pos outside len zero =>
    rw [skipNameChecked, dif_neg outside, read_bind (getElem?_of_lt (by omega)), if_pos zero]
    rfl
  | case3 pos outside len nonzero pointer =>
    rw [skipNameChecked, dif_neg outside, read_bind (getElem?_of_lt (by omega)), if_neg nonzero, if_pos pointer]
    rfl
  | case4 pos outside len nonzero label long =>
    rw [skipNameChecked, dif_neg outside, read_bind (getElem?_of_lt (by omega)), if_neg nonzero, if_neg label,
      if_pos long]
    rfl
  | case5 pos outside len nonzero label fits ih =>
    rw [skipNameChecked, dif_neg outside, read_bind (getElem?_of_lt (by omega)), if_neg nonzero, if_neg label,
      if_neg fits]
    exact ih

theorem skipQuestionsChecked_eq (count pos : Nat) :
    skipQuestionsChecked packet count pos = inside (skipQuestions packet count pos) := by
  induction count generalizing pos with
  | zero => rfl
  | succ count ih =>
    rw [skipQuestionsChecked, skipNameChecked_eq]
    refine checked_bind fun name => ?_
    split
    · rfl
    · exact ih _

theorem parseAnswersChecked_eq (count pos : Nat) (addresses : List Ipv4Address) :
    parseAnswersChecked packet count pos addresses = inside (parseAnswers packet count pos addresses) := by
  induction count generalizing pos addresses with
  | zero => rfl
  | succ count ih =>
    rw [parseAnswersChecked, parseAnswers]
    split
    · rfl
    · rw [skipNameChecked_eq]
      refine checked_bind fun name => ?_
      split
      · rfl
      · rw [read_bind (readBe16_eq (by omega)), read_bind (readBe16_eq (by omega)), read_bind (readBe16_eq (by omega))]
        dsimp only
        split
        · rfl
        · split
          · rw [read_bind (readAddress_eq (by omega))]
            exact ih _ _
          · exact ih _ _

theorem parseResponseChecked_eq (packet : Packet) (txid : UInt16) :
    parseResponseChecked packet txid = some (parseResponse packet txid) := by
  rw [parseResponseChecked, parseResponse]
  split
  · rfl
  · rw [readBe16_eq (by omega), readBe16_eq (by omega), readBe16_eq (by omega), readBe16_eq (by omega)]
    simp only [skipQuestionsChecked_eq, checked_bind fun pos => parseAnswersChecked_eq _ pos [], Option.bind_eq_bind,
      Option.bind_some]
    split_ifs
    iterate 5 rfl
    change (match parseSections packet with | .error message => _ | .ok addresses => _) = _
    cases parseSections packet <;> rfl

end Reads

/-! ## Every address is found -/

/-- `count` records from `pos` on are `records`. -/
inductive RecordsAt (packet : Packet) : Nat → Nat → List ResourceRecord → Prop where
  | none (pos : Nat) : RecordsAt packet 0 pos []
  | next {count pos stop : Nat} {record : ResourceRecord} {records : List ResourceRecord} :
      RecordAt packet pos record stop →
      RecordsAt packet count stop records → RecordsAt packet (count + 1) pos (record :: records)

/-- A response without an error, whose sections are as long as its header says. -/
structure Response (packet : Packet) (txid : UInt16) (records : List ResourceRecord) : Prop extends
    NoError packet txid where
  sections : ∃ start, QuestionsEnd packet (be16 packet 4).toNat 12 start ∧
    RecordsAt packet (be16 packet 6).toNat start records

section Complete

variable {packet : Packet} {count pos : Nat}

theorem RecordsAt.upTo {records : List ResourceRecord} (answers : RecordsAt packet count pos records) :
    RecordsUpTo packet count pos records := by
  induction answers with
  | none pos => exact .none pos
  | next record _ ih => exact .next record ih

theorem parseResponse_complete {txid : UInt16} {records : List ResourceRecord}
    (response : Response packet txid records) :
    parseResponse packet txid =
      if (records.filterMap ResourceRecord.address).isEmpty then .notFound
      else .resolved (records.filterMap ResourceRecord.address) := by
  obtain ⟨good, start, questions, answers⟩ := response
  rw [parseResponse_of_noError good, parseSections_iff.mpr ⟨start, records, questions, answers.upTo, rfl⟩]
  split
  · rename_i none
    rw [none] at answers
    cases answers
    rfl
  · rfl

end Complete

/-- **Parsing a response.** No read is outside of the packet, whatever it holds, and from a response whose sections are
as long as its header says the addresses of the A records are returned, in their order. -/
theorem parseResponse_inside_exact (packet : Packet) (txid : UInt16) :
    parseResponseChecked packet txid = some (parseResponse packet txid) ∧
      ∀ records, Response packet txid records → parseResponse packet txid =
        if (records.filterMap ResourceRecord.address).isEmpty then .notFound
        else .resolved (records.filterMap ResourceRecord.address) :=
  ⟨parseResponseChecked_eq packet txid, fun _ => parseResponse_complete⟩

/-- A response with one question and one A record, whose name is a pointer to that of the question. -/
def oneAnswer : Packet :=
  [0, 1, 0x81, 0x80, 0, 1, 0, 1, 0, 0, 0, 0, 0, 0, 1, 0, 1, 0xC0, 12, 0, 1, 0, 1, 0, 0, 0, 60, 0, 4, 10, 0, 2, 15]

theorem parseResponse_inside_exact_one : Response oneAnswer 1 [⟨1, 1, [10, 0, 2, 15]⟩] ∧
    parseResponse oneAnswer 1 = .resolved [⟨10, 0, 2, 15⟩] := by
  have record : RecordAt oneAnswer 17 ⟨1, 1, [10, 0, 2, 15]⟩ 33 := .mk (.pointer rfl (by decide)) (by decide)
  have response : Response oneAnswer 1 [⟨1, 1, [10, 0, 2, 15]⟩] :=
    ⟨⟨by decide, rfl, by decide, by decide⟩, 17, .next (.root rfl) (by decide) (.none _), .next record (.none _)⟩
  exact ⟨response, (parseResponse_inside_exact oneAnswer 1).2 _ response⟩

end HavyOs.Dns
