import HavyOs.Dns.Message

/-!
# Resolving a host name

`resolve` of `dns.rs` over the datagrams that `udp_recv` hands out while it waits. The loop drops
where a datagram came from and looks at its transaction id only.
-/

namespace HavyOs.Dns

open List

def dnsPort : UInt16 := 53

structure Datagram where
  srcIp : Ipv4Address
  srcPort : UInt16
  data : Packet
deriving DecidableEq

/-- One turn of the loop: the clock, and the datagram that waits in the socket. -/
structure Round where
  now : Int64
  arrived : Option Datagram

def bufferLength : Nat := 512

/-- `udp_recv`: `recv_slice` drops a datagram that is longer than the buffer and fails. -/
def udpRecv (arrived : Option Datagram) : Option Datagram := arrived.filter fun d => d.data.length ≤ bufferLength

inductive Outcome where
  /-- The rounds are used up and the loop still runs. -/
  | waiting
  | returned (answer : Option Ipv4Address)
deriving DecidableEq

/-- A call of `resolve` with everything it meets. -/
structure Lookup where
  hostname : List UInt8
  dnsServer : Ipv4Address
  timeoutMs : Int64
  /-- `DNS_TRANSACTION_ID` before the call. -/
  counter : UInt16
  startTime : Int64
  /-- Whether `udp_send` takes a packet for an address and a port. -/
  udpSend : Ipv4Address → UInt16 → Packet → Bool
  rounds : List Round

namespace Lookup

variable (call : Lookup)

/-- `next_transaction_id`. -/
def txid : UInt16 := call.counter + 1

def query : Packet := buildQuery call.txid call.hostname

def sent : Bool := call.udpSend call.dnsServer dnsPort call.query

def timedOut (round : Round) : Prop := call.timeoutMs < round.now - call.startTime

instance (round : Round) : Decidable (call.timedOut round) :=
  inferInstanceAs (Decidable (call.timeoutMs < round.now - call.startTime))

/-- The loop of `resolve`. -/
def awaitReply : List Round → Outcome
  | [] => .waiting
  | round :: rest =>
    if call.timedOut round then .returned none
    else
      match udpRecv round.arrived with
      | none => awaitReply rest
      | some datagram =>
        match parseResponse datagram.data call.txid with
        | .resolved addresses => .returned addresses.head?
        | .notFound => .returned none
        | .error _ => .returned none
        | .wrongId => awaitReply rest

def resolve : Outcome := if call.sent then call.awaitReply call.rounds else .returned none

/-! ## What arrives -/

/-- The datagram arrives, and fits the buffer. -/
def Receives (round : Round) (datagram : Datagram) : Prop :=
  round.arrived = some datagram ∧ datagram.data.length ≤ bufferLength

/-- A turn in time, at which nothing arrives but what belongs to another transaction or does not fit the buffer. -/
def Passes (round : Round) : Prop :=
  ¬ call.timedOut round ∧
    ∀ datagram, Receives round datagram → 12 ≤ datagram.data.length ∧ be16 datagram.data 0 ≠ call.txid

/-- The datagram arrives in time, and before it nothing of this transaction does. -/
def FirstOf (rounds : List Round) (datagram : Datagram) : Prop :=
  ∃ before round after, rounds = before ++ round :: after ∧ (∀ earlier ∈ before, call.Passes earlier) ∧
    ¬ call.timedOut round ∧ Receives round datagram

/-- The datagram arrives while `resolve` waits. -/
def Awaited (datagram : Datagram) : Prop := call.sent = true ∧ call.FirstOf call.rounds datagram

def FromServer (datagram : Datagram) : Prop :=
  datagram.srcIp = call.dnsServer ∧ datagram.srcPort = dnsPort

/-- The datagram is the server's reply to the query, with an A record for `addr`. -/
structure Replies (call : Lookup) (datagram : Datagram) (addr : Ipv4Address) : Prop where
  record : HasARecord datagram.data addr
  source : call.FromServer datagram
  id : be16 datagram.data 0 = call.txid
  question : Asks datagram.data call.hostname

/-- An address that is returned was in a reply of the server. -/
def Trusted : Prop :=
  ∀ addr, call.resolve = .returned (some addr) → ∃ datagram, call.Awaited datagram ∧ call.Replies datagram addr

/-- If the first datagram of this transaction is a response without an error that has addresses, then the server sent
it, and it asks for the queried name. -/
def Genuine : Prop :=
  ∀ datagram addresses, call.Awaited datagram → Answers datagram.data call.txid addresses → addresses ≠ [] →
    call.FromServer datagram ∧ Asks datagram.data call.hostname

/-! ## The loop by what arrives -/

section

variable {call : Lookup} {round : Round} {rest : List Round} {datagram : Datagram}

theorem udpRecv_eq_some_iff : udpRecv round.arrived = some datagram ↔ Receives round datagram := by
  simp [udpRecv, Receives, Option.filter_eq_some_iff]

theorem firstOf_cons : call.FirstOf (round :: rest) datagram ↔
    ¬ call.timedOut round ∧ Receives round datagram ∨ call.Passes round ∧ call.FirstOf rest datagram := by
  constructor
  · rintro ⟨before, here, after, same, passed, inTime, arrives⟩
    cases before with
    | nil =>
      cases same
      exact .inl ⟨inTime, arrives⟩
    | cons earlier before =>
      cases same
      obtain ⟨first, passed⟩ := forall_mem_cons.mp passed
      exact .inr ⟨first, before, here, after, rfl, passed, inTime, arrives⟩
  · rintro (⟨inTime, arrives⟩ | ⟨first, before, here, after, rfl, passed, inTime, arrives⟩)
    · exact ⟨[], round, rest, rfl, nofun, inTime, arrives⟩
    · exact ⟨round :: before, here, after, rfl, forall_mem_cons.mpr ⟨first, passed⟩, inTime, arrives⟩

theorem not_receives (none : udpRecv round.arrived = none) : ¬ Receives round datagram := by
  intro arrives
  cases none.symm.trans (udpRecv_eq_some_iff.mpr arrives)

/-- A turn that receives a datagram passes if the datagram is of another transaction. -/
theorem passes_iff (inTime : ¬ call.timedOut round) (arrives : Receives round datagram) :
    call.Passes round ↔ parseResponse datagram.data call.txid = .wrongId := by
  rw [parseResponse_wrongId_iff]
  constructor
  · exact fun passes => passes.2 datagram arrives
  · intro foreign
    refine ⟨inTime, fun other received => ?_⟩
    cases arrives.1.symm.trans received.1
    exact foreign

/-- The loop returns an address when the first datagram of its transaction is an answer: its first address. -/
theorem awaitReply_returned_iff (addr : Ipv4Address) (rounds : List Round) :
    call.awaitReply rounds = .returned (some addr) ↔ ∃ datagram addresses, call.FirstOf rounds datagram ∧
      Answers datagram.data call.txid addresses ∧ addresses.head? = some addr := by
  induction rounds with
  | nil => simp [awaitReply, FirstOf]
  | cons round rest ih =>
    rw [awaitReply]
    by_cases late : call.timedOut round
    · simp [late, firstOf_cons, Passes]
    · rw [if_neg late]
      simp only [firstOf_cons, late, not_false_iff, true_and]
      cases received : udpRecv round.arrived with
      | none =>
        have passes : call.Passes round := ⟨late, fun _ arrives => absurd arrives (not_receives received)⟩
        simpa [not_receives received, passes] using ih
      | some datagram =>
        have arrives := udpRecv_eq_some_iff.mp received
        have only (other : Datagram) : Receives round other ↔ datagram = other :=
          udpRecv_eq_some_iff.symm.trans (by rw [received, Option.some.injEq])
        have answers (addresses : List Ipv4Address) : Answers datagram.data call.txid addresses ∧
          addresses.head? = some addr ↔
            parseResponse datagram.data call.txid = .resolved addresses ∧ addresses.head? = some addr := by
          rw [parseResponse_resolved_iff, and_assoc]
          refine and_congr_right fun _ => ⟨fun first => ⟨?_, first⟩, And.right⟩
          exact ne_nil_of_mem (mem_of_mem_head? first)
        simp only [passes_iff late arrives, only, or_and_right, exists_or, exists_and_left, exists_eq_left', answers,
          and_assoc]
        cases parseResponse datagram.data call.txid with
        | wrongId => simpa using ih
        | _ => simp

/-- One datagram of the transaction is the first. -/
theorem firstOf_unique {rounds : List Round} {other : Datagram} (first : call.FirstOf rounds datagram)
    (first' : call.FirstOf rounds other) (own : be16 datagram.data 0 = call.txid)
    (own' : be16 other.data 0 = call.txid) : datagram = other := by
  induction rounds with
  | nil =>
    obtain ⟨before, _, _, same, -⟩ := first
    cases before <;> cases same
  | cons round rest ih =>
    rw [firstOf_cons] at first first'
    obtain ⟨-, arrives⟩ | ⟨passed, later⟩ := first
    · obtain ⟨-, arrives'⟩ | ⟨passed, -⟩ := first'
      · exact Option.some.inj (arrives.1.symm.trans arrives'.1)
      · exact absurd own (passed.2 _ arrives).2
    · obtain ⟨-, arrives'⟩ | ⟨-, later'⟩ := first'
      · exact absurd own' (passed.2 _ arrives').2
      · exact ih later later'

end

/-- **An address can be trusted exactly when the first datagram of the transaction is no forged or foreign answer.** -/
theorem resolve_trusted_iff (call : Lookup) : call.Trusted ↔ call.Genuine := by
  have returns (addr : Ipv4Address) : call.resolve = .returned (some addr) ↔
      ∃ datagram addresses, call.Awaited datagram ∧ Answers datagram.data call.txid addresses ∧
        addresses.head? = some addr := by
    unfold resolve Awaited
    split_ifs with sent
    · simp only [awaitReply_returned_iff, sent, true_and]
    · simp [sent]
  constructor
  · intro trusted datagram addresses awaited answers nonempty
    obtain ⟨addr, first⟩ : ∃ addr, addresses.head? = some addr := ⟨_, head?_eq_some_head nonempty⟩
    obtain ⟨reply, arrived, replies⟩ := trusted addr ((returns addr).mpr ⟨datagram, addresses, awaited, answers, first⟩)
    rw [firstOf_unique awaited.2 arrived.2 answers.id replies.id]
    exact ⟨replies.source, replies.question⟩
  · intro genuine addr returned
    obtain ⟨datagram, addresses, awaited, answers, first⟩ := (returns addr).mp returned
    have member := mem_of_mem_head? first
    obtain ⟨source, question⟩ := genuine datagram addresses awaited answers (ne_nil_of_mem member)
    exact ⟨datagram, awaited, answers.hasARecord member, source, answers.id, question⟩

/-- An answer for `a.b` from a host that is not the server; all else in it is as the server would write it. -/
def spoofedReply : Datagram where
  srcIp := ⟨6, 6, 6, 6⟩
  srcPort := 4000
  data := [0x12, 0x35, 0x80, 0, 0, 1, 0, 1, 0, 0, 0, 0, 1, 97, 1, 98, 0, 0, 1, 0, 1,
    0xC0, 0x0C, 0, 1, 0, 1, 0, 0, 0, 60, 0, 4, 6, 6, 6, 6]

/-- A lookup of `a.b` at 10.0.0.1 that meets that answer. -/
def spoofed : Lookup where
  hostname := [97, 46, 98]
  dnsServer := ⟨10, 0, 0, 1⟩
  timeoutMs := 5000
  counter := 0x1234
  startTime := 0
  udpSend := fun _ _ _ => true
  rounds := [⟨1, some spoofedReply⟩]

/-- **The answer of a host that is not the server is taken.** -/
theorem spoofed_answer_returned : spoofed.resolve = .returned (some ⟨6, 6, 6, 6⟩) ∧ ¬ spoofed.Trusted := by
  have returned : spoofed.resolve = .returned (some ⟨6, 6, 6, 6⟩) := by decide +kernel
  refine ⟨returned, fun trusted => ?_⟩
  obtain ⟨datagram, ⟨-, first⟩, replies⟩ := trusted _ returned
  -- one datagram arrives, and it is the forged one
  obtain ⟨-, arrived, -⟩ | ⟨-, before, _, _, none, -⟩ := firstOf_cons.mp first
  · cases arrived
    cases replies.source.1
  · cases before <;> cases none

end Lookup

end HavyOs.Dns
