import HavyOs.Dns.Resolve
import HavyOs.Http.Response

/-!
# HTTP requests

`http_request` of `commands/http/mod.rs` for plain HTTP: the host is resolved, a connection is made,
the request is sent, and the receive loop collects what arrives until it has the announced number of
bytes or the connection is closed. The loop is a function of how many bytes have arrived. It keeps
what arrives beyond the announced length, and takes a closed connection for the end of the response.
-/

namespace HavyOs.Http

open HavyOs.Lib List
open HavyOs.Fs (asBytes fromUtf8)
open HavyOs.Dns (Ipv4Address)

/-! ## The request -/

inductive HttpMethod where
  | get
  | post
  | put
  | delete
  | head

def HttpMethod.asStr : HttpMethod → String
  | .get => "GET"
  | .post => "POST"
  | .put => "PUT"
  | .delete => "DELETE"
  | .head => "HEAD"

structure HttpRequest where
  method : HttpMethod
  host : String
  path : String
  port : UInt16
  /-- In the order of the keys. -/
  headers : List (String × String)
  body : Option (List UInt8)
  isHttps : Bool

def HttpRequest.build (request : HttpRequest) : List UInt8 :=
  let fields := request.headers.flatMap fun (key, value) => asBytes (key ++ ": " ++ value ++ "\r\n")
  asBytes (request.method.asStr ++ " " ++ request.path ++ " HTTP/1.1\r\n") ++ fields ++ asBytes "\r\n" ++
    request.body.getD []

/-- The loop of `parse_ipv4`: the octets so far and the one that is read. -/
def parseIpv4From (octets : List Nat) (current : Nat) (hasDigit : Bool) : List UInt8 → Option Ipv4Address
  | [] =>
    match octets, hasDigit with
    | [a, b, c], true => some ⟨UInt8.ofNat a, UInt8.ofNat b, UInt8.ofNat c, UInt8.ofNat current⟩
    | _, _ => none
  | ch :: rest =>
    if 48 ≤ ch ∧ ch ≤ 57 then
      let next := current * 10 + (ch - 48).toNat
      if 255 < next then none else parseIpv4From octets next true rest
    else if ch = 46 then
      if !hasDigit ∨ 3 ≤ octets.length then none else parseIpv4From (octets ++ [current]) 0 false rest
    else none

def parseIpv4 (text : List UInt8) : Option Ipv4Address := parseIpv4From [] 0 false text

/-! ## What the request meets -/

/-- How far a part of the request has come. -/
inductive Phase (α : Type) where
  /-- Its rounds are used up and its loop still runs. -/
  | waiting
  | failed (message : String)
  | ready (a : α)

def Phase.andThen {α β : Type} (phase : Phase α) (next : α → Phase β) : Phase β :=
  match phase with
  | .waiting => .waiting
  | .failed message => .failed message
  | .ready a => next a

/-- A turn of the loop that waits for the connection. -/
structure ConnectRound where
  now : Int64
  established : Bool
  closed : Bool

structure SendRound where
  now : Int64
  maySend : Bool
  /-- What `send_slice` answers, if it does not fail: how many bytes it has room for. -/
  room : Option Nat

def recvLength : Nat := 1024

structure Round where
  now : Int64
  mayRecv : Bool
  /-- What `recv_slice` hands out, if it does not fail. -/
  recvSlice : Option (List UInt8)
  closed : Bool
  fits : ∀ bytes, recvSlice = some bytes → bytes.length ≤ recvLength

def SendRound.tcpSend (round : SendRound) (data : List UInt8) : Except String Nat :=
  if round.maySend then
    match round.room with
    | none => .error "Failed to send data"
    | some room => .ok (min room data.length)
  else .error "Socket cannot send"

variable (round : Round)

def Round.tcpRecv : Except String (List UInt8) :=
  if round.mayRecv then
    match round.recvSlice with
    | none => .ok []
    | some bytes => .ok bytes
  else .ok []

def Round.bytes : List UInt8 := if round.mayRecv then round.recvSlice.getD [] else []

theorem Round.tcpRecv_eq : round.tcpRecv = .ok round.bytes := by
  unfold tcpRecv bytes
  split
  · cases round.recvSlice with
    | none => rfl
    | some bytes => rfl
  · rfl

inductive Outcome where
  /-- The rounds are used up and a loop still runs. -/
  | waiting
  | panicked
  | returned (result : Except String HttpResponse)
deriving DecidableEq

/-- A call of `http_request` with everything it meets. -/
structure Exchange where
  request : HttpRequest
  timeoutMs : Int64
  lookup : Dns.Lookup
  startTime : Int64
  /-- Whether `socket.connect` takes an address and a port. -/
  connect : Ipv4Address → UInt16 → Bool
  connecting : List ConnectRound
  sending : List SendRound
  receiving : List Round
  /-- What `https_request` comes to. -/
  https : Outcome

def dnsServer : Ipv4Address := ⟨8, 8, 8, 8⟩

structure Reception where
  buf : List UInt8
  headersComplete : Bool
  contentLength : Option Nat
  bodyStart : Nat

namespace Reception

def start : Reception := ⟨[], false, none, 0⟩

variable (s : Reception)

/-- The buffer grows, and the head is looked at once it is complete. -/
def add (bytes : List UInt8) : Reception :=
  let buf := s.buf ++ bytes
  if s.headersComplete then { s with buf := buf }
  else
    match findHeaderEnd buf with
    | none => { s with buf := buf }
    | some pos => ⟨buf, true, scanContentLength (buf.take pos), pos + 4⟩

def complete : Bool :=
  s.headersComplete &&
    match s.contentLength with
    | none => false
    | some expected => expected ≤ s.buf.length - s.bodyStart

def finish : Outcome :=
  if s.buf.isEmpty then .returned (.error "Empty response")
  else
    match parseResponse s.buf with
    | none => .panicked
    | some result => .returned result

end Reception

namespace Exchange

variable (x : Exchange)

/-- The check for the timeout at the head of each loop. -/
def timedOut (now : Int64) : Bool := x.timeoutMs < now - x.startTime

def resolveHost : Phase Ipv4Address :=
  match parseIpv4 (asBytes x.request.host) with
  | some ip => .ready ip
  | none =>
    match { x.lookup with
      hostname := asBytes x.request.host, dnsServer := dnsServer, timeoutMs := x.timeoutMs }.resolve with
    | .waiting => .waiting
    | .returned none => .failed "DNS resolution failed"
    | .returned (some ip) => .ready ip

def tcpConnect (ip : Ipv4Address) : Phase Unit :=
  if x.connect ip x.request.port then .ready () else .failed "Failed to initiate TCP connection"

def connectLoop : List ConnectRound → Phase Unit
  | [] => .waiting
  | round :: rest =>
    if x.timedOut round.now then .failed "Connection timeout"
    else if round.established then .ready ()
    else if round.closed then .failed "Connection failed"
    else connectLoop rest

/-- The loop that sends the request, of which `sent` bytes are out. -/
def sendLoop (requestBytes : List UInt8) (sent : Nat) : List SendRound → Phase Unit
  | [] => if sent < requestBytes.length then .waiting else .ready ()
  | round :: rest =>
    if sent < requestBytes.length then
      if x.timedOut round.now then .failed "Send timeout"
      else
        match round.tcpSend (requestBytes.drop sent) with
        | .ok n => sendLoop requestBytes (sent + n) rest
        | .error e => .failed e
    else .ready ()

def prepare : Phase Unit :=
  x.resolveHost.andThen fun ip => (x.tcpConnect ip).andThen fun _ => (x.connectLoop x.connecting).andThen fun _ =>
    x.sendLoop x.request.build 0 x.sending

def recvLoop (s : Reception) : List Round → Outcome
  | [] => .waiting
  | round :: rest =>
    if x.timedOut round.now then .returned (.error "Receive timeout")
    else
      match round.tcpRecv with
      | .ok [] => if round.closed then s.finish else recvLoop s rest
      | .ok bytes => if (s.add bytes).complete then (s.add bytes).finish else recvLoop (s.add bytes) rest
      | .error e => if e = "Connection closed by peer" ∧ s.buf ≠ [] then s.finish else .returned (.error e)

def httpRequest : Outcome :=
  if x.request.isHttps then x.https
  else
    match x.prepare with
    | .waiting => .waiting
    | .failed message => .returned (.error message)
    | .ready _ => x.recvLoop .start x.receiving

end Exchange

/-! ## The receive loop counts bytes -/

def arrived (rounds : List Round) : List UInt8 := rounds.flatMap Round.bytes

def IsUtf8 (bytes : List UInt8) : Prop := (fromUtf8 bytes).isSome

def Whole (r : Response) (outcome : Outcome) : Prop :=
  ∀ response, outcome = .returned (.ok response) →
    response.body.length = r.contentLength ∧ response.body = r.sent.take r.contentLength

namespace Response

variable (r : Response)

/-- The variables of the loop when `count` bytes of the stream have arrived. -/
def reception (count : Nat) : Reception :=
  if count < r.headLength then ⟨r.stream.take count, false, none, 0⟩
  else ⟨r.stream.take count, true, scanContentLength r.head, r.headLength⟩

theorem stream_length : r.stream.length = r.headLength + r.sent.length := by
  rw [stream, length_append, length_append]
  rfl

variable {count : Nat}

theorem take_stream (complete : r.headLength ≤ count) :
    r.stream.take count = r.head ++ blankLine ++ r.sent.take (count - r.headLength) := by
  have front : (r.head ++ blankLine).length = r.headLength := length_append
  rw [stream, take_append, front, take_of_length_le (by omega)]

theorem reception_buf (count : Nat) : (r.reception count).buf = r.stream.take count := by
  unfold reception
  split
  · rfl
  · rfl

/-- **A round moves the loop on by the bytes that arrive in it.** -/
theorem reception_add {bytes : List UInt8} (arrives : bytes <+: r.stream.drop count) :
    (r.reception count).add bytes = r.reception (count + bytes.length) := by
  have buf : r.stream.take count ++ bytes = r.stream.take (count + bytes.length) := by
    rw [take_add, ← prefix_iff_eq_take.mp arrives]
  unfold Reception.add
  rw [reception_buf, buf]
  by_cases before : count < r.headLength
  · by_cases short : count + bytes.length < r.headLength
    · simp only [reception, if_pos before, if_pos short, r.findHeaderEnd_short short]
      rfl
    · have complete := r.take_stream (Nat.le_of_not_lt short)
      have found : findHeaderEnd (r.stream.take (count + bytes.length)) = some r.head.length := by
        rw [complete, r.findHeaderEnd_complete]
      have headBytes : (r.stream.take (count + bytes.length)).take r.head.length = r.head := by
        rw [complete, append_assoc, take_left]
      simp only [reception, if_pos before, if_neg short, found, headBytes]
      rfl
  · have still : ¬count + bytes.length < r.headLength := by omega
    simp only [reception, if_neg before, if_neg still]
    rfl

theorem head_isUtf8 (complete : r.headLength ≤ count) (utf8 : IsUtf8 (r.stream.take count)) :
    ∃ text, fromUtf8 r.head = some text := by
  obtain ⟨text, read⟩ := Option.isSome_iff_exists.mp utf8
  have bytes := encode_of_fromUtf8 read
  rw [r.take_stream complete] at bytes
  obtain ⟨before, _, _, same⟩ := exists_text_before_blank bytes
  exact ⟨_, same ▸ fromUtf8_encode before⟩

theorem reception_complete {text : String} (read : fromUtf8 r.head = some text) (inside : count ≤ r.stream.length)
    (small : count < 2 ^ 64) : (r.reception count).complete = decide (r.total ≤ count) := by
  unfold reception
  split_ifs with short
  · have notAll : ¬r.total ≤ count := by
      unfold total
      omega
    rw [decide_eq_false notAll]
    rfl
  · have length : (r.stream.take count).length = count := by
      rw [length_take]
      omega
    simp only [Reception.complete, r.scanContentLength_head read, scannedLength]
    unfold total
    split
    · rename_i none
      split_ifs at none
      exact (decide_eq_false (by omega)).symm
    · rename_i expected some
      split_ifs at some
      cases some
      exact decide_eq_decide.mpr (by omega)

theorem parse_stream {response : HttpResponse} (parsed : parseResponse (r.stream.take count) = some (.ok response)) :
    r.headLength ≤ count ∧ IsUtf8 (r.stream.take count) ∧ response.body = r.sent.take (count - r.headLength) := by
  obtain ⟨_, read, i, occurs⟩ := parseResponse_ok parsed
  have complete : r.headLength ≤ count := by
    by_contra short
    exact r.no_blankLine (Nat.lt_of_not_le short) i occurs
  refine ⟨complete, by rw [IsUtf8, read]; rfl, ?_⟩
  rw [r.take_stream complete] at read parsed
  obtain ⟨_, parsed', body⟩ := r.parseResponse_complete read
  rw [parsed] at parsed'
  rw [Except.ok.inj (Option.some.inj parsed'), body]

/-- **The loop may end with a complete head at the announced length only.** -/
theorem finish_whole_iff (inside : count ≤ r.stream.length) :
    Whole r (r.reception count).finish ↔ (r.headLength ≤ count → IsUtf8 (r.stream.take count) → count = r.total) := by
  have length := r.stream_length
  unfold Reception.finish
  rw [reception_buf]
  constructor
  · intro whole complete utf8
    obtain ⟨_, read⟩ := Option.isSome_iff_exists.mp utf8
    rw [r.take_stream complete] at read whole
    obtain ⟨response, parsed, body⟩ := r.parseResponse_complete read
    have nonempty : ¬(r.head ++ blankLine ++ r.sent.take (count - r.headLength)).isEmpty := by
      simp [blankLine]
    rw [parsed] at whole
    have lengths := (whole response rfl).1
    rw [body, length_take] at lengths
    unfold total
    omega
  · intro exact response finished
    split at finished
    · cases finished
    · cases parsed : parseResponse (r.stream.take count) with
      | none =>
        rw [parsed] at finished
        cases finished
      | some result =>
        rw [parsed] at finished
        cases finished
        obtain ⟨complete, utf8, body⟩ := r.parse_stream parsed
        have same := exact complete utf8
        unfold total at same
        have rest : count - r.headLength = r.contentLength := by omega
        rw [rest] at body
        refine ⟨?_, body⟩
        rw [body, length_take]
        omega

end Response

/-! ## The body -/

namespace Exchange

variable (x : Exchange) (r : Response)

/-- Nothing ends the loop in these rounds, behind `count` bytes: they are in time, the connection is open
when nothing arrives, and bytes are still missing. -/
structure Waits (count : Nat) (rounds : List Round) : Prop where
  inTime : ∀ round ∈ rounds, x.timedOut round.now = false
  isOpen : ∀ round ∈ rounds, round.bytes = [] → round.closed = false
  missing : count + (arrived rounds).length < r.total

/-- A round in time that ends the loop behind `count` bytes: the connection is closed, or the announced
length is reached. -/
structure Ends (count : Nat) (round : Round) : Prop where
  inTime : x.timedOut round.now = false
  stops : round.bytes = [] ∧ round.closed = true ∨ r.total ≤ count + round.bytes.length

/-- A loop that ends with a complete head, in bytes that are UTF-8, ends at the announced length. -/
def EndsWhole (count : Nat) (rounds : List Round) : Prop :=
  ∀ before round after, rounds = before ++ round :: after → x.Waits r count before →
    x.Ends r (count + (arrived before).length) round →
      r.headLength ≤ count + (arrived before).length + round.bytes.length →
        IsUtf8 (r.stream.take (count + (arrived before).length + round.bytes.length)) →
          count + (arrived before).length + round.bytes.length = r.total

/-- What the request meets once it is sent ends at the announced length. -/
def Undisturbed : Prop := x.prepare = .ready () → x.EndsWhole r 0 x.receiving

variable {x r}

theorem arrived_cons (rest : List Round) : arrived (round :: rest) = round.bytes ++ arrived rest := rfl

variable {count : Nat} {round : Round} {rest : List Round}

theorem endsWhole_cons_iff (inTime : x.timedOut round.now = false) (goesOn : ¬x.Ends r count round) :
    x.EndsWhole r count (round :: rest) ↔ x.EndsWhole r (count + round.bytes.length) rest := by
  have quiet : round.bytes = [] → round.closed = false := by
    intro nothing
    by_contra closed
    exact goesOn ⟨inTime, Or.inl ⟨nothing, by simpa using closed⟩⟩
  have count_cons : ∀ before : List Round, count + (arrived (round :: before)).length =
      count + round.bytes.length + (arrived before).length := by
    intro before
    rw [arrived_cons, length_append, Nat.add_assoc]
  constructor
  · intro whole before last after split waits ends
    rw [← count_cons before] at ends ⊢
    refine whole (round :: before) last after (by rw [split]; rfl) ?_ ends
    constructor
    · intro other member
      rcases mem_cons.mp member with rfl | later
      · exact inTime
      · exact waits.inTime other later
    · intro other member
      rcases mem_cons.mp member with rfl | later
      · exact quiet
      · exact waits.isOpen other later
    · rw [count_cons before]
      exact waits.missing
  · intro whole before last after split waits ends
    cases before with
    | nil =>
      cases split
      exact absurd ends goesOn
    | cons first before =>
      cases split
      rw [count_cons before] at ends ⊢
      refine whole before last after rfl ?_ ends
      constructor
      · exact fun other member => waits.inTime other (mem_cons_of_mem _ member)
      · exact fun other member => waits.isOpen other (mem_cons_of_mem _ member)
      · rw [← count_cons before]
        exact waits.missing

/-- Behind a round that ends the loop nothing counts. -/
theorem endsWhole_of_ends (missing : count < r.total)
    (ends : x.Ends r count round) :
    x.EndsWhole r count (round :: rest) ↔ (r.headLength ≤ count + round.bytes.length →
      IsUtf8 (r.stream.take (count + round.bytes.length)) → count + round.bytes.length = r.total) := by
  constructor
  · intro whole
    have waits : x.Waits r count [] := ⟨nofun, nofun, missing⟩
    exact whole [] round rest rfl waits ends
  · intro exact before last after split waits _
    cases before with
    | nil =>
      cases split
      exact exact
    | cons first before =>
      cases split
      rcases ends.stops with ⟨nothing, closed⟩ | _
      · rw [waits.isOpen round mem_cons_self nothing] at closed
        cases closed
      · have short := waits.missing
        rw [arrived_cons, length_append] at short
        omega

theorem endsWhole_of_late (late : x.timedOut round.now = true) : x.EndsWhole r count (round :: rest) := by
  intro before last after split waits ends
  cases before with
  | nil =>
    cases split
    rw [ends.inTime] at late
    cases late
  | cons first before =>
    cases split
    rw [waits.inTime round mem_cons_self] at late
    cases late

theorem recvLoop_cons (arrives : round.bytes <+: r.stream.drop count)
    (inTime : x.timedOut round.now = false) :
    x.recvLoop (r.reception count) (round :: rest) =
      if round.bytes = [] ∧ round.closed = true ∨ round.bytes ≠ [] ∧
          (r.reception (count + round.bytes.length)).complete = true then
        (r.reception (count + round.bytes.length)).finish
      else x.recvLoop (r.reception (count + round.bytes.length)) rest := by
  have added := r.reception_add arrives
  rw [recvLoop, inTime, round.tcpRecv_eq]
  cases bytes : round.bytes with
  | nil =>
    cases closed : round.closed with
    | true => simp
    | false => simp
  | cons b bytes' =>
    rw [bytes] at added
    simp only [added]
    cases complete : (r.reception (count + (b :: bytes').length)).complete with
    | true => simp
    | false => simp

theorem bytes_prefix (arrives : arrived (round :: rest) <+: r.stream.drop count) :
    round.bytes <+: r.stream.drop count ∧ arrived rest <+: r.stream.drop (count + round.bytes.length) := by
  obtain ⟨tail, whole⟩ := arrives
  rw [arrived_cons, append_assoc] at whole
  constructor
  · exact ⟨_, whole⟩
  · rw [← drop_drop, ← whole, drop_left]
    exact ⟨tail, rfl⟩

theorem count_le {bytes : List UInt8} (inside : count ≤ r.stream.length) (arrives : bytes <+: r.stream.drop count) :
    count + bytes.length ≤ r.stream.length := by
  have fits := arrives.length_le
  rw [length_drop] at fits
  omega

/-- The loop on a head that is not UTF-8 returns no response. -/
theorem recvLoop_whole_of_not_utf8 (binary : ∀ text, fromUtf8 r.head ≠ some text) {rounds : List Round}
    (inside : count ≤ r.stream.length) (arrives : arrived rounds <+: r.stream.drop count) :
    Whole r (x.recvLoop (r.reception count) rounds) := by
  have finished : ∀ count, count ≤ r.stream.length → Whole r (r.reception count).finish := by
    intro count inside
    refine (r.finish_whole_iff inside).mpr fun complete utf8 => ?_
    obtain ⟨text, read⟩ := r.head_isUtf8 complete utf8
    exact absurd read (binary text)
  induction rounds generalizing count with
  | nil => exact nofun
  | cons round rest ih =>
    obtain ⟨here, later⟩ := bytes_prefix arrives
    cases late : x.timedOut round.now with
    | true =>
      rw [recvLoop, if_pos late]
      exact nofun
    | false =>
      rw [recvLoop_cons here late]
      split
      · exact finished _ (count_le inside here)
      · exact ih (count_le inside here) later

/-- **The loop from `count` bytes on.** -/
theorem recvLoop_whole_iff {text : String} (read : fromUtf8 r.head = some text) {rounds : List Round}
    (inside : count ≤ r.stream.length) (arrives : arrived rounds <+: r.stream.drop count) (missing : count < r.total)
    (small : count + (arrived rounds).length < 2 ^ 64) :
    Whole r (x.recvLoop (r.reception count) rounds) ↔ x.EndsWhole r count rounds := by
  induction rounds generalizing count with
  | nil =>
    constructor
    · intro _ before round after split
      exact absurd split.symm (append_ne_nil_of_right_ne_nil _ (cons_ne_nil _ _))
    · exact nofun
  | cons round rest ih =>
    obtain ⟨here, later⟩ := bytes_prefix arrives
    have insideNext := count_le inside here
    rw [arrived_cons, length_append] at small
    cases late : x.timedOut round.now with
    | true =>
      rw [recvLoop, if_pos late]
      exact ⟨fun _ => endsWhole_of_late late, nofun⟩
    | false =>
      have stops : (round.bytes = [] ∧ round.closed = true ∨
          round.bytes ≠ [] ∧ (r.reception (count + round.bytes.length)).complete = true) ↔ x.Ends r count round := by
        rw [r.reception_complete read insideNext (by omega), decide_eq_true_iff]
        constructor
        · intro stop
          exact ⟨late, stop.imp_right And.right⟩
        · intro ends
          refine ends.stops.imp_right fun reached => ⟨fun nothing => ?_, reached⟩
          rw [nothing, length_nil] at reached
          omega
      rw [recvLoop_cons here late]
      by_cases ends : x.Ends r count round
      · rw [if_pos (stops.mpr ends), endsWhole_of_ends missing ends]
        exact r.finish_whole_iff insideNext
      · have short : count + round.bytes.length < r.total := by
          by_contra reached
          exact ends ⟨late, Or.inr (Nat.le_of_not_lt reached)⟩
        rw [if_neg fun stop => ends (stops.mp stop), endsWhole_cons_iff late ends]
        exact ih insideNext later short (by omega)

/-- **The body is complete exactly when the last arrival ends at the announced length.** Of the bytes that arrive
there are fewer than a `Vec` can hold. -/
theorem http_body_whole_iff (x : Exchange) (r : Response) (plain : x.request.isHttps = false)
    (arrives : arrived x.receiving <+: r.stream) (fits : (arrived x.receiving).length < 2 ^ 63) :
    Whole r x.httpRequest ↔ x.Undisturbed r := by
  have positive : 0 < r.total := by
    unfold Response.total Response.headLength
    omega
  have start : Reception.start = r.reception 0 := by
    rfl
  unfold httpRequest Undisturbed
  rw [plain]
  cases x.prepare with
  | waiting =>
    constructor
    · exact nofun
    · exact nofun
  | failed message =>
    constructor
    · exact nofun
    · exact nofun
  | ready done =>
    have sent : (Phase.ready done = .ready () → x.EndsWhole r 0 x.receiving) ↔ x.EndsWhole r 0 x.receiving :=
      ⟨fun whole => whole rfl, fun whole _ => whole⟩
    rw [sent]
    cases read : fromUtf8 r.head with
    | some text => exact recvLoop_whole_iff read (Nat.zero_le _) arrives positive (by omega)
    | none =>
      have binary : ∀ text, fromUtf8 r.head ≠ some text := fun text other => nomatch read.symm.trans other
      refine ⟨fun _ before round after _ _ _ complete utf8 => ?_, fun _ =>
        recvLoop_whole_of_not_utf8 binary (Nat.zero_le _) arrives⟩
      obtain ⟨text, other⟩ := r.head_isUtf8 complete utf8
      exact absurd other (binary text)

def lengthFive : Field where
  name := [67, 111, 110, 116, 101, 110, 116, 45, 76, 101, 110, 103, 116, 104]
  value := [32, 53]
  named := cons_ne_nil _ _
  token := by decide +kernel
  plain := by decide +kernel

def greeting : Response where
  major := 49
  minor := 49
  hundreds := 50
  tens := 48
  ones := 48
  reason := [79, 75]
  fields := [lengthFive]
  contentLength := 5
  sent := [104, 101, 108, 108, 111]
  version := by decide +kernel
  code := by decide +kernel
  plain := by decide +kernel
  announced := ⟨lengthFive, mem_singleton_self _, by decide +kernel⟩
  agreed := by
    intro field member _
    rw [mem_singleton.mp member]
    exact ⟨[32], [53], [],
      rfl, by decide +kernel, by decide +kernel, cons_ne_nil _ _, by decide +kernel, by decide +kernel⟩
  unchunked := by
    intro field member
    rw [mem_singleton.mp member]
    decide +kernel

/-- The connection is reset behind the third byte of the body. -/
def cutOff : Exchange where
  request := ⟨.get, "10.0.0.2", "/", 80, [("Host", "10.0.0.2")], none, false⟩
  timeoutMs := 5000
  lookup := ⟨[], ⟨0, 0, 0, 0⟩, 0, 0, 0, fun _ _ _ => false, []⟩
  startTime := 0
  connect := fun _ _ => true
  connecting := [⟨1, true, false⟩]
  sending := [⟨2, true, some 4096⟩]
  receiving :=
    [⟨3, true, some (greeting.stream.take (greeting.total - 2)), false, by
        intro bytes same
        rw [← Option.some.inj same]
        decide +kernel⟩,
      ⟨4, false, none, true, nofun⟩]
  https := .waiting

/-- The rest of the body arrives before the connection is closed. -/
def carriedOn : Exchange :=
  { cutOff with
    receiving :=
      [⟨3, true, some (greeting.stream.take (greeting.total - 2)), false, by
          intro bytes same
          rw [← Option.some.inj same]
          decide +kernel⟩,
        ⟨4, true, some [108, 111], true, by
          intro bytes same
          rw [← Option.some.inj same]
          decide +kernel⟩] }

theorem http_body_whole_iff_carriedOn :
    carriedOn.request.isHttps = false ∧ arrived carriedOn.receiving <+: greeting.stream ∧
      (arrived carriedOn.receiving).length < 2 ^ 63 ∧
      (∃ response, carriedOn.httpRequest = .returned (.ok response) ∧ response.body = [104, 101, 108, 108, 111]) ∧
      Whole greeting carriedOn.httpRequest ∧ carriedOn.Undisturbed greeting := by
  have arrives : arrived carriedOn.receiving <+: greeting.stream := by decide +kernel
  have fits : (arrived carriedOn.receiving).length < 2 ^ 63 := by decide +kernel
  have returned : carriedOn.httpRequest =
      .returned (.ok ⟨200, ['O', 'K'], [("Content-Length".toList, ['5'])], [104, 101, 108, 108, 111]⟩) := by
      decide +kernel
  have whole : Whole greeting carriedOn.httpRequest := by
    intro response same
    cases returned.symm.trans same
    exact ⟨rfl, rfl⟩
  exact ⟨rfl, arrives, fits, ⟨_, returned, rfl⟩, whole,
    (http_body_whole_iff carriedOn greeting rfl arrives fits).mp whole⟩

/-- **A response that was cut off is returned as a whole one.** -/
theorem cut_off_body_returned :
    cutOff.httpRequest = .returned (.ok ⟨200, ['O', 'K'], [("Content-Length".toList, ['5'])], [104, 101, 108]⟩) ∧
      ¬Whole greeting cutOff.httpRequest := by
  have returned : cutOff.httpRequest =
      .returned (.ok ⟨200, ['O', 'K'], [("Content-Length".toList, ['5'])], [104, 101, 108]⟩) := by decide +kernel
  refine ⟨returned, fun whole => ?_⟩
  have length := (whole _ returned).1
  cases length

end Exchange

end HavyOs.Http
