import HavyOs.Lib.Outcome
import HavyOs.Lib.Wire

/-!
# The blocking TCP socket

`BlockingTcpSocket` of `tls.rs` over the client socket of `NetState`. Each round of its read
and write loops asks the clock whether the time is up, polls the stack and makes one call on
the smoltcp socket; what these say in a round is a `Poll`, and a connection has a list of them,
chosen by the network and the clock. Where the list ends the time is up. The bytes the peer
sends are handed out in order, in pieces of any size.
-/

namespace HavyOs.Tls

open Lib List

inductive TlsError where
  | connectionError
  | tlsProtocolError
  | timeout
  | invalidData
  | io
  | connectionClosed
  | notConnected
  | dnsError
  | internalError
deriving DecidableEq, Repr

/-- What one round of a loop sees of the clock and of the smoltcp socket. -/
structure Poll where
  /-- `check_timeout`. -/
  expired : Bool
  mayRecv : Bool
  /-- How many bytes `recv_slice` finds, if it does not fail. -/
  arrived : Option Nat
  closed : Bool
  maySend : Bool
  /-- How many bytes `send_slice` has room for, if it does not fail. -/
  room : Option Nat
deriving DecidableEq, Repr

/-- A round with time left in which `k` bytes can be read or written. -/
def Poll.prompt (k : Nat) : Poll := ⟨false, true, some k, false, true, some k⟩

/-- A round in which the time is up. -/
def Poll.late : Poll := ⟨true, false, none, false, false, none⟩

/-- `BlockingTcpSocket` and what is behind it. -/
structure BlockingTcpSocket where
  polls : List Poll
  /-- What the peer delivers, less what was read. -/
  incoming : List UInt8
  /-- What was handed to TCP. -/
  outgoing : List UInt8
deriving DecidableEq, Repr

abbrev SocketM := EStateM TlsError BlockingTcpSocket

/-! ## `NetState::tcp_recv`, `tcp_send` -/

/-- `tcp_recv` into a buffer of `n` bytes. -/
def tcpRecv (poll : Poll) (n : Nat) (incoming : List UInt8) : Except String (List UInt8) :=
  if !poll.mayRecv then .ok []
  else match poll.arrived with
    | some count => .ok (incoming.take (min count n))
    | none => .ok []

/-- `tcp_send` of `n` bytes. -/
def tcpSend (poll : Poll) (n : Nat) : Except String Nat :=
  if !poll.maySend then .error "Socket cannot send"
  else match poll.room with
    | some count => .ok (min count n)
    | none => .error "Failed to send data"

namespace BlockingTcpSocket

/-! ## `read`, `write` -/

/-- The loop of `read` into a buffer of `n` bytes. -/
def readPolls (n : Nat) (incoming outgoing : List UInt8) :
    List Poll → EStateM.Result TlsError BlockingTcpSocket (List UInt8)
  | [] => .error .timeout ⟨[], incoming, outgoing⟩
  | poll :: polls =>
    if poll.expired then .error .timeout ⟨polls, incoming, outgoing⟩
    else match tcpRecv poll n incoming with
      | .ok bytes =>
        if bytes.length > 0 then .ok bytes ⟨polls, incoming.drop bytes.length, outgoing⟩
        else if poll.closed then .error .connectionClosed ⟨polls, incoming, outgoing⟩
        else readPolls n incoming outgoing polls
      | .error message =>
        .error (if message = "Connection closed by peer" then .connectionClosed else .connectionError)
          ⟨polls, incoming, outgoing⟩

/-- `read` into a buffer of `n` bytes: the bytes that were put there. -/
def read (n : Nat) : SocketM (List UInt8) := fun s => readPolls n s.incoming s.outgoing s.polls

/-- What `write` returns when it gives up: an error only if nothing was sent. -/
def gaveUp (sent : Nat) (e : TlsError) (s : BlockingTcpSocket) : EStateM.Result TlsError BlockingTcpSocket Nat :=
  if sent > 0 then .ok sent s else .error e s

variable (buf : List UInt8)

/-- The loop of `write`, with `sent` bytes of `buf` behind it. -/
def writePolls (incoming : List UInt8) :
    List Poll → Nat → List UInt8 → EStateM.Result TlsError BlockingTcpSocket Nat
  | [], sent, outgoing =>
    if sent < buf.length then gaveUp sent .timeout ⟨[], incoming, outgoing⟩ else .ok sent ⟨[], incoming, outgoing⟩
  | poll :: polls, sent, outgoing =>
    if sent < buf.length then
      if poll.expired then gaveUp sent .timeout ⟨polls, incoming, outgoing⟩
      else match tcpSend poll (buf.length - sent) with
        | .ok n =>
          if n > 0 then writePolls incoming polls (sent + n) (outgoing ++ (buf.drop sent).take n)
          else writePolls incoming polls sent outgoing
        | .error _ => gaveUp sent .connectionError ⟨polls, incoming, outgoing⟩
    else .ok sent ⟨poll :: polls, incoming, outgoing⟩

/-- `write`: how many bytes were handed to TCP. -/
def write : SocketM Nat := fun s => writePolls buf s.incoming s.polls 0 s.outgoing

/-- The loop of `read_exact`; each round brings a byte at least. -/
def readMissing : Nat → Nat → SocketM (List UInt8)
  | 0, _ => pure []
  | fuel + 1, missing =>
    if missing = 0 then pure []
    else do
      let bytes ← read missing
      if bytes.length = 0 then throw .connectionClosed
      let more ← readMissing fuel (missing - bytes.length)
      pure (bytes ++ more)

/-- `Tls12Connection::read_exact` of `n` bytes. -/
def readExact (n : Nat) : SocketM (List UInt8) := readMissing n n

/-! ## What a read takes -/

variable {n : Nat} {incoming : List UInt8}

theorem tcpRecv_prefix {poll : Poll} {bytes : List UInt8}
    (received : tcpRecv poll n incoming = .ok bytes) : bytes.length ≤ n ∧ bytes <+: incoming := by
  unfold tcpRecv at received
  split at received
  · cases received
    exact ⟨Nat.zero_le _, nil_prefix⟩
  · split at received
    · cases received
      refine ⟨?_, take_prefix _ _⟩
      rw [length_take]
      omega
    · cases received
      exact ⟨Nat.zero_le _, nil_prefix⟩

/-- A read takes the next bytes, at least one and at most `n`, or nothing. -/
theorem read_spec (n : Nat) (s : BlockingTcpSocket) :
    wp (read n) (fun bytes s' => 0 < bytes.length ∧ bytes.length ≤ n ∧ s.incoming = bytes ++ s'.incoming ∧
        s'.outgoing = s.outgoing)
      (fun _ s' => s'.incoming = s.incoming ∧ s'.outgoing = s.outgoing) s := by
  obtain ⟨polls, incoming, outgoing⟩ := s
  simp only [wp, read]
  induction polls with
  | nil => exact ⟨rfl, rfl⟩
  | cons poll polls ih =>
    by_cases late : poll.expired
    · rw [readPolls, if_pos late]
      exact ⟨rfl, rfl⟩
    · rw [readPolls, if_neg late]
      cases received : tcpRecv poll n incoming with
      | error message => exact ⟨rfl, rfl⟩
      | ok bytes =>
        obtain ⟨short, _, rfl⟩ := tcpRecv_prefix received
        by_cases some : bytes.length > 0
        · simp only [if_pos some]
          exact ⟨some, short, by rw [drop_left], trivial⟩
        · by_cases closed : poll.closed
          · simp only [if_neg some, if_pos closed]
            exact ⟨trivial, trivial⟩
          · simp only [if_neg some, if_neg closed]
            exact ih

/-- `read_exact` takes exactly the next `n` bytes; where it fails it has taken fewer. -/
theorem readMissing_spec (fuel n : Nat) (enough : n ≤ fuel) (s : BlockingTcpSocket) :
    wp (readMissing fuel n) (fun bytes s' => bytes.length = n ∧ s.incoming = bytes ++ s'.incoming ∧
        s'.outgoing = s.outgoing)
      (fun _ s' => (∃ taken, s.incoming = taken ++ s'.incoming) ∧ s'.outgoing = s.outgoing) s := by
  induction fuel generalizing n s with
  | zero =>
    have none : n = 0 := by omega
    subst none
    exact ⟨rfl, rfl, rfl⟩
  | succ fuel ih =>
    rw [readMissing]
    split_ifs with none
    · subst none
      exact ⟨rfl, rfl, rfl⟩
    · rw [wp_bind]
      refine wp_mono (read_spec n s) ?_ ?_
      · rintro bytes s₁ ⟨_, _, incoming, outgoing⟩
        rw [if_neg (by omega)]
        simp only [wp_bind]
        refine wp_mono (ih (n - bytes.length) (by omega) s₁) ?_ ?_
        · rintro _ s₂ ⟨length, rest, same⟩
          refine ⟨?_, ?_, same.trans outgoing⟩
          · rw [length_append]
            omega
          · rw [incoming, rest, append_assoc]
        · rintro e s₂ ⟨⟨taken, rest⟩, same⟩
          exact ⟨⟨bytes ++ taken, by rw [incoming, rest, append_assoc]⟩, same.trans outgoing⟩
      · rintro e s₁ ⟨incoming, outgoing⟩
        exact ⟨⟨[], incoming.symm⟩, outgoing⟩

theorem readExact_spec (n : Nat) (s : BlockingTcpSocket) :
    wp (readExact n) (fun bytes s' => bytes.length = n ∧ s.incoming = bytes ++ s'.incoming ∧ s'.outgoing = s.outgoing)
      (fun _ s' => (∃ taken, s.incoming = taken ++ s'.incoming) ∧ s'.outgoing = s.outgoing) s :=
  readMissing_spec n n (Nat.le_refl n) s

/-! ## What a write hands over -/

/-- How many of `n` bytes the rounds take before the first in which the time is up or the call fails. -/
def accepted : List Poll → Nat → Nat
  | [], _ => 0
  | poll :: polls, n =>
    if n = 0 then 0
    else if poll.expired then 0
    else match tcpSend poll n with
      | .ok count => count + accepted polls (n - count)
      | .error _ => 0

theorem tcpSend_le {poll : Poll} {count : Nat} (sent : tcpSend poll n = .ok count) : count ≤ n := by
  unfold tcpSend at sent
  split at sent
  · cases sent
  · split at sent
    · cases sent
      omega
    · cases sent

theorem accepted_le (polls : List Poll) (n : Nat) : accepted polls n ≤ n := by
  induction polls generalizing n with
  | nil => exact Nat.zero_le n
  | cons poll polls ih =>
    rw [accepted]
    split
    · omega
    · split
      · omega
      · split
        · rename_i count sent
          have := tcpSend_le sent
          have := ih (n - count)
          omega
        · omega

/-- How the loop of `write` ends when `total` bytes are taken after the first `sent`. -/
def WriteEnds (incoming outgoing : List UInt8) (sent total : Nat) :
    EStateM.Result TlsError BlockingTcpSocket Nat → Prop
  | .ok n s => n = sent + total ∧ (0 < n ∨ buf = []) ∧ s.outgoing = outgoing ++ (buf.drop sent).take total ∧
      s.incoming = incoming
  | .error _ s => sent + total = 0 ∧ buf ≠ [] ∧ s.outgoing = outgoing ∧ s.incoming = incoming

section WriteLoop

variable {buf incoming outgoing : List UInt8} {sent : Nat}

theorem gaveUp_ends (more : sent < buf.length) (e : TlsError) (polls : List Poll) :
    WriteEnds buf incoming outgoing sent 0 (gaveUp sent e ⟨polls, incoming, outgoing⟩) := by
  unfold gaveUp
  split
  · rename_i some
    exact ⟨rfl, .inl some, by simp, rfl⟩
  · exact ⟨by omega, ne_nil_of_length_pos (by omega), rfl, rfl⟩

theorem done_ends (inside : sent ≤ buf.length) (done : ¬sent < buf.length) (polls : List Poll) :
    WriteEnds buf incoming outgoing sent 0 (.ok sent ⟨polls, incoming, outgoing⟩) := by
  refine ⟨rfl, ?_, by simp, rfl⟩
  cases buf with
  | nil => exact .inr rfl
  | cons =>
    rw [length_cons] at done
    exact .inl (by omega)

/-- A round that takes `n` bytes. -/
theorem WriteEnds.round {n total : Nat} {result : EStateM.Result TlsError BlockingTcpSocket Nat}
    (ends : WriteEnds buf incoming (outgoing ++ (buf.drop sent).take n) (sent + n) total result) :
    WriteEnds buf incoming outgoing sent (n + total) result := by
  cases result with
  | ok count s =>
    obtain ⟨_, some, out, same⟩ := ends
    refine ⟨by omega, some, ?_, same⟩
    rw [out, append_assoc, take_add, drop_drop]
  | error e s =>
    obtain ⟨_, some, out, same⟩ := ends
    have first : n = 0 := by omega
    subst first
    exact ⟨by omega, some, by simpa using out, same⟩

theorem writePolls_ends (polls : List Poll) (inside : sent ≤ buf.length) :
    WriteEnds buf incoming outgoing sent (accepted polls (buf.length - sent))
      (writePolls buf incoming polls sent outgoing) := by
  induction polls generalizing sent outgoing with
  | nil =>
    rw [writePolls]
    split_ifs with more
    · exact gaveUp_ends more _ _
    · exact done_ends inside more _
  | cons poll polls ih =>
    by_cases more : sent < buf.length
    · rw [writePolls, accepted, if_neg (by omega)]
      split
      · exact gaveUp_ends more _ _
      · cases answer : tcpSend poll (buf.length - sent) with
        | error message => exact gaveUp_ends more _ _
        | ok n =>
          have bound := tcpSend_le answer
          dsimp only
          split_ifs with none
          · apply WriteEnds.round
            rw [Nat.sub_sub]
            exact ih (by omega)
          · have zero : n = 0 := by omega
            subst zero
            rw [Nat.zero_add]
            exact ih inside
    · rw [writePolls, if_neg more, show buf.length - sent = 0 by omega]
      exact done_ends inside more _

end WriteLoop

/-- A write hands over the bytes that the rounds accept and says how many; it fails where they accept none. -/
theorem write_spec (s : BlockingTcpSocket) :
    wp (write buf) (fun n s' => n = accepted s.polls buf.length ∧ (0 < n ∨ buf = []) ∧
        s'.outgoing = s.outgoing ++ buf.take n ∧ s'.incoming = s.incoming)
      (fun _ s' => accepted s.polls buf.length = 0 ∧ buf ≠ [] ∧ s'.outgoing = s.outgoing ∧
        s'.incoming = s.incoming) s := by
  have ends : WriteEnds buf s.incoming s.outgoing 0 (accepted s.polls buf.length) (write buf s) :=
    writePolls_ends s.polls (Nat.zero_le _)
  unfold wp
  cases outcome : write buf s with
  | ok n s' =>
    rw [outcome] at ends
    obtain ⟨count, some, out, same⟩ := ends
    rw [Nat.zero_add] at count
    exact ⟨count, some, by rw [out, count, drop_zero], same⟩
  | error e s' =>
    rw [outcome] at ends
    obtain ⟨_, some, out, same⟩ := ends
    exact ⟨by omega, some, out, same⟩

/-! ## A network that keeps up -/

theorem readMissing_done (fuel : Nat) : readMissing fuel 0 = pure [] := by
  cases fuel <;> rfl

section

variable {k : Nat} (enough : n ≤ k) (some : 0 < n) (there : n ≤ incoming.length) (polls : List Poll)
    (outgoing : List UInt8)
include enough some there polls outgoing

theorem read_prompt :
    read n ⟨.prompt k :: polls, incoming, outgoing⟩ = .ok (incoming.take n) ⟨polls, incoming.drop n, outgoing⟩ := by
  have all : (incoming.take (min k n)).length = n := by
    rw [length_take]
    omega
  have received : tcpRecv (.prompt k) n incoming = .ok (incoming.take (min k n)) := rfl
  rw [read, readPolls, if_neg (by simp [Poll.prompt]), received]
  dsimp only
  rw [if_pos (by omega), all, Nat.min_eq_right enough]

/-- One round brings all the bytes. -/
theorem readExact_prompt :
    readExact n ⟨.prompt k :: polls, incoming, outgoing⟩ =
    .ok (incoming.take n) ⟨polls, incoming.drop n, outgoing⟩ := by
  obtain ⟨fuel, rfl⟩ : ∃ fuel, n = fuel + 1 := ⟨n - 1, by omega⟩
  have all : (incoming.take (fuel + 1)).length = fuel + 1 := by
    rw [length_take]
    omega
  rw [readExact, readMissing]
  simp only [bind, EStateM.bind, read_prompt enough some there, all, if_neg (show ¬fuel + 1 = 0 by omega),
    Nat.sub_self, readMissing_done]
  simp [pure, EStateM.pure]

end

end BlockingTcpSocket

/-! ## A network that goes on -/

/-- A round in which bytes can be read and written. -/
structure Poll.Delivers (poll : Poll) : Prop where
  inTime : poll.expired = false
  mayRecv : poll.mayRecv = true
  arrives : ∃ count, poll.arrived = some (count + 1)
  maySend : poll.maySend = true
  takes : ∃ count, poll.room = some (count + 1)

/-- At least `n` rounds, and bytes can be read and written in each. -/
structure Steady (n : Nat) (polls : List Poll) : Prop where
  enough : n ≤ polls.length
  delivers : ∀ poll ∈ polls, poll.Delivers

theorem Steady.mono {n m : Nat} {polls : List Poll} (steady : Steady n polls) (fewer : m ≤ n) : Steady m polls :=
  ⟨Nat.le_trans fewer steady.enough, steady.delivers⟩

theorem Steady.first {n : Nat} {polls : List Poll} (steady : Steady (n + 1) polls) :
    ∃ poll rest, polls = poll :: rest ∧ poll.Delivers ∧ Steady n rest := by
  obtain ⟨enough, delivers⟩ := steady
  cases polls with
  | nil => cases enough
  | cons poll rest =>
    rw [forall_mem_cons] at delivers
    exact ⟨poll, rest, rfl, delivers.1, by simpa using enough, delivers.2⟩

theorem Steady.replicate (n k : Nat) : Steady n (replicate n (.prompt (k + 1))) := by
  refine ⟨by simp, fun poll member => ?_⟩
  rw [eq_of_mem_replicate member]
  exact ⟨rfl, rfl, ⟨k, rfl⟩, rfl, k, rfl⟩

namespace BlockingTcpSocket

variable {polls : List Poll} {bytes rest outgoing : List UInt8} {n : Nat}

theorem read_delivers {poll : Poll} (delivers : poll.Delivers) (some : 0 < bytes.length) (polls : List Poll)
    (rest outgoing : List UInt8) : ∃ count, 0 < count ∧ count ≤ bytes.length ∧
    read bytes.length ⟨poll :: polls, bytes ++ rest, outgoing⟩ =
      .ok (bytes.take count) ⟨polls, bytes.drop count ++ rest, outgoing⟩ := by
  obtain ⟨k, arrives⟩ := delivers.arrives
  have part : (bytes ++ rest).take (min (k + 1) bytes.length) = bytes.take (min (k + 1) bytes.length) :=
    take_append_of_le_length (Nat.min_le_right _ _)
  have length : (bytes.take (min (k + 1) bytes.length)).length = min (k + 1) bytes.length := by
    rw [length_take]
    omega
  refine ⟨min (k + 1) bytes.length, by omega, Nat.min_le_right _ _, ?_⟩
  simp only [read, readPolls, delivers.inTime, tcpRecv, delivers.mayRecv, arrives, Bool.not_true, Bool.false_eq_true,
    if_false]
  rw [part, length, if_pos (by omega), drop_append_of_le_length (Nat.min_le_right _ _)]

theorem readMissing_steady (fuel : Nat) (enough : bytes.length ≤ fuel) (steady : Steady (n + bytes.length) polls) :
    ∃ polls', Steady n polls' ∧ readMissing fuel bytes.length ⟨polls, bytes ++ rest, outgoing⟩ =
      .ok bytes ⟨polls', rest, outgoing⟩ := by
  induction fuel generalizing bytes polls with
  | zero =>
    obtain rfl := length_eq_zero_iff.mp (Nat.le_zero.mp enough)
    exact ⟨polls, steady, rfl⟩
  | succ fuel ih =>
    rcases Nat.eq_zero_or_pos bytes.length with none | some
    · obtain rfl := length_eq_zero_iff.mp none
      exact ⟨polls, steady, rfl⟩
    · obtain ⟨_, later, rfl, delivers, onward⟩ :=
        (steady.mono (by omega : n + (bytes.length - 1) + 1 ≤ n + bytes.length)).first
      obtain ⟨count, _, _, first⟩ := read_delivers delivers some later rest outgoing
      have taken : (bytes.take count).length = count := by
        rw [length_take]
        omega
      obtain ⟨polls', steady', second⟩ := ih (show (bytes.drop count).length ≤ fuel by rw [length_drop]; omega)
        (onward.mono (by rw [length_drop]; omega))
      rw [length_drop] at second
      refine ⟨polls', steady', ?_⟩
      rw [readMissing, if_neg (by omega), bind_ok _ first, taken, if_neg (by omega)]
      dsimp only
      rw [bind_ok _ second]
      simp [pure, EStateM.pure]

theorem readExact_steady (steady : Steady (n + bytes.length) polls) (rest outgoing : List UInt8) :
    ∃ polls', Steady n polls' ∧ readExact bytes.length ⟨polls, bytes ++ rest, outgoing⟩ =
      .ok bytes ⟨polls', rest, outgoing⟩ :=
  readMissing_steady bytes.length (Nat.le_refl _) steady

theorem writePolls_steady {buf incoming : List UInt8} {sent : Nat} (inside : sent ≤ buf.length)
    (steady : Steady (n + (buf.length - sent)) polls) :
    ∃ polls', Steady n polls' ∧ writePolls buf incoming polls sent outgoing =
      .ok buf.length ⟨polls', incoming, outgoing ++ buf.drop sent⟩ := by
  induction polls generalizing sent outgoing with
  | nil =>
    have none : n = 0 ∧ sent = buf.length := by
      have := steady.enough
      rw [length_nil] at this
      omega
    obtain ⟨rfl, rfl⟩ := none
    exact ⟨[], ⟨Nat.le_refl 0, steady.delivers⟩, by simp [writePolls]⟩
  | cons poll polls ih =>
    by_cases more : sent < buf.length
    · obtain ⟨_, _, same, delivers, onward⟩ :=
        (steady.mono (by omega : n + (buf.length - sent - 1) + 1 ≤ n + (buf.length - sent))).first
      cases same
      obtain ⟨k, room⟩ := delivers.takes
      obtain ⟨polls', steady', written⟩ := ih (show sent + min (k + 1) (buf.length - sent) ≤ buf.length by omega)
        (onward.mono (by omega))
      refine ⟨polls', steady', ?_⟩
      simp only [writePolls, if_pos more, delivers.inTime, tcpSend, delivers.maySend, room, Bool.not_true,
        Bool.false_eq_true, if_false, if_pos (show min (k + 1) (buf.length - sent) > 0 by omega)]
      rw [written, append_assoc, ← drop_drop, take_append_drop]
    · have all : sent = buf.length := by omega
      subst all
      refine ⟨poll :: polls, steady.mono (by omega), ?_⟩
      simp [writePolls]

/-- There are rounds to read all the bytes of the peer and to write `n`. -/
def Flows (n : Nat) (s : BlockingTcpSocket) : Prop := Steady (n + s.incoming.length) s.polls

/-- A socket for these bytes of the peer, with one byte in each round. -/
def steady (n : Nat) (stream : List UInt8) : BlockingTcpSocket :=
  ⟨replicate (n + stream.length) (.prompt 1), stream, []⟩

theorem steady_flows (n : Nat) (stream : List UInt8) : (steady n stream).Flows n := Steady.replicate _ 0

theorem Flows.mono {n m : Nat} {s : BlockingTcpSocket} (flows : s.Flows n) (fewer : m ≤ n) :
    s.Flows m := Steady.mono flows (by omega)

theorem write_flows {buf : List UInt8} {s : BlockingTcpSocket} (flows : s.Flows (n + buf.length)) :
    ∃ s', s'.Flows n ∧ s'.incoming = s.incoming ∧ write buf s = .ok buf.length s' := by
  have steady : Steady (n + s.incoming.length + (buf.length - 0)) s.polls :=
    Steady.mono flows (by omega)
  obtain ⟨polls', steady', written⟩ := writePolls_steady (Nat.zero_le buf.length) steady
  exact ⟨⟨polls', s.incoming, s.outgoing ++ buf.drop 0⟩, steady', rfl, written⟩

end BlockingTcpSocket

end HavyOs.Tls
