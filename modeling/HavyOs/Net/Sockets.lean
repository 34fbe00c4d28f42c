import Mathlib.Data.List.FinRange
import Mathlib.Logic.Function.Basic

/-!
# Server sockets

The TCP server part of `NetState` (`lock/state/net.rs`, `net/server.rs`): a pool of four slots, each
with the smoltcp socket behind its handle. What smoltcp does between two calls is not modelled: the
state that it reports, and what it says to a send, a receive or a listen, come as arguments. A
socket records the state that was reported last, or into which the last call put it. That it was
closed here and that data went over it in this tick is recorded for the specification.
-/

namespace HavyOs.Net

/-- `tcp::State`. -/
inductive TcpState where
  | closed
  | listen
  | synSent
  | synReceived
  | established
  | finWait1
  | finWait2
  | closeWait
  | closing
  | lastAck
  | timeWait
deriving DecidableEq, Repr

/-- `close` of a socket: it begins to close its side. -/
def TcpState.afterClose : TcpState → TcpState
  | .listen | .synSent => .closed
  | .synReceived | .established => .finWait1
  | .closeWait => .lastAck
  | state => state

structure Socket where
  state : TcpState
  /-- `close` has been called since it last listened. -/
  closeIssued : Bool
  /-- Bytes went over it in this tick. -/
  exchanged : Bool
deriving DecidableEq, Repr

def Socket.listening : Socket := ⟨.listen, false, false⟩

variable (k : Socket)

def Socket.close : Socket := { k with state := k.state.afterClose, closeIssued := true }

inductive ServerSocketState where
  | free
  | listening
  | connected
  | closing
deriving DecidableEq, Repr

structure ServerSocket where
  handle : Option Socket
  port : Nat
  state : ServerSocketState
deriving DecidableEq, Repr

abbrev maxServerSockets : Nat := 4

abbrev TcpSocketId := Fin maxServerSockets

structure NetState where
  serverSockets : TcpSocketId → ServerSocket

inductive SendOutcome where
  /-- `may_send` is false. -/
  | shut
  | failed
  | sent (n : Nat)
deriving DecidableEq, Repr

namespace NetState

def new : NetState := ⟨fun _ => ⟨none, 0, .free⟩⟩

variable (net : NetState) (id : TcpSocketId)

def put (slot : ServerSocket) : NetState :=
  ⟨Function.update net.serverSockets id slot⟩

/-- A call on the socket behind a handle. -/
def onSocket (call : Socket → Socket) : NetState :=
  net.put id { net.serverSockets id with handle := (net.serverSockets id).handle.map call }

def allocate : Option TcpSocketId :=
  (List.finRange maxServerSockets).find? fun id => (net.serverSockets id).state = .free

/-- `tcp_listen`; `listens` is what smoltcp says. -/
def tcpListen (port : Nat) (listens : Bool) : Except String (TcpSocketId × NetState) :=
  match net.allocate with
  | none => .error "No server socket slots available"
  | some id =>
    if listens then .ok (id, net.put id ⟨some .listening, port, .listening⟩)
    else .error "Failed to listen on port"

/-- `tcp_accept`; `remote` says that the peer has an IPv4 address, `relistens` that the socket listens again. -/
def tcpAccept (remote relistens : Bool) : Option TcpSocketId × NetState :=
  let slot := net.serverSockets id
  if slot.state ≠ .listening then (none, net)
  else
    match slot.handle with
    | none => (none, net)
    | some socket =>
      match socket.state with
      | .established =>
        if remote then (some id, net.put id { slot with state := .connected })
        else (none, net)
      | .closed | .timeWait =>
        if relistens then (none, net.put id { slot with handle := some .listening, state := .listening })
        else (none, net)
      | _ => (none, net)

/-- `tcp_server_state`, `None` for `Invalid`. -/
def tcpServerState (reported : TcpState) : Option TcpState × NetState :=
  match (net.serverSockets id).handle with
  | none => (none, net)
  | some _ => (some reported, net.onSocket id fun socket => { socket with state := reported })

/-- The tests both daemons make on a listening socket: its state is `Established`, or `tcp_accept` gives a connection.
-/
def incoming (reported : TcpState) (remote relistens : Bool) :
    Option TcpSocketId × NetState :=
  let (state, net) := net.tcpServerState id reported
  if state = some .established then (some id, net)
  else net.tcpAccept id remote relistens

def tcpSendOn (data : List UInt8) (outcome : SendOutcome) :
    Except String Nat × NetState :=
  match (net.serverSockets id).handle with
  | none => (.error "Invalid socket ID", net)
  | some _ =>
    match outcome with
    | .shut => (.error "Socket cannot send", net)
    | .failed => (.error "Failed to send data", net)
    | .sent n =>
      let sent := min n data.length
      (.ok sent, net.onSocket id fun socket => { socket with exchanged := socket.exchanged || 0 < sent })

def tcpCloseOn : NetState := net.onSocket id Socket.close

def tcpReleaseServer : NetState := net.put id ⟨none, 0, .free⟩

/-- `tcp_recv_on` into a buffer of `room` bytes. -/
def tcpRecvOn (room : Nat) (bytes : List UInt8) :
    Except String (List UInt8) × NetState :=
  match (net.serverSockets id).handle with
  | none => (.error "Invalid socket ID", net)
  | some _ =>
    let received := bytes.take room
    (.ok received, net.onSocket id fun socket => { socket with exchanged := socket.exchanged || received ≠ [] })

/-! ## What the calls keep -/

variable {net net' : NetState} {id other : TcpSocketId} {slot : ServerSocket}

@[simp] theorem put_self : (net.put id slot).serverSockets id = slot := Function.update_self ..

theorem put_other (ne : other ≠ id) : (net.put id slot).serverSockets other = net.serverSockets other :=
  Function.update_of_ne ne ..

/-- `net'` differs from `net` in the socket of one slot only. -/
structure SameSlots (id : TcpSocketId) (net net' : NetState) : Prop where
  frame : ∀ {other}, other ≠ id → net'.serverSockets other = net.serverSockets other
  state : (net'.serverSockets id).state = (net.serverSockets id).state
  socket : (net'.serverSockets id).handle.isSome = (net.serverSockets id).handle.isSome

theorem SameSlots.refl (id : TcpSocketId) (net : NetState) : SameSlots id net net := ⟨fun _ => rfl, rfl, rfl⟩

theorem SameSlots.trans {middle : NetState} (first : SameSlots id net middle) (second : SameSlots id middle net') :
    SameSlots id net net' :=
  ⟨fun ne => (second.frame ne).trans (first.frame ne), second.state.trans first.state, second.socket.trans first.socket⟩

theorem sameSlots_onSocket (net : NetState) (id : TcpSocketId) (call : Socket → Socket) :
    SameSlots id net (net.onSocket id call) := by
  refine ⟨fun ne => put_other ne, ?_, ?_⟩
  · simp [onSocket]
  · simp [onSocket]

theorem sameSlots_tcpServerState (net : NetState) (id : TcpSocketId) (reported : TcpState) :
    SameSlots id net (net.tcpServerState id reported).2 := by
  rw [tcpServerState]
  split
  · exact .refl id net
  · exact sameSlots_onSocket net id _

theorem sameSlots_tcpSendOn (net : NetState) (id : TcpSocketId) (data : List UInt8) (outcome : SendOutcome) :
    SameSlots id net (net.tcpSendOn id data outcome).2 := by
  simp only [tcpSendOn]
  split
  · exact .refl id net
  · split
    · exact .refl id net
    · exact .refl id net
    · exact sameSlots_onSocket net id _

theorem sameSlots_tcpRecvOn (net : NetState) (id : TcpSocketId) (room : Nat) (bytes : List UInt8) :
    SameSlots id net (net.tcpRecvOn id room bytes).2 := by
  rw [tcpRecvOn]
  split
  · exact .refl id net
  · exact sameSlots_onSocket net id _

/-! ## Which slots are in use -/

def InUse (net : NetState) (id : TcpSocketId) : Prop := (net.serverSockets id).state ≠ .free

instance (net : NetState) (id : TcpSocketId) : Decidable (net.InUse id) := inferInstanceAs (Decidable (_ ≠ _))

theorem SameSlots.inUse (same : SameSlots id net net') (other : TcpSocketId) : net'.InUse other ↔ net.InUse other := by
  rw [InUse, InUse]
  by_cases is : other = id
  · rw [is, same.state]
  · rw [same.frame is]

theorem inUse_put (busy : slot.state ≠ .free) (other : TcpSocketId) :
    (net.put id slot).InUse other ↔ other = id ∨ net.InUse other := by
  rw [InUse]
  by_cases is : other = id
  · rw [is, put_self]
    exact iff_of_true busy (.inl rfl)
  · rw [put_other is]
    exact (or_iff_right is).symm

theorem inUse_tcpReleaseServer (other : TcpSocketId) :
    (net.tcpReleaseServer id).InUse other ↔ other ≠ id ∧ net.InUse other := by
  rw [InUse, tcpReleaseServer]
  by_cases is : other = id
  · rw [is]
    simp
  · rw [put_other is]
    exact (and_iff_right is).symm

/-- A slot that listens was free. -/
theorem tcpListen_ok {port : Nat} {listens : Bool} (ok : net.tcpListen port listens = .ok (id, net')) :
    ¬net.InUse id ∧ net' = net.put id ⟨some .listening, port, .listening⟩ := by
  rw [tcpListen] at ok
  split at ok
  · cases ok
  · rename_i free found
    split_ifs at ok
    cases ok
    have is := List.find?_some found
    exact ⟨not_not.mpr (by simpa using is), rfl⟩

theorem tcpListen_error {port : Nat} {e : String} (failed : net.tcpListen port true = .error e) (id : TcpSocketId) :
    net.InUse id := by
  rw [tcpListen] at failed
  split at failed
  · rename_i none
    have used := List.find?_eq_none.mp none id (List.mem_finRange id)
    simpa [InUse] using used
  · cases failed

/-- Accepting gives the listening socket itself and leaves the slots in use as they are. -/
theorem tcpAccept_spec (net : NetState) (id : TcpSocketId) (remote relistens : Bool) :
    (∀ conn, (net.tcpAccept id remote relistens).1 = some conn → conn = id) ∧
      ∀ other, (net.tcpAccept id remote relistens).2.InUse other ↔ net.InUse other := by
  simp only [tcpAccept]
  split
  · exact ⟨nofun, fun _ => Iff.rfl⟩
  · rename_i listening
    have busy : net.InUse id := by
      rw [InUse, not_not.mp listening]
      simp
    have refilled {slot : ServerSocket} (used : slot.state ≠ .free) (other : TcpSocketId) :
        (net.put id slot).InUse other ↔ net.InUse other := by
      rw [inUse_put used]
      exact or_iff_right_of_imp fun is => is ▸ busy
    split
    · exact ⟨nofun, fun _ => Iff.rfl⟩
    · split
      · split
        · exact ⟨fun conn is => (Option.some.inj is).symm, refilled (by simp)⟩
        · exact ⟨nofun, fun _ => Iff.rfl⟩
      · split
        · exact ⟨nofun, refilled (by simp)⟩
        · exact ⟨nofun, fun _ => Iff.rfl⟩
      · split
        · exact ⟨nofun, refilled (by simp)⟩
        · exact ⟨nofun, fun _ => Iff.rfl⟩
      · exact ⟨nofun, fun _ => Iff.rfl⟩

theorem incoming_spec (net : NetState) (id : TcpSocketId) (reported : TcpState) (remote relistens : Bool) :
    (∀ conn, (net.incoming id reported remote relistens).1 = some conn → conn = id) ∧
      ∀ other, (net.incoming id reported remote relistens).2.InUse other ↔ net.InUse other := by
  have looked := (net.sameSlots_tcpServerState id reported).inUse
  simp only [incoming]
  split
  · exact ⟨fun conn is => (Option.some.inj is).symm, looked⟩
  · obtain ⟨same, slots⟩ := tcpAccept_spec (net.tcpServerState id reported).2 id remote relistens
    exact ⟨same, fun other => (slots other).trans (looked other)⟩

theorem onSocket_eq {k : Socket} (handle : (net.serverSockets id).handle = some k) (call : Socket → Socket) :
    net.onSocket id call = net.put id { net.serverSockets id with handle := some (call k) } := by
  rw [onSocket, handle, Option.map_some]

theorem put_put (slot slot' : ServerSocket) : (net.put id slot).put id slot' = net.put id slot' :=
  congrArg mk (Function.update_idem _ _ _)

theorem onSocket_put (call : Socket → Socket) :
    (net.put id { slot with handle := some k }).onSocket id call =
    net.put id { slot with handle := some (call k) } := by
  have handle : ((net.put id { slot with handle := some k }).serverSockets id).handle = some k :=
    congrArg ServerSocket.handle put_self
  rw [onSocket_eq handle, put_put, put_self]

theorem tcpSendOn_put (data : List UInt8) (outcome : SendOutcome) :
    (net.put id { slot with handle := some k }).tcpSendOn id data outcome =
      match outcome with
      | .shut => (.error "Socket cannot send", net.put id { slot with handle := some k })
      | .failed => (.error "Failed to send data", net.put id { slot with handle := some k })
      | .sent n => (.ok (min n data.length), net.put id { slot with
          handle := some { k with exchanged := k.exchanged || 0 < min n data.length } }) := by
  have handle : ((net.put id { slot with handle := some k }).serverSockets id).handle = some k :=
    congrArg ServerSocket.handle put_self
  simp only [tcpSendOn, handle]
  cases outcome with
  | sent n => exact congrArg (Prod.mk _) (onSocket_put k _)
  | _ => rfl

theorem tcpServerState_eq {k : Socket} (handle : (net.serverSockets id).handle = some k) (reported : TcpState) :
    net.tcpServerState id reported =
      (some reported, net.put id { net.serverSockets id with handle := some { k with state := reported } }) := by
  rw [tcpServerState, handle]
  exact congrArg (Prod.mk _) (onSocket_eq handle _)

/-- A connection is a listening socket that has been reported as established. -/
theorem incoming_some {conn : TcpSocketId} {reported : TcpState} {remote relistens : Bool}
    (is : (net.incoming id reported remote relistens).1 = some conn) :
    reported = .established ∧ ((net.incoming id reported remote relistens).2.serverSockets id).handle ≠ none := by
  cases handle : (net.serverSockets id).handle with
  | none => simp [incoming, tcpServerState, tcpAccept, handle] at is
  | some k =>
    by_cases connected : reported = .established
    · simp [incoming, tcpServerState_eq handle, connected]
    · rw [incoming, tcpServerState_eq handle] at is
      cases reported <;> simp [tcpAccept, apply_ite] at is connected

theorem incoming_of_listening {k : Socket} (handle : (net.serverSockets id).handle = some k)
    (listening : (net.serverSockets id).state = .listening) (reported : TcpState) (remote : Bool) :
    ∃ k', net.incoming id reported remote true =
        (if reported = .established then some id else none,
        net.put id { net.serverSockets id with handle := some k' }) ∧
      (k' = { k with state := reported } ∧ reported ≠ .closed ∧ reported ≠ .timeWait ∨ k' = .listening) := by
  refine ⟨if reported = .closed ∨ reported = .timeWait then .listening else { k with state := reported }, ?_, ?_⟩
  · rw [incoming, tcpServerState_eq handle]
    cases reported <;> simp [tcpAccept, listening, put_put]
  · split_ifs with other
    · exact .inr rfl
    · exact .inl ⟨rfl, not_or.mp other⟩

end NetState

end HavyOs.Net
