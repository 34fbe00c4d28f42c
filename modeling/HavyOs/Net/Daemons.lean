import HavyOs.Lib.Holding
import HavyOs.Net.Sockets

/-!
# The network daemons

`tick` of `httpd` and of `tcpd` with what they call, over the shared pool of server sockets. A tick
is given what happens during it: whether it gets the network, what smoltcp reports and says, what
arrives in each round of a loop until its time is up. The clock moves on, so every loop ends.
-/

namespace HavyOs.Net

open Lib

def httpdPort : Nat := 80

def tcpdPort : Nat := 30

def maxRequestSize : Nat := 4096

structure Httpd where
  initialized : Bool
  lastRun : Int
  listenSocket : Option TcpSocketId

structure TcpdConnection where
  socketId : Option TcpSocketId
  sentHello : Bool
  closePending : Bool
deriving DecidableEq, Repr

def TcpdConnection.new : TcpdConnection := ⟨none, false, false⟩

abbrev maxConnections : Nat := 4

structure Tcpd where
  initialized : Bool
  lastRun : Int
  listenSocket : Option TcpSocketId
  connections : Fin maxConnections → TcpdConnection

structure Daemons where
  net : NetState
  httpd : Httpd
  tcpd : Tcpd

variable (s : Daemons) (c : Fin maxConnections)

namespace Daemons

def new : Daemons where
  net := .new
  httpd := ⟨false, 0, none⟩
  tcpd := ⟨false, 0, none, fun _ => .new⟩

def setNet (net : NetState) : Daemons := { s with net := net }

def setHttpdListen (id : Option TcpSocketId) : Daemons :=
  { s with httpd := { s.httpd with listenSocket := id } }

def setTcpdListen (id : Option TcpSocketId) : Daemons :=
  { s with tcpd := { s.tcpd with listenSocket := id } }

def setConnection (connection : TcpdConnection) : Daemons :=
  { s with tcpd := { s.tcpd with connections := Function.update s.tcpd.connections c connection } }

def ranHttpd (now : Int) : Daemons := { s with httpd := { s.httpd with lastRun := now } }

def ranTcpd (now : Int) : Daemons := { s with tcpd := { s.tcpd with lastRun := now } }

/-- Nothing has gone over a socket in the tick that begins. -/
def beginTick : Daemons :=
  s.setNet ⟨fun id =>
    let slot := s.net.serverSockets id
    { slot with handle := slot.handle.map fun socket => { socket with exchanged := false } }⟩

end Daemons

/-! ## httpd -/

structure HttpdInput where
  /-- The lock is free and there is a network. -/
  network : Bool
  now : Int
  reported : TcpState
  /-- What smoltcp says to the three places that listen. -/
  listensFirst : Bool
  relistens : Bool
  listensLast : Bool
  remote : Bool
  /-- What arrives in each round until the time is up. -/
  received : List (List UInt8)
  response : List UInt8 → List UInt8
  /-- What smoltcp says in each round until the time is up. -/
  sends : List SendOutcome

def hasEnd (request : List UInt8) : Bool := [13, 10, 13, 10] <:+: request

/-- The first loop of `handle_connection`. -/
def recvLoop (id : TcpSocketId) : List (List UInt8) → List UInt8 → NetState → List UInt8 × NetState
  | [], request, net => (request, net)
  | bytes :: rounds, request, net =>
    match net.tcpRecvOn id (maxRequestSize - request.length) bytes with
    | (.error _, net) => (request, net)
    | (.ok received, net) =>
      if received ≠ [] ∧ hasEnd (request ++ received) then (request ++ received, net)
      else recvLoop id rounds (request ++ received) net

/-- The second loop of `handle_connection`. -/
def sendLoop (id : TcpSocketId) (response : List UInt8) : List SendOutcome → Nat → NetState → NetState
  | [], _, net => net
  | outcome :: rounds, sent, net =>
    if sent < response.length then
      match net.tcpSendOn id (response.drop sent) outcome with
      | (.error _, net) => net
      | (.ok n, net) => sendLoop id response rounds (sent + n) net
    else net

variable (input : HttpdInput)

def handleConnection (id : TcpSocketId) (net : NetState) : NetState :=
  let (request, net) := recvLoop id input.received [] net
  if request.length = 0 then net.tcpCloseOn id
  else ((sendLoop id (input.response request) input.sends 0 net).tcpCloseOn id).tcpReleaseServer id

theorem sameSlots_recvLoop (id : TcpSocketId) (rounds : List (List UInt8)) (request : List UInt8) (net : NetState) :
    NetState.SameSlots id net (recvLoop id rounds request net).2 := by
  induction rounds generalizing request net with
  | nil => exact .refl id net
  | cons bytes rounds ih =>
    have first := net.sameSlots_tcpRecvOn id (maxRequestSize - request.length) bytes
    rw [recvLoop]
    split
    · rename_i step
      rwa [step] at first
    · rename_i step
      rw [step] at first
      split
      · exact first
      · exact first.trans (ih _ _)

theorem recvLoop_ne_nil {id : TcpSocketId} (rounds : List (List UInt8)) {request : List UInt8} {net : NetState}
    (handle : (net.serverSockets id).handle ≠ none) (spoken : request ≠ [] ∨ ∃ bytes ∈ rounds, bytes ≠ []) :
    (recvLoop id rounds request net).1 ≠ [] := by
  induction rounds generalizing request net with
  | nil => simpa [recvLoop] using spoken
  | cons bytes rounds ih =>
    obtain ⟨k, has⟩ := Option.ne_none_iff_exists'.mp handle
    rw [recvLoop, NetState.tcpRecvOn, has]
    dsimp only
    split_ifs with ends
    · simp [ends.1]
    · refine ih (by simp [NetState.onSocket, has]) ?_
      by_cases still : request ++ bytes.take (maxRequestSize - request.length) = []
      · -- nothing has come so far, and there is room, so these were no bytes
        obtain ⟨rfl, none⟩ := List.append_eq_nil_iff.mp still
        have empty : bytes = [] := by simpa [maxRequestSize] using none
        simpa [empty] using spoken
      · exact .inl still

theorem sameSlots_sendLoop (id : TcpSocketId) (response : List UInt8) (rounds : List SendOutcome) (sent : Nat)
    (net : NetState) :
    NetState.SameSlots id net (sendLoop id response rounds sent net) := by
  induction rounds generalizing sent net with
  | nil => exact .refl id net
  | cons outcome rounds ih =>
    have first := net.sameSlots_tcpSendOn id (response.drop sent) outcome
    rw [sendLoop]
    split
    · split
      · rename_i step
        rwa [step] at first
      · rename_i step
        rw [step] at first
        exact first.trans (ih _ _)
    · exact .refl id net

/-- A connection over which a request came is given back, any other is closed only. -/
theorem handleConnection_eq (id : TcpSocketId) (net : NetState) :
    ∃ net₁, NetState.SameSlots id net net₁ ∧ handleConnection input id net =
      if (recvLoop id input.received [] net).1 = [] then net₁.tcpCloseOn id
      else (net₁.tcpCloseOn id).tcpReleaseServer id := by
  have received := sameSlots_recvLoop id input.received [] net
  rw [handleConnection]
  by_cases none : (recvLoop id input.received [] net).1 = []
  · refine ⟨_, received, ?_⟩
    simp [none]
  · refine ⟨_,
      received.trans (sameSlots_sendLoop id (input.response (recvLoop id input.received [] net).1) input.sends 0 _), ?_⟩
    simp [none]

namespace Daemons

/-- `if LISTEN_SOCKET.is_none()`. -/
def httpdListen (listens : Bool) (s : Daemons) : Daemons :=
  match s.httpd.listenSocket with
  | some _ => s
  | none =>
    match s.net.tcpListen httpdPort listens with
    | .ok (id, net) => (s.setNet net).setHttpdListen (some id)
    | .error _ => s

/-- The connection that is handed to `handle_connection`, if there is one. -/
def httpdConnection (s : Daemons) : Option TcpSocketId × NetState :=
  match s.httpd.listenSocket with
  | none => (none, s.net)
  | some id => s.net.incoming id input.reported input.remote input.relistens

def httpdServe (s : Daemons) : Daemons :=
  match s.httpdConnection input with
  | (none, net) => s.setNet net
  | (some id, net) => (s.setNet (handleConnection input id net)).setHttpdListen none

/-- `tick_impl` of `httpd`, once it has the network. -/
def httpdTickImpl (s : Daemons) : Daemons :=
  ((s.beginTick.httpdListen input.listensFirst).httpdServe input).httpdListen input.listensLast

def HttpdDue : Prop := s.httpd.initialized ∧ ¬input.now - s.httpd.lastRun < 10

instance : Decidable (s.HttpdDue input) := inferInstanceAs (Decidable (_ ∧ _))

def httpdTick (s : Daemons) : Daemons :=
  if s.HttpdDue input then
    if input.network then (s.ranHttpd input.now).httpdTickImpl input else s.ranHttpd input.now
  else s

end Daemons

/-! ## tcpd -/

structure ServiceInput where
  reported : TcpState
  outcome : SendOutcome
  listens : Bool
deriving DecidableEq, Repr

structure TcpdInput where
  network : Bool
  now : Int
  reported : TcpState
  relistens : Bool
  remote : Bool
  services : Fin maxConnections → ServiceInput

def works : List UInt8 := [119, 111, 114, 107, 115, 10]

namespace Daemons

variable (id : TcpSocketId)

/-- The listening socket becomes a connection, if there is room for one. -/
def takeConnection (s : Daemons) : Daemons :=
  match (List.finRange maxConnections).find? fun c => (s.tcpd.connections c).socketId = none with
  | none => s
  | some c => (s.setConnection c ⟨some id, false, false⟩).setTcpdListen none

def tcpdAccept (input : TcpdInput) (s : Daemons) : Daemons :=
  match s.tcpd.listenSocket with
  | none => s
  | some id =>
    match s.net.incoming id input.reported input.remote input.relistens with
    | (none, net) => s.setNet net
    | (some id, net) => (s.setNet net).takeConnection id

/-- `tcp_release_server`, `reset` and, if `tcpd` does not listen, `tcp_listen`. -/
def releaseConnection (listens : Bool) (s : Daemons) : Daemons :=
  let s := (s.setNet (s.net.tcpReleaseServer id)).setConnection c .new
  match s.tcpd.listenSocket with
  | some _ => s
  | none =>
    match s.net.tcpListen tcpdPort listens with
    | .ok (id, net) => (s.setNet net).setTcpdListen (some id)
    | .error _ => s

def closeConnection (s : Daemons) : Daemons :=
  (s.setNet (s.net.tcpCloseOn id)).setConnection c { s.tcpd.connections c with closePending := true }

/-- One round of the loop over the connections. -/
def serviceConnection (input : ServiceInput) (c : Fin maxConnections) (s : Daemons) : Daemons :=
  match (s.tcpd.connections c).socketId with
  | none => s
  | some id =>
    let (state, net) := s.net.tcpServerState id input.reported
    let s := s.setNet net
    if (s.tcpd.connections c).closePending then
      if state = some .closed ∨ state = some .timeWait then s.releaseConnection c id input.listens else s
    else if state ≠ some .established then
      if state = some .closed ∨ state = some .timeWait then s.releaseConnection c id input.listens else s
    else if (s.tcpd.connections c).sentHello = false then
      match s.net.tcpSendOn id works input.outcome with
      | (.ok sent, net) =>
        if 0 < sent then (s.setNet net).setConnection c { s.tcpd.connections c with sentHello := true }
        else s.setNet net
      | (.error _, net) => (s.setNet net).closeConnection c id
    else s.closeConnection c id

def serviceConnections (input : TcpdInput) (s : Daemons) : Daemons :=
  (List.finRange maxConnections).foldl (fun s c => s.serviceConnection (input.services c) c) s

/-- `tick_impl` of `tcpd`, once it has the network. -/
def tcpdTickImpl (input : TcpdInput) (s : Daemons) : Daemons := (s.beginTick.tcpdAccept input).serviceConnections input

def TcpdDue (input : TcpdInput) : Prop := s.tcpd.initialized ∧ ¬input.now - s.tcpd.lastRun < 10

instance (input : TcpdInput) : Decidable (s.TcpdDue input) := inferInstanceAs (Decidable (_ ∧ _))

def tcpdTick (input : TcpdInput) (s : Daemons) : Daemons :=
  if s.TcpdDue input then
    if input.network then (s.ranTcpd input.now).tcpdTickImpl input else s.ranTcpd input.now
  else s

/-! ## Start and ticks -/

def httpdInit (network : Bool) (s : Daemons) : Except String Daemons :=
  if network then .ok { s with httpd := { s.httpd with initialized := true } }
  else .error "Network not available"

def tcpdInit (network listens : Bool) (s : Daemons) : Except String Daemons :=
  if network then
    match s.net.tcpListen tcpdPort listens with
    | .ok (id, net) => .ok { s with net := net, tcpd := { s.tcpd with initialized := true, listenSocket := some id } }
    | .error e => .error e
  else .error "Network not available"

end Daemons

/-- The daemons that are wanted have been initialised, each at most once. -/
inductive Booted : Daemons → Prop where
  | new : Booted .new
  | httpd {s s' : Daemons} {network : Bool} : Booted s → s.httpdInit network = .ok s' → Booted s'
  | tcpd {s s' : Daemons} {network listens : Bool} :
    Booted s → s.tcpd.initialized = false → s.tcpdInit network listens = .ok s' → Booted s'

inductive Tick where
  | httpd (input : HttpdInput)
  | tcpd (input : TcpdInput)

def Daemons.tick : Tick → Daemons
  | .httpd input => s.httpdTick input
  | .tcpd input => s.tcpdTick input

def Daemons.Step (tick : Tick) (s' : Daemons) : Prop := s' = s.tick tick

end HavyOs.Net
