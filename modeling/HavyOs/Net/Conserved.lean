import HavyOs.Lib.Run
import HavyOs.Net.Daemons

/-!
# Server slots are conserved

Every slot that is in use is held by one of the places that refer to slots: the listening sockets of
the two daemons and the connections of `tcpd`. There is one exit on which this fails: `httpd` closes
a connection over which nothing came without giving its slot back, and forgets it.
-/

namespace HavyOs.Net

open Lib NetState Function Daemons

/-- Where a daemon keeps a socket id. -/
inductive Place where
  | httpdListen
  | tcpdListen
  | connection (c : Fin maxConnections)
deriving DecidableEq, Repr

variable (s : Daemons) (now : Int)

namespace Daemons

def holds : Place → Option TcpSocketId
  | .httpdListen => s.httpd.listenSocket
  | .tcpdListen => s.tcpd.listenSocket
  | .connection c => (s.tcpd.connections c).socketId

section Holds

variable (s : Daemons)

@[simp] theorem holds_setNet (net : NetState) : (s.setNet net).holds = s.holds := by
  funext place
  cases place <;> rfl

@[simp] theorem holds_beginTick : s.beginTick.holds = s.holds := s.holds_setNet _

@[simp] theorem holds_setHttpdListen (id : Option TcpSocketId) :
    (s.setHttpdListen id).holds = update s.holds .httpdListen id := by
  funext place
  cases place <;> rfl

@[simp] theorem holds_setTcpdListen (id : Option TcpSocketId) :
    (s.setTcpdListen id).holds = update s.holds .tcpdListen id := by
  funext place
  cases place <;> rfl

@[simp] theorem holds_setConnection (c : Fin maxConnections) (connection : TcpdConnection) :
    (s.setConnection c connection).holds = update s.holds (.connection c) connection.socketId := by
  funext place
  cases place with
  | connection other =>
    by_cases same : other = c
    · subst same
      simp [holds, setConnection]
    · simp [holds, setConnection, same]
  | _ => rfl

@[simp] theorem holds_ranHttpd : (s.ranHttpd now).holds = s.holds := by
  funext place
  cases place <;> rfl

@[simp] theorem holds_ranTcpd : (s.ranTcpd now).holds = s.holds := by
  funext place
  cases place <;> rfl

end Holds

end Daemons

/-! ## One change -/

/-- No slot is held twice, and only slots in use are held. -/
structure Linked (s : Daemons) : Prop where
  exclusive : Exclusive s.holds
  inUse : ∀ {id}, Held s.holds id → s.net.InUse id

/-- In use and not held. -/
def Leaked (id : TcpSocketId) : Prop := s.net.InUse id ∧ ¬Held s.holds id

/-- A change that loses no slot. -/
structure Sound (s s' : Daemons) : Prop where
  linked : Linked s'
  leaked : ∀ {id}, Leaked s' id → Leaked s id

theorem Sound.trans {s s₁ s' : Daemons} (first : Sound s s₁) (second : Sound s₁ s') : Sound s s' :=
  ⟨second.linked, fun lost => first.leaked (second.leaked lost)⟩

section Changes

variable {s s' : Daemons} {place other : Place} {id : TcpSocketId}

variable (linked : Linked s)

include linked

theorem Linked.kept (holds : s'.holds = s.holds) (slots : ∀ id, s'.net.InUse id ↔ s.net.InUse id) : Sound s s' := by
  refine ⟨⟨?_, ?_⟩, ?_⟩
  · rw [holds]
    exact linked.exclusive
  · intro id held
    rw [holds] at held
    exact (slots id).mpr (linked.inUse held)
  · rintro id ⟨inUse, unheld⟩
    rw [holds] at unheld
    exact ⟨(slots id).mp inUse, unheld⟩

theorem Linked.same (holds : s'.holds = s.holds) (net : s'.net = s.net) : Sound s s' :=
  linked.kept holds fun _ => by rw [net]

theorem Linked.taken (empty : s.holds place = none) (free : ¬s.net.InUse id)
    (holds : s'.holds = update s.holds place (some id)) (slots : ∀ j, s'.net.InUse j ↔ j = id ∨ s.net.InUse j) :
    Sound s s' := by
  refine ⟨⟨?_, ?_⟩, ?_⟩
  · rw [holds]
    exact linked.exclusive.take fun held => free (linked.inUse held)
  · intro j held
    rw [holds, held_take empty] at held
    exact (slots j).mpr (held.imp_right linked.inUse)
  · rintro j ⟨inUse, unheld⟩
    rw [holds, held_take empty, not_or] at unheld
    exact ⟨((slots j).mp inUse).resolve_left unheld.1, unheld.2⟩

theorem Linked.released (has : s.holds place = some id)
    (holds : s'.holds = update s.holds place none) (slots : ∀ j, s'.net.InUse j ↔ j ≠ id ∧ s.net.InUse j) :
    Sound s s' := by
  refine ⟨⟨?_, ?_⟩, ?_⟩
  · rw [holds]
    exact linked.exclusive.drop
  · intro j held
    rw [holds, linked.exclusive.held_drop has] at held
    exact (slots j).mpr ⟨held.1, linked.inUse held.2⟩
  · rintro j ⟨inUse, unheld⟩
    obtain ⟨ne, inUse⟩ := (slots j).mp inUse
    rw [holds, linked.exclusive.held_drop has] at unheld
    exact ⟨inUse, fun held => unheld ⟨ne, held⟩⟩

theorem Linked.moved (has : s.holds place = some id) (empty : s.holds other = none)
    (holds : s'.holds = update (update s.holds place none) other (some id))
    (slots : ∀ j, s'.net.InUse j ↔ s.net.InUse j) : Sound s s' := by
  have same {j : TcpSocketId} : Held s'.holds j ↔ Held s.holds j := by
    rw [holds]
    exact linked.exclusive.held_move has empty
  refine ⟨⟨?_, ?_⟩, ?_⟩
  · rw [holds]
    exact linked.exclusive.move has
  · exact fun held => (slots _).mpr (linked.inUse (same.mp held))
  · exact fun lost => ⟨(slots _).mp lost.1, fun held => lost.2 (same.mpr held)⟩

theorem Linked.dropped (holds : s'.holds = update s.holds place none)
    (slots : ∀ j, s'.net.InUse j ↔ s.net.InUse j) : Linked s' := by
  constructor
  · rw [holds]
    exact linked.exclusive.drop
  · rintro j ⟨k, has⟩
    rw [holds] at has
    exact (slots j).mpr (linked.inUse ⟨k, (of_drop has).2⟩)

end Changes

/-! ## httpd -/

section Httpd

variable {s : Daemons}

theorem Linked.setNet (linked : Linked s) {net : NetState} (slots : ∀ id, net.InUse id ↔ s.net.InUse id) :
    Sound s (s.setNet net) := linked.kept (s.holds_setNet net) slots

theorem Linked.beginTick (linked : Linked s) : Sound s s.beginTick := linked.setNet fun _ => Iff.rfl

theorem Linked.httpdListen (linked : Linked s) (listens : Bool) : Sound s (s.httpdListen listens) := by
  rw [Daemons.httpdListen]
  split
  · exact linked.same rfl rfl
  · rename_i none
    have empty : s.holds .httpdListen = .none := none
    split
    · rename_i id net ok
      obtain ⟨free, rfl⟩ := tcpListen_ok ok
      exact linked.taken empty free (by simp) (inUse_put (by simp))
    · exact linked.same rfl rfl

/-- The connection is the listening socket itself. -/
theorem httpdConnection_spec (s : Daemons) (input : HttpdInput) :
    (∀ id, (s.httpdConnection input).1 = some id → s.httpd.listenSocket = some id) ∧
      ∀ id, (s.httpdConnection input).2.InUse id ↔ s.net.InUse id := by
  rw [httpdConnection]
  split
  · exact ⟨nofun, fun _ => Iff.rfl⟩
  · rename_i id listen
    obtain ⟨same, slots⟩ := s.net.incoming_spec id input.reported input.remote input.relistens
    rw [listen]
    exact ⟨fun conn is => congrArg some (same conn is).symm, slots⟩

/-- If the listening socket is connected, bytes arrive over it before the time is up. -/
def Daemons.HasRequest (s : Daemons) (input : HttpdInput) : Prop :=
  s.httpd.listenSocket ≠ none → input.reported = .established → ∃ bytes ∈ input.received, bytes ≠ []

theorem Daemons.HasRequest.received {input : HttpdInput} {id : TcpSocketId} {net : NetState}
    (request : s.HasRequest input)
    (connection : s.httpdConnection input = (some id, net)) : (recvLoop id input.received [] net).1 ≠ [] := by
  have listen := (httpdConnection_spec s input).1 id (by rw [connection])
  rw [httpdConnection, listen] at connection
  dsimp only at connection
  obtain ⟨connected, handle⟩ := incoming_some (congrArg Prod.fst connection)
  rw [connection] at handle
  exact recvLoop_ne_nil input.received handle (.inr (request (by simp [listen]) connected))

theorem Linked.httpdServe (linked : Linked s) (input : HttpdInput) :
    Linked (s.httpdServe input) ∧ (s.HasRequest input → Sound s (s.httpdServe input)) := by
  obtain ⟨isListen, slots⟩ := httpdConnection_spec s input
  rw [Daemons.httpdServe]
  split
  · rename_i net connection
    rw [connection] at slots
    have sound := linked.setNet slots
    exact ⟨sound.linked, fun _ => sound⟩
  · rename_i id net connection
    rw [connection] at slots isListen
    have has : s.holds .httpdListen = some id := isListen id rfl
    obtain ⟨net₁, same, handled⟩ := handleConnection_eq input id net
    have closed (other : TcpSocketId) : (net₁.tcpCloseOn id).InUse other ↔ s.net.InUse other :=
      ((sameSlots_onSocket net₁ id Socket.close).inUse other).trans ((same.inUse other).trans (slots other))
    by_cases silent : (recvLoop id input.received [] net).1 = []
    · rw [if_pos silent] at handled
      rw [handled]
      have forgets :
          ((s.setNet (net₁.tcpCloseOn id)).setHttpdListen none).holds = update s.holds .httpdListen none := by
        simp
      exact ⟨linked.dropped forgets closed, fun request => absurd silent (request.received connection)⟩
    · rw [if_neg silent] at handled
      rw [handled]
      have sound : Sound s ((s.setNet ((net₁.tcpCloseOn id).tcpReleaseServer id)).setHttpdListen none) :=
        linked.released has (by simp) fun other =>
        (inUse_tcpReleaseServer other).trans (and_congr_right fun _ => closed other)
      exact ⟨sound.linked, fun _ => sound⟩

end Httpd

/-! ## tcpd -/

section Tcpd

variable {s : Daemons}

variable (linked : Linked s)

include linked

theorem Linked.takeConnection {id : TcpSocketId} (listen : s.tcpd.listenSocket = some id) :
    Sound s (s.takeConnection id) := by
  rw [Daemons.takeConnection]
  split
  · exact linked.same rfl rfl
  · rename_i c found
    have has : s.holds .tcpdListen = some id := listen
    have unused : (s.tcpd.connections c).socketId = none := by simpa using List.find?_some found
    have empty : s.holds (.connection c) = none := unused
    refine linked.moved has empty ?_ fun _ => Iff.rfl
    rw [holds_setTcpdListen, holds_setConnection, update_comm (by simp)]

theorem Linked.tcpdAccept (input : TcpdInput) : Sound s (s.tcpdAccept input) := by
  rw [Daemons.tcpdAccept]
  split
  · exact linked.same rfl rfl
  · rename_i id listen
    obtain ⟨same, slots⟩ := s.net.incoming_spec id input.reported input.remote input.relistens
    split
    · rename_i net accepted
      rw [accepted] at slots
      exact linked.setNet slots
    · rename_i conn net accepted
      rw [accepted] at slots same
      obtain rfl := same conn rfl
      have sound := linked.setNet slots
      exact sound.trans (sound.linked.takeConnection listen)

variable {c : Fin maxConnections} {id : TcpSocketId}

theorem Linked.releaseConnection (has : (s.tcpd.connections c).socketId = some id) (listens : Bool) :
    Sound s (s.releaseConnection c id listens) := by
  have held : s.holds (.connection c) = some id := has
  have released : Sound s ((s.setNet (s.net.tcpReleaseServer id)).setConnection c .new) :=
    linked.released held (by simp [TcpdConnection.new]) inUse_tcpReleaseServer
  simp only [Daemons.releaseConnection]
  split
  · exact released
  · rename_i none
    have empty : ((s.setNet (s.net.tcpReleaseServer id)).setConnection c .new).holds .tcpdListen = .none := none
    split
    · rename_i new net ok
      obtain ⟨free, rfl⟩ := tcpListen_ok ok
      exact released.trans (released.linked.taken empty free (by simp) (inUse_put (by simp)))
    · exact released

theorem Linked.setConnection {connection : TcpdConnection}
    (same : connection.socketId = (s.tcpd.connections c).socketId) : Sound s (s.setConnection c connection) := by
  refine linked.same ?_ rfl
  rw [holds_setConnection, same]
  exact update_eq_self (Place.connection c) s.holds

theorem Linked.closeConnection : Sound s (s.closeConnection c id) := by
  have closed := linked.setNet (sameSlots_onSocket s.net id Socket.close).inUse
  exact closed.trans (closed.linked.setConnection rfl)

theorem Linked.serviceConnection (input : ServiceInput) : Sound s (s.serviceConnection input c) := by
  rw [Daemons.serviceConnection]
  split
  · exact linked.same rfl rfl
  · rename_i id has
    have looked := linked.setNet (s.net.sameSlots_tcpServerState id input.reported).inUse
    dsimp only
    split
    · split
      · exact looked.trans (looked.linked.releaseConnection has input.listens)
      · exact looked
    split
    · split
      · exact looked.trans (looked.linked.releaseConnection has input.listens)
      · exact looked
    split
    · have slots :=
        ((s.setNet (s.net.tcpServerState id input.reported).2).net.sameSlots_tcpSendOn id works input.outcome).inUse
      split
      · rename_i sent net outcome
        rw [outcome] at slots
        have told := looked.linked.setNet slots
        split
        · exact looked.trans (told.trans (told.linked.setConnection rfl))
        · exact looked.trans told
      · rename_i e net outcome
        rw [outcome] at slots
        have told := looked.linked.setNet slots
        exact looked.trans (told.trans told.linked.closeConnection)
    · exact looked.trans looked.linked.closeConnection

theorem Linked.serviceConnections (input : TcpdInput) : Sound s (s.serviceConnections input) := by
  rw [Daemons.serviceConnections]
  generalize List.finRange maxConnections = connections
  induction connections generalizing s with
  | nil => exact linked.same rfl rfl
  | cons c connections ih =>
    have first := linked.serviceConnection (c := c) (input.services c)
    exact first.trans (ih first.linked)

end Tcpd

/-! ## Runs -/

theorem httpdInit_ok {s s' : Daemons} {network : Bool} (init : s.httpdInit network = .ok s') :
    s' = { s with httpd := { s.httpd with initialized := true } } ∧ s'.holds = s.holds := by
  rw [httpdInit] at init
  split_ifs at init
  cases init
  exact ⟨rfl, by funext place; cases place <;> rfl⟩

theorem tcpdInit_ok {s s' : Daemons} {network listens : Bool} (init : s.tcpdInit network listens = .ok s') :
    ∃ id, ¬s.net.InUse id ∧ s' = { s with
      net := s.net.put id ⟨some .listening, tcpdPort, .listening⟩
      tcpd := { s.tcpd with initialized := true, listenSocket := some id } } ∧
      s'.holds = update s.holds .tcpdListen (some id) := by
  rw [tcpdInit] at init
  split at init
  · split at init
    · rename_i id net ok
      cases init
      obtain ⟨free, rfl⟩ := tcpListen_ok ok
      exact ⟨id, free, rfl, by funext place; cases place <;> rfl⟩
    · cases init
  · cases init

theorem Booted.linked {s : Daemons} (booted : Booted s) :
    Linked s ∧ (∀ id, ¬Leaked s id) ∧ (s.tcpd.initialized = false → s.tcpd.listenSocket = none) := by
  induction booted with
  | new =>
    refine ⟨⟨⟨?_⟩, ?_⟩, ?_, fun _ => rfl⟩
    · intro place other id has
      cases place <;> cases has
    · rintro id ⟨place, has⟩
      cases place <;> cases has
    · rintro id ⟨inUse, -⟩
      exact inUse rfl
  | @httpd s s' network _ init ih =>
    obtain ⟨rfl, holds⟩ := httpdInit_ok init
    have sound := ih.1.same holds rfl
    exact ⟨sound.linked, fun id lost => ih.2.1 id (sound.leaked lost), ih.2.2⟩
  | @tcpd s s' network listens _ once init ih =>
    obtain ⟨id, free, rfl, holds⟩ := tcpdInit_ok init
    have empty : s.holds .tcpdListen = none := ih.2.2 once
    have sound := ih.1.taken empty free holds (inUse_put (by simp))
    exact ⟨sound.linked, fun id lost => ih.2.1 id (sound.leaked lost), nofun⟩

/-- Something comes over every connection that `httpd` handles. -/
def Spoken : Tick → Prop
  | .httpd input => s.HttpdDue input → input.network = true →
    ((s.ranHttpd input.now).beginTick.httpdListen input.listensFirst).HasRequest input
  | .tcpd _ => True

theorem Linked.tick {s : Daemons} (linked : Linked s) (tick : Tick) :
    Linked (s.tick tick) ∧ (Spoken s tick → Sound s (s.tick tick)) := by
  have same : Linked s ∧ (Spoken s tick → Sound s s) := ⟨linked, fun _ => linked.same rfl rfl⟩
  cases tick with
  | httpd input =>
    rw [Daemons.tick, httpdTick]
    split
    · rename_i due
      have ran := linked.same (s.holds_ranHttpd input.now) rfl
      split_ifs with network
      · have listening := ran.linked.beginTick.trans (ran.linked.beginTick.linked.httpdListen input.listensFirst)
        have served := listening.linked.httpdServe input
        refine ⟨(served.1.httpdListen input.listensLast).linked, fun spoken => ?_⟩
        have sound := served.2 (spoken due network)
        exact ran.trans (listening.trans (sound.trans (sound.linked.httpdListen input.listensLast)))
      · exact ⟨ran.linked, fun _ => ran⟩
    · exact same
  | tcpd input =>
    rw [Daemons.tick, tcpdTick]
    split
    · have ran := linked.same (s.holds_ranTcpd input.now) rfl
      split
      · have accepted := ran.linked.beginTick.trans (ran.linked.beginTick.linked.tcpdAccept input)
        have sound := ran.trans (accepted.trans (accepted.linked.serviceConnections input))
        exact ⟨sound.linked, fun _ => sound⟩
      · exact ⟨ran.linked, fun _ => ran⟩
    · exact same

/-- In every run in which something comes over each connection that `httpd` handles, every slot in use is held. -/
theorem slots_conserved {start s : Daemons} {ticks : List Tick} (booted : Booted start)
    (run : Run (guarded Spoken Daemons.Step) start ticks s) (id : TcpSocketId) (inUse : s.net.InUse id) :
    Held s.holds id := by
  have kept : Linked s ∧ ∀ id, ¬Leaked s id := by
    refine run.invariant (I := fun s => Linked s ∧ ∀ id, ¬Leaked s id) ?_ ⟨booted.linked.1, booted.linked.2.1⟩
    rintro s tick _ ⟨linked, none⟩ ⟨spoken, rfl⟩
    have sound := (linked.tick tick).2 spoken
    exact ⟨sound.linked, fun id lost => none id (sound.leaked lost)⟩
  by_contra unheld
  exact kept.2 id ⟨inUse, unheld⟩

/-- A tick of `httpd` at `now` that finds its socket in state `reported`. -/
def quietHttpd (reported : TcpState) (received : List (List UInt8)) : HttpdInput where
  network := true
  now := now
  reported := reported
  listensFirst := true
  relistens := true
  listensLast := true
  remote := true
  received := received
  response := fun _ => [79, 75]
  sends := [.sent 2]

def httpdOnly : Daemons := { Daemons.new with httpd := ⟨true, 0, none⟩ }

theorem booted_httpdOnly : Booted httpdOnly := .httpd .new (show new.httpdInit true = .ok httpdOnly from rfl)

theorem slots_conserved_request :
    let s := (httpdOnly.tick (.httpd (quietHttpd 10 .listen []))).tick (.httpd (quietHttpd 20 .established [[71]]))
    s.net.InUse 0 ∧ Held s.holds 0 := by
  intro s
  have inUse : s.net.InUse 0 := by decide
  refine ⟨inUse, slots_conserved booted_httpdOnly (.cons ⟨?_, rfl⟩ (.cons ⟨?_, rfl⟩ (.nil s))) 0 inUse⟩
  · rintro - - - connected
    cases connected
  · exact fun _ _ _ _ => ⟨[71], by simp [quietHttpd], by simp⟩

/-- Nothing comes over a connection: its slot stays in use, and `httpd` listens on another. -/
theorem silent_connection_leaks :
    let s := (httpdOnly.tick (.httpd (quietHttpd 10 .listen []))).tick (.httpd (quietHttpd 20 .established [[]]))
    Booted httpdOnly ∧ s.net.InUse 0 ∧ ¬Held s.holds 0 := by
  refine ⟨booted_httpdOnly, by decide, ?_⟩
  rintro ⟨place, has⟩
  cases place with
  | httpdListen => cases has
  | tcpdListen => cases has
  | connection c => cases has

end HavyOs.Net
