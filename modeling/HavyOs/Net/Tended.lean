import HavyOs.Net.Conserved

/-!
# What the daemons need of their sockets

A place that listens holds a slot in state `Listening`, a connection that waits for its end has been
closed: `Tended`. Here is what `httpd` keeps of it and what it does with its socket, and what a round
of the loop of `tcpd` can do with a connection.
-/

namespace HavyOs.Net

open Lib NetState Function Daemons

/-- Listening, or on the way to a connection. -/
def TcpState.waiting : TcpState → Bool
  | .listen | .synSent | .synReceived => true
  | _ => false

def TcpState.closedHere : TcpState → Bool
  | .finWait1 | .finWait2 | .closing | .lastAck | .timeWait => true
  | _ => false

/-- Listening or in handshake, closed on this side, or used in this tick. -/
def Socket.Attended (k : Socket) : Prop :=
  k.state.waiting = true ∨ k.state.closedHere = true ∨ k.closeIssued = true ∨ k.exchanged = true

/-- Not left half closed by the peer alone. -/
def Socket.Live (k : Socket) : Prop := k.state = .closeWait → k.closeIssued = true

/-- A slot whose socket, if it has one, is attended and live. -/
def Tidy (net : NetState) (id : TcpSocketId) : Prop :=
  ∀ k, (net.serverSockets id).handle = some k → k.Attended ∧ k.Live

theorem tidy_listening : Socket.listening.Attended ∧ Socket.listening.Live := ⟨.inl rfl, nofun⟩

/-! ## What the places need -/

/-- What a place needs of the slot it holds. -/
def Daemons.Fits (s : Daemons) (place : Place) (slot : ServerSocket) : Prop :=
  ∃ k, slot.handle = some k ∧
    match place with
    | .connection c => (s.tcpd.connections c).closePending = true → k.closeIssued = true
    | _ => slot.state = .listening

structure Tended (s : Daemons) : Prop extends Linked s where
  fits : ∀ {place id}, s.holds place = some id → s.Fits place (s.net.serverSockets id)

/-- A place and the slot it holds are left alone. -/
structure Untouched (s s' : Daemons) (place : Place) : Prop where
  holds : s'.holds place = s.holds place
  slot : ∀ {id}, s.holds place = some id → s'.net.serverSockets id = s.net.serverSockets id
  connection : ∀ {c}, place = .connection c → s'.tcpd.connections c = s.tcpd.connections c

section Untouched

variable {s s₁ s' : Daemons} {place own : Place} {id : TcpSocketId}

theorem Untouched.refl (s : Daemons) (place : Place) : Untouched s s place := ⟨rfl, fun _ => rfl, fun _ => rfl⟩

theorem Untouched.trans (first : Untouched s s₁ place) (second : Untouched s₁ s' place) : Untouched s s' place where
  holds := second.holds.trans first.holds
  slot has := (second.slot (first.holds.trans has)).trans (first.slot has)
  connection is := (second.connection is).trans (first.connection is)

theorem Untouched.fits (untouched : Untouched s s' place) (has : s'.holds place = some id)
    (fits : s.Fits place (s.net.serverSockets id)) : s'.Fits place (s'.net.serverSockets id) := by
  rw [untouched.slot (untouched.holds.symm.trans has)]
  obtain ⟨k, handle, needs⟩ := fits
  refine ⟨k, handle, ?_⟩
  cases place with
  | connection c =>
    intro pending
    rw [untouched.connection rfl] at pending
    exact needs pending
  | _ => exact needs

theorem Linked.untouched_held (linked : Linked s) (has : s.holds own = some id) (ne : place ≠ own)
    (frame : ∀ {j}, j ≠ id → s'.net.serverSockets j = s.net.serverSockets j) (holds : s'.holds place = s.holds place)
    (connection : ∀ {c}, place = .connection c → s'.tcpd.connections c = s.tcpd.connections c) :
    Untouched s s' place := by
  refine ⟨holds, ?_, connection⟩
  intro j held
  refine frame ?_
  rintro rfl
  exact ne (linked.exclusive.unique held has)

/-- Only the places in `changed` need a look. -/
theorem Tended.changed (tended : Tended s) (linked : Linked s') (changed : Place → Prop)
    (others : ∀ {place}, ¬changed place → Untouched s s' place)
    (fits : ∀ {place id}, changed place → s'.holds place = some id → s'.Fits place (s'.net.serverSockets id)) :
    Tended s' := by
  refine ⟨linked, ?_⟩
  intro place id has
  by_cases is : changed place
  · exact fits is has
  · have same := others is
    exact same.fits has (tended.fits (same.holds.symm.trans has))

end Untouched

/-! ## Listening -/

section Listening

variable {s s' : Daemons} {place : Place} {id : TcpSocketId} {port : Nat}

theorem Tidy.put_other {net : NetState} {other : TcpSocketId} {slot : ServerSocket} (tidy : Tidy net other)
    (ne : other ≠ id) :
    Tidy (net.put id slot) other := by
  intro k handle
  rw [NetState.put_other ne] at handle
  exact tidy k handle

theorem tidy_put {net : NetState} {slot : ServerSocket} (tidy : ∀ k, slot.handle = some k → k.Attended ∧ k.Live) :
    Tidy (net.put id slot) id := by
  intro k handle
  rw [put_self] at handle
  exact tidy k handle

theorem tidy_put_listening (net : NetState) (id : TcpSocketId) (port : Nat) (state : ServerSocketState) :
    Tidy (net.put id ⟨some .listening, port, state⟩) id :=
  tidy_put fun _ is => Option.some.inj is ▸ tidy_listening

theorem Tidy.put_listening {net : NetState} {other : TcpSocketId} (tidy : Tidy net other) (id : TcpSocketId)
    (port : Nat) :
    Tidy (net.put id ⟨some .listening, port, .listening⟩) other := by
  by_cases is : other = id
  · rw [is]
    exact tidy_put_listening net id port .listening
  · exact tidy.put_other is

theorem Tended.listened (tended : Tended s) (listens : place = .httpdListen ∨ place = .tcpdListen)
    (empty : s.holds place = none)
    (free : ¬s.net.InUse id) (holds : s'.holds = update s.holds place (some id))
    (net : s'.net = s.net.put id ⟨some .listening, port, .listening⟩ := by rfl)
    (connections : s'.tcpd.connections = s.tcpd.connections := by rfl) : Tended s' ∧ ∀ {other}, other ≠ place →
                                                                    Untouched s s' other := by
  have others {other : Place} (ne : other ≠ place) : Untouched s s' other := by
    refine ⟨by rw [holds, update_of_ne ne], fun {j} held => ?_, fun _ => by rw [connections]⟩
    have other : j ≠ id := by
      rintro rfl
      exact free (tended.inUse ⟨_, held⟩)
    rw [net, put_other other]
  have sound := tended.taken empty free holds (by rw [net]; exact inUse_put (by simp))
  refine ⟨tended.changed sound.linked (· = place) others ?_, others⟩
  rintro _ j rfl has
  rw [holds, update_self] at has
  cases has
  rw [net, put_self]
  refine ⟨.listening, rfl, ?_⟩
  obtain rfl | rfl := listens <;> rfl

end Listening

/-! ## httpd -/

section Httpd

variable {s : Daemons} {input : HttpdInput} {id : TcpSocketId}

theorem Tended.beginTick (tended : Tended s) : Tended s.beginTick := by
  refine ⟨tended.toLinked.beginTick.linked, ?_⟩
  intro place id has
  obtain ⟨k, handle, needs⟩ := tended.fits has
  refine ⟨{ k with exchanged := false }, ?_, ?_⟩
  · change ((s.net.serverSockets id).handle.map _) = _
    rw [handle]
    rfl
  · cases place <;> exact needs

theorem httpdListen_cases (s : Daemons) (listens : Bool) :
    s.httpdListen listens = s ∧ (s.httpd.listenSocket = none → listens = true → ∀ id, s.net.InUse id) ∨
      ∃ id, s.httpd.listenSocket = none ∧ ¬s.net.InUse id ∧ s.httpdListen listens =
        (s.setNet (s.net.put id ⟨some .listening, httpdPort, .listening⟩)).setHttpdListen (some id) := by
  cases listen : s.httpd.listenSocket with
  | some id => exact .inl ⟨by rw [httpdListen, listen], nofun⟩
  | none =>
    cases outcome : s.net.tcpListen httpdPort listens with
    | ok result =>
      obtain ⟨free, put⟩ := tcpListen_ok outcome
      exact .inr ⟨result.1, rfl, free, by rw [httpdListen, listen, outcome, ← put]⟩
    | error e =>
      refine .inl ⟨by rw [httpdListen, listen, outcome], ?_⟩
      rintro - rfl
      exact tcpListen_error outcome

theorem Tended.httpdListen (tended : Tended s) (listens : Bool) :
    Tended (s.httpdListen listens) ∧ ∀ {place}, place ≠ .httpdListen → Untouched s (s.httpdListen listens) place := by
  obtain ⟨same, -⟩ | ⟨_, none, free, listened⟩ := httpdListen_cases s listens
  · rw [same]
    exact ⟨tended, fun _ => .refl s _⟩
  · rw [listened]
    have empty : s.holds .httpdListen = .none := none
    exact tended.listened (.inl rfl) empty free (by simp)

theorem Tidy.httpdListen (tidy : Tidy s.net id) (listens : Bool) : Tidy (s.httpdListen listens).net id := by
  obtain ⟨same, -⟩ | ⟨new, -, -, listened⟩ := httpdListen_cases s listens
  · rw [same]
    exact tidy
  · rw [listened]
    exact tidy.put_listening new httpdPort

theorem tidy_reported {k k' : Socket} {reported : TcpState}
    (now : k' = { k with state := reported } ∧ reported ≠ .closed ∧ reported ≠ .timeWait ∨ k' = .listening)
    (connected : reported ≠ .established) (open' : reported ≠ .closeWait) : k'.Attended ∧ k'.Live := by
  obtain ⟨rfl, _, _⟩ | rfl := now
  · refine ⟨?_, fun wait => absurd wait open'⟩
    cases reported <;> first | contradiction | exact .inl rfl | exact .inr (.inl rfl)
  · exact tidy_listening

/-- A connection that `httpd` has handled is closed here or given back. -/
theorem tidy_handleConnection (input : HttpdInput) (id : TcpSocketId) (net : NetState) :
    Tidy (handleConnection input id net) id := by
  obtain ⟨_, -, handled⟩ := handleConnection_eq input id net
  rw [handled]
  split
  · refine tidy_put fun k handle => ?_
    obtain ⟨_, -, rfl⟩ := Option.map_eq_some_iff.mp handle
    exact ⟨.inr (.inr (.inl rfl)), fun _ => rfl⟩
  · exact tidy_put nofun

theorem handleConnection_frame (input : HttpdInput) {id other : TcpSocketId} (net : NetState) (ne : other ≠ id) :
    (handleConnection input id net).serverSockets other = net.serverSockets other := by
  obtain ⟨net₁, same, handled⟩ := handleConnection_eq input id net
  have closed := (sameSlots_onSocket net₁ id Socket.close).frame ne
  rw [handled]
  split
  · exact closed.trans (same.frame ne)
  · exact (put_other ne).trans (closed.trans (same.frame ne))

theorem Tended.httpdServe (tended : Tended s) (relistens : input.relistens = true) :
    Tended (s.httpdServe input) ∧
      (∀ {place}, place ≠ .httpdListen → Untouched s (s.httpdServe input) place) ∧
      (input.reported ≠ .closeWait → ∀ id, s.httpd.listenSocket = some id → Tidy (s.httpdServe input).net id) ∧
      ((s.httpdServe input).httpd.listenSocket = none ∨
        (s.httpdServe input).httpd.listenSocket = s.httpd.listenSocket) := by
  have linked := (tended.toLinked.httpdServe input).1
  cases listen : s.httpd.listenSocket with
  | none =>
    have same : s.httpdServe input = s := by rw [Daemons.httpdServe, httpdConnection, listen]; rfl
    rw [same, listen]
    refine ⟨tended, fun _ => .refl s _, fun _ _ none => ?_, .inl rfl⟩
    cases none
  | some id =>
    have has : s.holds .httpdListen = some id := listen
    obtain ⟨k, handle, listening⟩ := tended.fits has
    obtain ⟨k', incoming, now⟩ := incoming_of_listening handle listening input.reported input.remote
    rw [← relistens] at incoming
    have served : s.httpdServe input =
        if input.reported = .established then
          (s.setNet
          (handleConnection input id (s.net.put id { s.net.serverSockets id with handle := some k' }))).setHttpdListen
            none
        else s.setNet (s.net.put id { s.net.serverSockets id with handle := some k' }) := by
      rw [Daemons.httpdServe, httpdConnection, listen]
      dsimp only
      rw [incoming]
      by_cases connected : input.reported = .established
      · rw [if_pos connected, if_pos connected]
      · rw [if_neg connected, if_neg connected]
    by_cases connected : input.reported = .established
    · rw [served, if_pos connected] at linked ⊢
      have others {place : Place} (ne : place ≠ .httpdListen) : Untouched s ((s.setNet (handleConnection input id
          (s.net.put id { s.net.serverSockets id with handle := some k' }))).setHttpdListen none) place := by
        refine tended.untouched_held has ne ?_ ?_ fun _ => rfl
        · exact fun other => (handleConnection_frame input _ other).trans (put_other other)
        · rw [holds_setHttpdListen, holds_setNet, update_of_ne ne]
      refine ⟨tended.changed linked (· = .httpdListen) others ?_, others, ?_, .inl rfl⟩
      · rintro _ j rfl held
        cases held
      · rintro - _ same
        cases same
        exact tidy_handleConnection input id _
    · rw [served, if_neg connected] at linked ⊢
      have others {place : Place} (ne : place ≠ .httpdListen) :
          Untouched s (s.setNet (s.net.put id { s.net.serverSockets id with handle := some k' })) place := by
        refine tended.untouched_held has ne ?_ ?_ fun _ => rfl
        · exact fun other => put_other other
        · rw [holds_setNet]
      refine ⟨tended.changed linked (· = .httpdListen) others ?_, others, ?_, .inr listen⟩
      · rintro _ j rfl held
        cases has.symm.trans held
        refine ⟨k', ?_, ?_⟩
        · exact congrArg ServerSocket.handle put_self
        · exact (congrArg ServerSocket.state put_self).trans listening
      · rintro halfOpen _ same
        cases same
        exact tidy_put fun _ is => Option.some.inj is ▸ tidy_reported now connected halfOpen

end Httpd

/-! ## tcpd -/

section Tcpd

variable {s : Daemons} {c : Fin maxConnections} {id : TcpSocketId} {k : Socket}

/-- A connection and its socket are changed, and the slot is kept. -/
def Daemons.keep (s : Daemons) (c : Fin maxConnections) (id : TcpSocketId) (k : Socket) (connection : TcpdConnection) :
    Daemons :=
  (s.setNet (s.net.put id { s.net.serverSockets id with handle := some k })).setConnection c connection

theorem keep_same (s : Daemons) (c : Fin maxConnections) (id : TcpSocketId) (k : Socket) :
    s.keep c id k (s.tcpd.connections c) =
    s.setNet (s.net.put id { s.net.serverSockets id with handle := some k }) := by
  simp [keep, setConnection, setNet]

/-- What smoltcp says to a connection of `tcpd`: the peer alone has not closed it, and a send takes something. -/
def ServiceInput.Answers (input : ServiceInput) (connection : TcpdConnection) : Prop :=
  (connection.closePending = false → input.reported ≠ .closeWait) ∧ input.outcome ≠ .sent 0

theorem releaseConnection_put (s : Daemons) (c : Fin maxConnections) (id : TcpSocketId) (slot : ServerSocket)
    (listens : Bool) :
    (s.setNet (s.net.put id slot)).releaseConnection c id listens = s.releaseConnection c id listens := by
  simp [releaseConnection, setNet, tcpReleaseServer, put_put]

theorem serviceConnection_cases (input : ServiceInput) (has : (s.tcpd.connections c).socketId = some id)
    (handle : (s.net.serverSockets id).handle = some k)
    (pending : (s.tcpd.connections c).closePending = true → k.closeIssued = true) :
    s.serviceConnection input c = s.releaseConnection c id input.listens ∨
    ∃ k' connection, s.serviceConnection input c = s.keep c id k' connection ∧ connection.socketId = some id ∧
      (connection.closePending = true → k'.closeIssued = true) ∧
      (input.Answers (s.tcpd.connections c) → k'.Attended ∧ k'.Live) := by
  rw [serviceConnection, has]
  dsimp only
  rw [tcpServerState_eq handle]
  split
  · rename_i closing
    have issued := pending closing
    split
    · exact .inl (releaseConnection_put s c id _ input.listens)
    · exact .inr ⟨_, _, (keep_same s c id _).symm, has, pending, fun _ => ⟨.inr (.inr (.inl issued)), fun _ => issued⟩⟩
  rename_i live
  have undecided : (s.tcpd.connections c).closePending = false := eq_false_of_ne_true live
  split
  · rename_i other
    split_ifs with unfinished
    · exact .inl (releaseConnection_put s c id _ input.listens)
    · refine .inr ⟨_, _, (keep_same s c id _).symm, has, pending, fun answers => ?_⟩
      have running : input.reported ≠ .closed ∧ input.reported ≠ .timeWait := by simpa using unfinished
      exact tidy_reported (.inl ⟨rfl, running⟩) (by simpa using other) (answers.1 undecided)
  rename_i connected
  have established : input.reported = .established := by simpa using connected
  have failed (k' : Socket) : ∃ k'' connection,
      (s.setNet (s.net.put id { s.net.serverSockets id with handle := some k' })).closeConnection c id =
        s.keep c id k'' connection ∧ connection.socketId = some id ∧
      (connection.closePending = true → k''.closeIssued = true) ∧
      (input.Answers (s.tcpd.connections c) → k''.Attended ∧ k''.Live) :=
    ⟨k'.close, { s.tcpd.connections c with closePending := true }, by
      rw [closeConnection]
      simp [keep, tcpCloseOn, setNet, onSocket_put], has, fun _ => rfl, fun _ => ⟨.inr (.inr (.inl rfl)), fun _ => rfl⟩⟩
  split
  · rw [show ∀ net, (s.setNet net).net = net from fun _ => rfl, tcpSendOn_put]
    cases outcome : input.outcome with
    | shut => exact .inr (failed _)
    | failed => exact .inr (failed _)
    | sent n =>
      dsimp only
      split_ifs with some
      · refine .inr ⟨_, { s.tcpd.connections c with sentHello := true }, rfl, has, pending, fun _ => ⟨?_, ?_⟩⟩
        · exact .inr (.inr (.inr (by simp [some])))
        · rintro wait
          cases established.symm.trans wait
      · refine .inr ⟨_, _, (keep_same s c id _).symm, has, pending, fun answers => ?_⟩
        have zero : n = 0 := by
          have length : works.length = 6 := rfl
          omega
        exact absurd (outcome.trans (congrArg SendOutcome.sent zero)) answers.2
  · exact .inr (failed _)

end Tcpd

end HavyOs.Net
