import HavyOs.Net.Tended

/-!
# Sockets that nobody acts on

`httpd` does nothing with a listening socket in `CloseWait`, in this and in every later tick, and
`tcpd` nothing with a connection in this state.
-/

namespace HavyOs.Net

open Lib NetState Function List Daemons Option

/-! ## Rounds of tcpd -/

variable (s : Daemons)

def Daemons.Occupied : Prop := ∃ place, place ≠ .httpdListen ∧ s.holds place ≠ none

/-- The connections `done` of `tcpd` have been looked at. -/
structure Rounds (done : List (Fin maxConnections)) (s s' : Daemons) : Prop where
  tended : Tended s'
  httpd : Untouched s s' .httpdListen
  rest : ∀ {c}, c ∉ done → Untouched s s' (.connection c)
  tidy : ∀ {id}, Tidy s.net id ∨ (∃ c ∈ done, s.holds (.connection c) = some id) → Tidy s'.net id
  kept : ∀ {c id}, s'.holds (.connection c) = some id → s.holds (.connection c) = some id
  listen : ∀ {id}, s'.holds .tcpdListen = some id → s.holds .tcpdListen = some id ∨ Tidy s'.net id
  occupied : s.Occupied → s'.Occupied

section Rounds

variable {s s₁ s' : Daemons} {c : Fin maxConnections} {id : TcpSocketId}

theorem Rounds.refl (tended : Tended s) : Rounds [] s s where
  tended := tended
  httpd := .refl s _
  rest _ := .refl s _
  tidy
    | .inl tidy => tidy
    | .inr ⟨_, member, _⟩ => absurd member not_mem_nil
  kept has := has
  listen has := .inl has
  occupied held := held

theorem Rounds.cons {done : List (Fin maxConnections)} (first : Rounds [c] s s₁) (more : Rounds done s₁ s')
    (new : c ∉ done) :
    Rounds (c :: done) s s' where
  tended := more.tended
  httpd := first.httpd.trans more.httpd
  rest other := by
    rw [mem_cons, not_or] at other
    exact (first.rest (by simpa using other.1)).trans (more.rest other.2)
  tidy := by
    rintro _ (tidy | ⟨c', member, has⟩)
    · exact more.tidy (.inl (first.tidy (.inl tidy)))
    · obtain rfl | later := mem_cons.mp member
      · exact more.tidy (.inl (first.tidy (.inr ⟨c', mem_singleton_self c', has⟩)))
      · have other : c' ∉ [c] := by
          rintro same
          exact new (mem_singleton.mp same ▸ later)
        exact more.tidy (.inr ⟨c', later, (first.rest other).holds.trans has⟩)
  kept has := first.kept (more.kept has)
  listen has := by
    obtain earlier | tidy := more.listen has
    · exact (first.listen earlier).imp_right fun tidy => more.tidy (.inl tidy)
    · exact .inr tidy
  occupied held := more.occupied (first.occupied held)

theorem Tended.released (tended : Tended s) (has : s.holds (.connection c) = some id) :
    Tended ((s.setNet (s.net.tcpReleaseServer id)).setConnection c .new) ∧
      ∀ {place}, place ≠ .connection c →
        Untouched s ((s.setNet (s.net.tcpReleaseServer id)).setConnection c .new) place := by
  have sound : Sound s ((s.setNet (s.net.tcpReleaseServer id)).setConnection c .new) :=
    tended.toLinked.released has (by simp [TcpdConnection.new]) inUse_tcpReleaseServer
  have others {place : Place} (ne : place ≠ .connection c) :
      Untouched s ((s.setNet (s.net.tcpReleaseServer id)).setConnection c .new) place := by
    refine tended.untouched_held has ne (fun other => put_other other) ?_ ?_
    · rw [holds_setConnection, update_of_ne ne, holds_setNet]
    · rintro _ rfl
      exact update_of_ne (fun same => ne (congrArg Place.connection same)) _ _
  refine ⟨tended.changed sound.linked (· = .connection c) others ?_, others⟩
  rintro _ j rfl held
  rw [holds_setConnection, update_self] at held
  cases held

theorem releaseConnection_cases (s : Daemons) (c : Fin maxConnections) (id : TcpSocketId) :
    s.tcpd.listenSocket ≠ none ∧
        s.releaseConnection c id true = (s.setNet (s.net.tcpReleaseServer id)).setConnection c .new ∨
      ∃ new, s.tcpd.listenSocket = none ∧ ¬(s.net.tcpReleaseServer id).InUse new ∧ s.releaseConnection c id true =
        (((s.setNet (s.net.tcpReleaseServer id)).setConnection c .new).setNet
          ((s.net.tcpReleaseServer id).put new ⟨some .listening, tcpdPort, .listening⟩)).setTcpdListen (some new) := by
  have same : ((s.setNet (s.net.tcpReleaseServer id)).setConnection c .new).tcpd.listenSocket = s.tcpd.listenSocket :=
    rfl
  have net : ((s.setNet (s.net.tcpReleaseServer id)).setConnection c .new).net = s.net.tcpReleaseServer id := rfl
  simp only [releaseConnection, same, net]
  cases listen : s.tcpd.listenSocket with
  | some old => exact .inl ⟨by simp, rfl⟩
  | none =>
    cases outcome : (s.net.tcpReleaseServer id).tcpListen tcpdPort true with
    | ok result =>
      obtain ⟨free, put⟩ := tcpListen_ok outcome
      exact .inr ⟨result.1, rfl, free, by rw [← put]⟩
    | error e =>
      -- The slot that was just given back is free.
      have busy := tcpListen_error outcome id
      exact absurd rfl ((inUse_tcpReleaseServer id).mp busy).1

theorem rounds_release (tended : Tended s) (has : s.holds (.connection c) = some id) :
    Rounds [c] s (s.releaseConnection c id true) := by
  obtain ⟨released, others⟩ := tended.released has
  set s₁ := (s.setNet (s.net.tcpReleaseServer id)).setConnection c .new with gone
  have empty : s₁.holds (.connection c) = none := by
    rw [holds_setConnection, update_self]
    rfl
  have ne {c' : Fin maxConnections} (other : c' ∉ [c]) : Place.connection c' ≠ .connection c := by
    simpa using other
  have tidy {j : TcpSocketId} (before : Tidy s.net j ∨ ∃ c' ∈ [c], s.holds (.connection c') = some j) :
      Tidy s₁.net j := by
    by_cases own : j = id
    · rw [own]
      exact tidy_put nofun
    · refine Tidy.put_other ?_ own
      obtain tidy | ⟨c', member, held⟩ := before
      · exact tidy
      · rw [mem_singleton.mp member] at held
        exact absurd (some.inj (held.symm.trans has)) own
  have kept {c' : Fin maxConnections} {j : TcpSocketId} (held : s₁.holds (.connection c') = some j) :
      s.holds (.connection c') = some j := by
    by_cases own : c' = c
    · rw [own, empty] at held
      cases held
    · exact (others (by simpa using own)).holds.symm.trans held
  obtain ⟨listens, is⟩ | ⟨new, none, free, is⟩ := releaseConnection_cases s c id
  · rw [is]
    exact {
      tended := released
      httpd := others (by simp)
      rest := fun other => others (ne other)
      tidy := tidy
      kept := kept
      listen := fun held => .inl ((others (by simp)).holds.symm.trans held)
      occupied := fun _ => ⟨.tcpdListen, by simp, listens⟩ }
  · rw [is]
    have silent : s₁.holds .tcpdListen = .none := none
    set s₂ :=
      (s₁.setNet ((s.net.tcpReleaseServer id).put new ⟨some .listening, tcpdPort, .listening⟩)).setTcpdListen (some new)
      with listens
    have holds : s₂.holds = update s₁.holds .tcpdListen (some new) := by simp [listens]
    obtain ⟨listening, unchanged⟩ := released.listened (.inr rfl) silent free holds
    have same (c' : Fin maxConnections) : Untouched s₁ s₂ (.connection c') := unchanged (by simp)
    exact {
      tended := listening
      httpd := (others (by simp)).trans (unchanged (by simp))
      rest := fun other => (others (ne other)).trans (same _)
      tidy := fun before => (tidy before).put_listening new tcpdPort
      kept := fun held => kept ((same _).holds.symm.trans held)
      listen := by
        intro j held
        rw [← some.inj held]
        exact .inr (tidy_put_listening _ new tcpdPort .listening)
      occupied := fun _ => ⟨.tcpdListen, by simp, by simp [holds]⟩ }

theorem rounds_keep {k : Socket} {connection : TcpdConnection} (tended : Tended s)
    (has : s.holds (.connection c) = some id)
    (linked : Linked (s.keep c id k connection)) (same : connection.socketId = some id)
    (pending : connection.closePending = true → k.closeIssued = true) (tidy : k.Attended ∧ k.Live) :
    Rounds [c] s (s.keep c id k connection) := by
  have holds : (s.keep c id k connection).holds = s.holds := by
    rw [keep, holds_setConnection, same, ← has]
    exact update_eq_self (Place.connection c) s.holds
  have own : (s.keep c id k connection).tcpd.connections c = connection := update_self ..
  have others {place : Place} (ne : place ≠ .connection c) : Untouched s (s.keep c id k connection) place := by
    refine tended.untouched_held has ne (fun other => put_other other) (by rw [holds]) ?_
    rintro c' rfl
    exact update_of_ne (fun same => ne (congrArg Place.connection same)) _ _
  have fits : Tended (s.keep c id k connection) := by
    refine tended.changed linked (· = .connection c) others ?_
    rintro _ j rfl held
    rw [holds] at held
    cases has.symm.trans held
    refine ⟨k, congrArg ServerSocket.handle put_self, ?_⟩
    intro closing
    rw [own] at closing
    exact pending closing
  exact {
    tended := fits
    httpd := others (by simp)
    rest := fun other => others (by simpa using other)
    tidy := by
      intro j before
      by_cases is : j = id
      · rw [is]
        exact tidy_put fun _ handle => some.inj handle ▸ tidy
      · refine Tidy.put_other ?_ is
        obtain before | ⟨c', member, held⟩ := before
        · exact before
        · rw [mem_singleton.mp member] at held
          exact absurd (some.inj (held.symm.trans has)) is
    kept := fun held => by rwa [holds] at held
    listen := fun held => .inl (by rwa [holds] at held)
    occupied := by
      rintro ⟨place, own, held⟩
      exact ⟨place, own, by rwa [holds]⟩ }

theorem rounds_serviceConnection {input : ServiceInput} (tended : Tended s) (listens : input.listens = true)
    (answers : input.Answers (s.tcpd.connections c)) : Rounds [c] s (s.serviceConnection input c) := by
  cases socket : (s.tcpd.connections c).socketId with
  | none =>
    have same : s.serviceConnection input c = s := by rw [serviceConnection, socket]
    have empty : s.holds (.connection c) = none := socket
    rw [same]
    exact { Rounds.refl tended with
      rest := fun _ => .refl s _
      tidy := by
        rintro j (tidy | ⟨_, member, held⟩)
        · exact tidy
        · rw [mem_singleton.mp member, empty] at held
          cases held }
  | some id =>
    have has : s.holds (.connection c) = some id := socket
    have linked := (tended.toLinked.serviceConnection (c := c) input).linked
    obtain ⟨k, handle, pending⟩ := tended.fits has
    obtain is | ⟨_, connection, is, same, pending, tidy⟩ := serviceConnection_cases input socket handle pending
    · rw [is, listens]
      exact rounds_release tended has
    · rw [is] at linked ⊢
      exact rounds_keep tended has linked same pending (tidy answers)

/-- The loop over the connections, by induction on those that are left: a round leaves them alone. -/
theorem rounds_foldl {input : TcpdInput} (left : List (Fin maxConnections)) (distinct : left.Nodup) (tended : Tended s)
    (listens : ∀ c, (input.services c).listens = true)
    (answers : ∀ c ∈ left, (input.services c).Answers (s.tcpd.connections c)) :
    Rounds left s (left.foldl (fun s c => s.serviceConnection (input.services c) c) s) := by
  induction left generalizing s with
  | nil => exact .refl tended
  | cons c left ih =>
    obtain ⟨new, distinct⟩ := nodup_cons.mp distinct
    have first := rounds_serviceConnection tended (listens c) (answers c mem_cons_self)
    refine first.cons (ih distinct first.tended ?_) new
    intro c' member
    have other : c' ∉ [c] := by
      intro same
      exact new (mem_singleton.mp same ▸ member)
    rw [(first.rest other).connection rfl]
    exact answers c' (mem_cons_of_mem _ member)

end Rounds

/-! ## The listening socket of tcpd -/

section Accept

variable {s : Daemons} {id : TcpSocketId} {input : TcpdInput}

/-- There is room for a connection: with four of them no slot would be left to listen. -/
theorem Linked.room (linked : Linked s) (listen : s.tcpd.listenSocket = some id) :
    ∃ c, (s.tcpd.connections c).socketId = none := by
  by_contra full
  rw [not_exists] at full
  have distinct : Injective Place.connection := fun _ _ same => Place.connection.inj same
  obtain ⟨c, has⟩ := linked.exclusive.held_of_full distinct le_rfl full id
  have own : s.holds .tcpdListen = some id := listen
  exact Place.noConfusion (linked.exclusive.unique own has)

/-- An established listening socket becomes a connection; any other is looked after. -/
theorem tcpdAccept_cases (tended : Tended s) (listen : s.tcpd.listenSocket = some id)
    (relistens : input.relistens = true) :
    ∃ k, (input.reported = .established ∧ ∃ c, (s.tcpd.connections c).socketId = none ∧ s.tcpdAccept input =
        ((s.setNet (s.net.put id { s.net.serverSockets id with handle := some k })).setConnection c
          ⟨some id, false, false⟩).setTcpdListen none) ∨
      s.tcpdAccept input = s.setNet (s.net.put id { s.net.serverSockets id with handle := some k }) ∧
        (input.reported ≠ .closeWait → k.Attended ∧ k.Live) := by
  have has : s.holds .tcpdListen = some id := listen
  obtain ⟨k, handle, listening⟩ := tended.fits has
  obtain ⟨k', incoming, now⟩ := incoming_of_listening handle listening input.reported input.remote
  refine ⟨k', ?_⟩
  rw [tcpdAccept, listen]
  dsimp only
  rw [relistens, incoming]
  by_cases connected : input.reported = .established
  · rw [if_pos connected]
    refine .inl ⟨connected, ?_⟩
    dsimp only
    rw [takeConnection]
    split
    · rename_i full
      obtain ⟨c, unused⟩ := tended.room listen
      exact absurd (decide_eq_true unused) (find?_eq_none.mp full c (mem_finRange c))
    · rename_i c found
      have unused := find?_some found
      exact ⟨c, of_decide_eq_true unused, rfl⟩
  · rw [if_neg connected]
    exact .inr ⟨rfl, tidy_reported now connected⟩

/-- What `tcpd` does with its listening socket in a tick. -/
structure Accepted (s s' : Daemons) : Prop where
  tended : Tended s'
  httpd : Untouched s s' .httpdListen
  listen : ∀ {id}, s'.holds .tcpdListen = some id → Tidy s'.net id
  found : ∀ {place id}, place ≠ .httpdListen → s.holds place = some id →
    Tidy s'.net id ∨ ∃ c, s'.holds (.connection c) = some id
  occupied : s.Occupied → s'.Occupied

theorem accepted_tcpdAccept (tended : Tended s) (relistens : input.relistens = true)
    (halfOpen : input.reported ≠ .closeWait) :
    Accepted s (s.tcpdAccept input) := by
  have linked := (tended.toLinked.tcpdAccept input).linked
  cases listen : s.tcpd.listenSocket with
  | none =>
    have same : s.tcpdAccept input = s := by rw [tcpdAccept, listen]
    have empty : s.holds .tcpdListen = none := listen
    rw [same]
    refine ⟨tended, .refl s _, ?_, ?_, fun held => held⟩
    · intro id has
      cases empty.symm.trans has
    · intro place id own has
      cases place with
      | httpdListen => exact absurd rfl own
      | tcpdListen => cases empty.symm.trans has
      | connection c => exact .inr ⟨c, has⟩
  | some id =>
    have has : s.holds .tcpdListen = some id := listen
    obtain ⟨k, ⟨_, c, unused, is⟩ | ⟨is, tidy⟩⟩ := tcpdAccept_cases tended listen relistens
    · set s' := ((s.setNet (s.net.put id { s.net.serverSockets id with handle := some k })).setConnection c
        ⟨some id, false, false⟩).setTcpdListen none with moved
      have holds : s'.holds = update (update s.holds (.connection c) (some id)) .tcpdListen none := by
        rw [holds_setTcpdListen, holds_setConnection, holds_setNet]
      have empty : s.holds (.connection c) = none := unused
      have taken : s'.holds (.connection c) = some id := by
        rw [holds, update_of_ne (by simp), update_self]
      have others {place : Place} (own : ¬(place = .tcpdListen ∨ place = .connection c)) : Untouched s s' place := by
        obtain ⟨notListen, notNew⟩ := not_or.mp own
        refine tended.untouched_held has notListen (fun other => put_other other) ?_ ?_
        · rw [holds, update_of_ne notListen, update_of_ne notNew]
        · rintro c' rfl
          exact update_of_ne (fun same => notNew (congrArg Place.connection same)) _ _
      rw [is] at linked ⊢
      refine ⟨tended.changed linked (fun place => place = .tcpdListen ∨ place = .connection c) others ?_,
        others (by simp), ?_, ?_, ?_⟩
      · rintro _ j (rfl | rfl) held
        · cases held
        · cases taken.symm.trans held
          refine ⟨k, congrArg ServerSocket.handle put_self, ?_⟩
          intro closing
          have new : s'.tcpd.connections c = ⟨some id, false, false⟩ := update_self ..
          rw [new] at closing
          cases closing
      · intro j held
        cases held
      · intro place j own held
        cases place with
        | httpdListen => exact absurd rfl own
        | tcpdListen => exact .inr ⟨c, taken.trans (has.symm.trans held)⟩
        | connection c' =>
          by_cases new : c' = c
          · rw [new, empty] at held
            cases held
          · exact .inr ⟨c', (others (by simpa using new)).holds.trans held⟩
      · exact fun _ => ⟨.connection c, by simp, by simp [taken]⟩
    · have others {place : Place} (ne : place ≠ .tcpdListen) :
          Untouched s (s.setNet (s.net.put id { s.net.serverSockets id with handle := some k })) place := by
        refine tended.untouched_held has ne (fun other => put_other other) ?_ fun _ => rfl
        rw [holds_setNet]
      have attended : Tidy (s.net.put id { s.net.serverSockets id with handle := some k }) id :=
        tidy_put fun _ handle => some.inj handle ▸ tidy halfOpen
      rw [is] at linked ⊢
      refine ⟨tended.changed linked (· = .tcpdListen) others ?_, others (by simp), ?_, ?_, ?_⟩
      · rintro _ j rfl held
        cases has.symm.trans held
        obtain ⟨_, -, listening⟩ := tended.fits has
        exact ⟨k, congrArg ServerSocket.handle put_self, (congrArg ServerSocket.state put_self).trans listening⟩
      · intro j held
        cases has.symm.trans held
        exact attended
      · intro place j own held
        cases place with
        | httpdListen => exact absurd rfl own
        | tcpdListen =>
          cases has.symm.trans held
          exact .inl attended
        | connection c => exact .inr ⟨c, held⟩
      · exact fun _ => ⟨.tcpdListen, by simp, by simp [has]⟩

end Accept

/-! ## Ticks -/

inductive Daemon where
  | httpd
  | tcpd
deriving DecidableEq, Repr

def Place.owner : Place → Daemon
  | .httpdListen => .httpd
  | _ => .tcpd

def Tick.daemon : Tick → Daemon
  | .httpd _ => .httpd
  | .tcpd _ => .tcpd

namespace Daemons

/-- The daemon has a socket on which it will still act. -/
def Owns (d : Daemon) : Prop :=
  ∃ place id k, place.owner = d ∧ s.holds place = some id ∧ (s.net.serverSockets id).handle = some k ∧ k.Live

/-- The tick is due and gets the network. -/
def Acts : Tick → Prop
  | .httpd input => s.HttpdDue input ∧ input.network = true
  | .tcpd input => s.TcpdDue input ∧ input.network = true

end Daemons

/-- No listen is refused, and the peer alone has not closed the listening socket. -/
def HttpdInput.Answers (input : HttpdInput) : Prop :=
  input.listensFirst = true ∧ input.relistens = true ∧ input.listensLast = true ∧ input.reported ≠ .closeWait

/-- The same for `tcpd`, and for its connections. -/
def TcpdInput.Answers (input : TcpdInput) (s : Daemons) : Prop :=
  input.relistens = true ∧ input.reported ≠ .closeWait ∧
    ∀ c, (input.services c).listens = true ∧
    (input.services c).Answers ((s.beginTick.tcpdAccept input).tcpd.connections c)

/-- What smoltcp says in a tick. -/
def Answered (tick : Tick) : Prop :=
  s.Acts tick →
    match tick with
    | .httpd input => input.Answers
    | .tcpd input => input.Answers (s.ranTcpd input.now)

section Ticks

variable {s s' : Daemons} {d : Daemon} {place : Place} {id : TcpSocketId}

theorem Tended.owns (tended : Tended s) (has : s.holds place = some id) (tidy : Tidy s.net id) :
    s.Owns place.owner := by
  obtain ⟨k, handle, -⟩ := tended.fits has
  exact ⟨place, id, k, rfl, has, handle, (tidy k handle).2⟩

theorem Daemons.Owns.untouched (owns : s.Owns d) (untouched : ∀ {place}, place.owner = d → Untouched s s' place) :
    s'.Owns d := by
  obtain ⟨place, id, k, owner, has, handle, live⟩ := owns
  have same := untouched owner
  exact ⟨place, id, k, owner, same.holds.trans has, by rw [same.slot has, handle], live⟩

theorem Daemons.Owns.beginTick (owns : s.Owns d) : s.beginTick.Owns d := by
  obtain ⟨place, id, k, owner, _, handle, live⟩ := owns
  refine ⟨place, id, { k with exchanged := false }, owner, by rwa [holds_beginTick], ?_, live⟩
  exact congrArg (Option.map _) handle

theorem Daemons.Owns.occupied (owns : s.Owns .tcpd) : s.Occupied := by
  obtain ⟨place, _, k, owner, has, -⟩ := owns
  refine ⟨place, ?_, by simp [has]⟩
  rintro rfl
  cases owner

theorem ne_httpdListen_iff : place ≠ .httpdListen ↔ place.owner = .tcpd := by
  cases place <;> simp [Place.owner]

/-- `httpd` keeps the invariant and the sockets of `tcpd`, leaves its own tidy, and listens if a slot is free. -/
theorem Tended.httpdTickImpl {input : HttpdInput} (tended : Tended s) (answers : input.Answers) :
    Tended (s.httpdTickImpl input) ∧
      (∀ {place}, place.owner = .tcpd → Untouched s.beginTick (s.httpdTickImpl input) place) ∧
      (∀ {id}, s.httpd.listenSocket = some id → Tidy (s.httpdTickImpl input).net id) ∧
      (∀ {id}, ¬(s.httpdTickImpl input).net.InUse id → (s.httpdTickImpl input).Owns .httpd) := by
  obtain ⟨-, relistens, last, halfOpen⟩ := answers
  obtain ⟨first, firstOthers⟩ := tended.beginTick.httpdListen input.listensFirst
  obtain ⟨served, serveOthers, attended, still⟩ := first.httpdServe relistens
  obtain ⟨final, finalOthers⟩ := served.httpdListen input.listensLast
  rw [Daemons.httpdTickImpl]
  refine ⟨final, ?_, ?_, ?_⟩
  · intro place owner
    have other := ne_httpdListen_iff.mpr owner
    exact (firstOthers other).trans ((serveOthers other).trans (finalOthers other))
  · intro id listen
    have kept : (s.beginTick.httpdListen input.listensFirst).httpd.listenSocket = some id := by
      have same : s.beginTick.httpd.listenSocket = some id := listen
      rw [Daemons.httpdListen, same]
      exact same
    exact (attended halfOpen id kept).httpdListen input.listensLast
  · intro id free
    -- Either it listened again, or it still has its socket: the listen did not fail.
    obtain ⟨same, full⟩ | ⟨new, -, -, listened⟩ := httpdListen_cases
      ((s.beginTick.httpdListen input.listensFirst).httpdServe input) input.listensLast
    · rw [same] at free ⊢
      obtain none | kept := still
      · exact absurd (full none last id) free
      · cases listen : (s.beginTick.httpdListen input.listensFirst).httpd.listenSocket with
        | none => exact absurd (full (kept.trans listen) last id) free
        | some own =>
          have has : ((s.beginTick.httpdListen input.listensFirst).httpdServe input).holds .httpdListen = some own :=
            kept.trans listen
          exact served.owns has (attended halfOpen own listen)
    · rw [listened] at final ⊢
      have has (s : Daemons) : (s.setHttpdListen (some new)).holds .httpdListen = some new := rfl
      exact final.owns (has _) (tidy_put_listening _ new httpdPort .listening)

/-- `tcpd` keeps the invariant and the socket of `httpd`, leaves its own tidy, and still has one. -/
theorem Tended.tcpdTickImpl {input : TcpdInput} (tended : Tended s) (answers : input.Answers s) (owns : s.Owns .tcpd) :
    Tended (s.tcpdTickImpl input) ∧
      Untouched s.beginTick (s.tcpdTickImpl input) .httpdListen ∧
      (∀ {place id}, place.owner = .tcpd → s.holds place = some id → Tidy (s.tcpdTickImpl input).net id) ∧
      (s.tcpdTickImpl input).Owns .tcpd := by
  obtain ⟨relistens, halfOpen, services⟩ := answers
  have accepted := accepted_tcpdAccept tended.beginTick relistens halfOpen
  have rounds : Rounds (finRange maxConnections) (s.beginTick.tcpdAccept input) (s.tcpdTickImpl input) :=
    rounds_foldl _ (nodup_finRange maxConnections) accepted.tended (fun c => (services c).1) fun c _ => (services c).2
  have connection {c : Fin maxConnections} {id : TcpSocketId}
      (has : (s.beginTick.tcpdAccept input).holds (.connection c) = some id) : Tidy (s.tcpdTickImpl input).net id :=
    rounds.tidy (.inr ⟨c, mem_finRange c, has⟩)
  refine ⟨rounds.tended, accepted.httpd.trans rounds.httpd, ?_, ?_⟩
  · intro place id owner has
    obtain tidy | ⟨c, moved⟩ := accepted.found (ne_httpdListen_iff.mpr owner) has
    · exact rounds.tidy (.inl tidy)
    · exact connection moved
  · obtain ⟨place, own, held⟩ := rounds.occupied (accepted.occupied owns.beginTick.occupied)
    obtain ⟨id, has⟩ := ne_none_iff_exists'.mp held
    rw [← ne_httpdListen_iff.mp own]
    refine rounds.tended.owns has ?_
    cases place with
    | httpdListen => exact absurd rfl own
    | tcpdListen =>
      obtain earlier | tidy := rounds.listen has
      · exact rounds.tidy (.inl (accepted.listen earlier))
      · exact tidy
    | connection c => exact connection (rounds.kept has)

theorem Tended.ran (tended : Tended s) (net : s'.net = s.net) (holds : s'.holds = s.holds)
    (connections : s'.tcpd.connections = s.tcpd.connections) : Tended s' ∧ ∀ place, Untouched s s' place := by
  have same (place : Place) : Untouched s s' place :=
    ⟨by rw [holds], fun _ => by rw [net], fun _ => by rw [connections]⟩
  have linked : Linked s' := (tended.toLinked.same holds net).linked
  exact ⟨tended.changed linked (fun _ => False) (fun _ => same _) (fun no => no.elim), same⟩

theorem tcpd_httpdListen (s : Daemons) (listens : Bool) : (s.httpdListen listens).tcpd = s.tcpd := by
  obtain ⟨same, -⟩ | ⟨_, -, -, listened⟩ := httpdListen_cases s listens
  · rw [same]
  · rw [listened]
    rfl

theorem tcpd_httpdTickImpl (s : Daemons) (input : HttpdInput) : (s.httpdTickImpl input).tcpd = s.tcpd := by
  have served (s : Daemons) : (s.httpdServe input).tcpd = s.tcpd := by
    rw [httpdServe]
    split
    · rfl
    · rfl
  rw [httpdTickImpl, tcpd_httpdListen, served, tcpd_httpdListen]
  rfl

/-- What holds between two ticks. -/
structure Cared (s : Daemons) : Prop extends Tended s where
  tcpd : s.tcpd.initialized = true → s.Owns .tcpd

theorem Cared.ran (cared : Cared s) (holds : s'.holds = s.holds) (net : s'.net = s.net := by rfl)
    (connections : s'.tcpd.connections = s.tcpd.connections := by rfl)
    (initialized : s'.tcpd.initialized = s.tcpd.initialized := by rfl) : Cared s' ∧ ∀ place, Untouched s s' place := by
  obtain ⟨tended, same⟩ := cared.toTended.ran net holds connections
  refine ⟨⟨tended, ?_⟩, same⟩
  intro started
  exact (cared.tcpd (initialized.symm.trans started)).untouched fun _ => same _

theorem Cared.ranHttpd (cared : Cared s) (now : Int) :
    Cared (s.ranHttpd now) ∧ ∀ place, Untouched s (s.ranHttpd now) place :=
  cared.ran (s.holds_ranHttpd now)

theorem Cared.ranTcpd (cared : Cared s) (now : Int) :
    Cared (s.ranTcpd now) ∧ ∀ place, Untouched s (s.ranTcpd now) place :=
  cared.ran (s.holds_ranTcpd now)

structure Attends (s : Daemons) (tick : Tick) (s' : Daemons) : Prop where
  cared : Cared s'
  tidy : s.Acts tick → ∀ {place id}, place.owner = tick.daemon → s.holds place = some id → Tidy s'.net id
  httpd : ∀ {id}, ¬s'.net.InUse id → s.Owns .httpd ∨ s.Acts tick ∧ tick.daemon = .httpd → s'.Owns .httpd

theorem attends_idle {tick : Tick} (cared : Cared s') (same : ∀ place, Untouched s s' place) (idle : ¬s.Acts tick) :
    Attends s tick s' where
  cared := cared
  tidy acts := absurd acts idle
  httpd _ := by
    rintro (owns | ⟨acts, -⟩)
    · exact owns.untouched fun _ => same _
    · exact absurd acts idle

theorem Cared.tick (cared : Cared s) {tick : Tick} (answered : Answered s tick) : Attends s tick (s.tick tick) := by
  by_cases acts : s.Acts tick
  · have answers := answered acts
    cases tick with
    | httpd input =>
      obtain ⟨due, network⟩ := acts
      have is : s.tick (.httpd input) = (s.ranHttpd input.now).httpdTickImpl input := by
        rw [Daemons.tick, httpdTick, if_pos due, if_pos network]
      obtain ⟨ran, same⟩ := cared.ranHttpd input.now
      obtain ⟨tended, others, tidy, listens⟩ := ran.toTended.httpdTickImpl answers
      rw [is]
      refine ⟨⟨tended, ?_⟩, ?_, fun free _ => listens free⟩
      · intro started
        rw [tcpd_httpdTickImpl] at started
        exact (ran.tcpd started).beginTick.untouched others
      · intro _ place id owner has
        cases place with
        | httpdListen => exact tidy has
        | _ => cases owner
    | tcpd input =>
      obtain ⟨due, network⟩ := acts
      have is : s.tick (.tcpd input) = (s.ranTcpd input.now).tcpdTickImpl input := by
        rw [Daemons.tick, tcpdTick, if_pos due, if_pos network]
      obtain ⟨ran, same⟩ := cared.ranTcpd input.now
      obtain ⟨tended, httpd, tidy, owns⟩ := ran.toTended.tcpdTickImpl answers (ran.tcpd due.1)
      rw [is]
      refine ⟨⟨tended, fun _ => owns⟩, ?_, ?_⟩
      · intro _ place id owner has
        exact tidy owner ((same place).holds.trans has)
      · rintro _ - (before | ⟨-, own⟩)
        · refine (before.untouched fun _ => same _).beginTick.untouched ?_
          intro place owner
          cases place with
          | httpdListen => exact httpd
          | _ => cases owner
        · cases own
  · cases tick with
    | httpd input =>
      rw [Daemons.tick, httpdTick]
      split
      · rename_i due
        rw [if_neg fun network => acts ⟨due, network⟩]
        obtain ⟨ran, same⟩ := cared.ranHttpd input.now
        exact attends_idle ran same acts
      · exact attends_idle cared (.refl s) acts
    | tcpd input =>
      rw [Daemons.tick, tcpdTick]
      split
      · rename_i due
        rw [if_neg fun network => acts ⟨due, network⟩]
        obtain ⟨ran, same⟩ := cared.ranTcpd input.now
        exact attends_idle ran same acts
      · exact attends_idle cared (.refl s) acts

end Ticks

/-! ## Runs -/

theorem Booted.cared {s : Daemons} (booted : Booted s) : Cared s := by
  induction booted with
  | new =>
    refine ⟨⟨Booted.new.linked.1, ?_⟩, nofun⟩
    intro place id has
    cases place <;> cases has
  | @httpd s s' network _ init ih =>
    obtain ⟨rfl, holds⟩ := httpdInit_ok init
    exact (ih.ran holds).1
  | @tcpd s s' network listens before once init ih =>
    obtain ⟨id, free, rfl, holds⟩ := tcpdInit_ok init
    obtain ⟨tended, -⟩ := ih.toTended.listened (.inr rfl) (before.linked.2.2 once) free holds
    have has := (congrFun holds .tcpdListen).trans (update_self ..)
    exact ⟨tended, fun _ => tended.owns has (tidy_put_listening _ id tcpdPort .listening)⟩

/-- In every run in which no listen is refused, no send takes zero bytes and no socket is found in `CloseWait` before
this side has closed it, a tick that gets the network leaves each socket of the daemon listening or in handshake, closed
on this side, given back or used; and after every tick with a free slot `tcpd` has a socket on which it will still act,
and so has `httpd` if it had one before or the tick was its own. -/
theorem sockets_attended {start s : Daemons} {ticks : List Tick} (booted : Booted start)
    (run : Run (guarded Answered Daemons.Step) start ticks s) {tick : Tick} (answered : Answered s tick) :
    (s.Acts tick → ∀ place id, place.owner = tick.daemon → s.holds place = some id → Tidy (s.tick tick).net id) ∧
      ((∃ id, ¬(s.tick tick).net.InUse id) →
        ((s.tick tick).tcpd.initialized = true → (s.tick tick).Owns .tcpd) ∧
        (s.Owns .httpd ∨ s.Acts tick ∧ tick.daemon = .httpd → (s.tick tick).Owns .httpd)) := by
  have cared : Cared s := by
    refine run.invariant ?_ booted.cared
    rintro s tick _ cared ⟨answered, rfl⟩
    exact (cared.tick answered).cared
  have attends := cared.tick answered
  refine ⟨fun acts _ _ owner has => attends.tidy acts owner has, ?_⟩
  rintro ⟨id, free⟩
  exact ⟨attends.cared.tcpd, attends.httpd free⟩

/-- After one tick `httpd` listens on a socket, and in the next it answers a request. -/
theorem sockets_attended_request : let s := httpdOnly.tick (.httpd (quietHttpd 10 .listen []))
    let s' := s.tick (.httpd (quietHttpd 20 .established [[71]]))
    s.holds .httpdListen = some 0 ∧ Tidy s'.net 0 ∧ s'.Owns .httpd := by
  intro s s'
  have answers (s : Daemons) (now : Int) (reported : TcpState) (received : List (List UInt8))
    (wait : reported ≠ .closeWait) :
      Answered s (.httpd (quietHttpd now reported received)) := fun _ => ⟨rfl, rfl, rfl, wait⟩
  have acts : s.Acts (.httpd (quietHttpd 20 .established [[71]])) := ⟨by decide, rfl⟩
  have attended := sockets_attended booted_httpdOnly (.cons ⟨answers _ 10 .listen [] (by decide), rfl⟩ (.nil s))
    (answers s 20 .established [[71]] (by decide))
  have has : s.holds .httpdListen = some 0 := rfl
  exact ⟨has, attended.1 acts .httpdListen 0 rfl has, (attended.2 ⟨1, by decide⟩).2 (.inr ⟨acts, rfl⟩)⟩

/-- A peer that closes before `httpd` sees the connection: the listening socket is left in `CloseWait`. -/
theorem half_closed_socket_left : let s := httpdOnly.tick (.httpd (quietHttpd 10 .listen []))
    let tick := Tick.httpd (quietHttpd 20 .closeWait [])
    Booted httpdOnly ∧ s.Acts tick ∧ s.holds .httpdListen = some 0 ∧
      (∃ k, ((s.tick tick).net.serverSockets 0).handle = some k ∧ ¬k.Attended) ∧ ¬(s.tick tick).net.InUse 1 ∧
      ¬(s.tick tick).Owns .httpd := by
  intro s tick
  have left : ((s.tick tick).net.serverSockets 0).handle = some ⟨.closeWait, false, false⟩ := by decide
  refine ⟨booted_httpdOnly, ⟨by decide, rfl⟩, rfl, ⟨_, left, by unfold Socket.Attended; decide⟩, by decide, ?_⟩
  rintro ⟨place, id, k, owner, has, handle, live⟩
  cases place with
  | httpdListen =>
    obtain rfl : 0 = id := some.inj has
    cases left.symm.trans handle
    exact absurd (live rfl) (by decide)
  | _ => cases owner

end HavyOs.Net
