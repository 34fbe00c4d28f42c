import HavyOs.Tls.Handshake

/-!
# What the client reads in a flight

Each receiving function of the handshake, as a condition on the bytes of the record it takes: a
`ServerHello` gives the server's random value, a `ServerKeyExchange` the curve and the public
key, and of the other messages only the type is looked at.
-/

namespace HavyOs.Tls

open Lib

/-! ## Conditions on messages -/

variable (data : List UInt8)

/-- The random value of a `ServerHello` that `recv_server_hello` takes. -/
def serverHelloRandom : Option (List UInt8) :=
  let msgLen := fromBe ((data.drop 1).take 3)
  let msg := (data.drop 4).take msgLen
  let pos := 35 + (msg.getD 34 0).toNat
  if 4 ≤ data.length ∧ data.getD 0 0 = handshakeServerHello ∧ 4 + msgLen ≤ data.length ∧ 35 ≤ msg.length ∧
      pos + 2 ≤ msg.length ∧ (msg.drop pos).take 2 = cipherSuite then some ((msg.drop 2).take 32)
  else none

/-- Bytes that `recv_server_key_exchange` reads beyond their end. -/
def CutKeyExchange : Prop := data.getD 0 0 = handshakeServerKeyExchange ∧ data.length < 4

instance : Decidable (CutKeyExchange data) := inferInstanceAs (Decidable (_ ∧ _))

/-- The curve and the public key of a `ServerKeyExchange` that `recv_server_key_exchange` takes. -/
def keyExchangeParams : Option (Nat × List UInt8) :=
  let msgLen := fromBe ((data.drop 1).take 3)
  let msg := (data.drop 4).take msgLen
  let curve := fromBe ((msg.drop 1).take 2)
  let pubkeyLen := (msg.getD 3 0).toNat
  if data.getD 0 0 = handshakeServerKeyExchange ∧ 4 ≤ data.length ∧ 4 + msgLen ≤ data.length ∧ 5 ≤ msg.length ∧
      msg.getD 0 0 = 3 ∧ (curve = namedCurveX25519 ∨ curve = namedCurveSecp256r1) ∧ 4 + pubkeyLen ≤ msg.length then
    some (curve, (msg.drop 4).take pubkeyLen)
  else none

/-! ## The parsers -/

section Parsers

variable {α : Type} {Q : α → Tls12Connection → Prop} {E : Stop → Tls12Connection → Prop} {c : Tls12Connection}

@[simp] theorem wp_panicIf {p : Prop} [Decidable p] {R : Unit → Tls12Connection → Prop} :
    wp (panicIf p) R E c ↔ (p → E .panicked c) ∧ (¬p → R () c) := by
  rw [panicIf, apply_ite (wp · R E c), ite_prop_iff_and]
  rfl

theorem parseServerHello_spec (c : Tls12Connection) :
    wp (parseServerHello data) (fun _ c' => ∃ random, serverHelloRandom data = some random ∧
        c' = { c with serverRandom := random })
      (fun stop _ => serverHelloRandom data = none ∧ stop ≠ .panicked) c := by
  simp only [parseServerHello, wp_bind, wp_failIf]
  refine ⟨fun short => ?_, fun four => ⟨fun other => ?_, fun type => ⟨fun cut => ?_, fun whole => ⟨fun small => ?_,
    fun large => ⟨fun ends => ?_, fun room => ⟨fun unlike => ?_, fun suite => ?_⟩⟩⟩⟩⟩⟩
  · exact ⟨if_neg (by omega), by simp⟩
  · exact ⟨if_neg (by tauto), by simp⟩
  · exact ⟨if_neg (by omega), by simp⟩
  · exact ⟨if_neg (by omega), by simp⟩
  · exact ⟨if_neg (by omega), by simp⟩
  · exact ⟨if_neg (by tauto), by simp⟩
  · exact ⟨_, if_pos ⟨by omega, not_not.mp type, by omega, by omega, by omega, not_not.mp suite⟩, rfl⟩

theorem parseServerKeyExchange_spec (c : Tls12Connection) :
    wp (parseServerKeyExchange data) (fun _ c' => ∃ curve pubkey, keyExchangeParams data = some (curve, pubkey) ∧
        c' = { c with curve := curve, serverPubkey := some pubkey })
      (fun stop _ => keyExchangeParams data = none ∧ (stop = .panicked ↔ CutKeyExchange data)) c := by
  simp only [parseServerKeyExchange, wp_bind, wp_failIf, wp_panicIf, keyExchangeParams, CutKeyExchange]
  refine ⟨fun empty => ?_, fun _ => ⟨fun other => ?_, fun type => ⟨fun short => ?_, fun four => ⟨fun cut => ?_,
    fun whole => ⟨fun small => ?_, fun large => ⟨fun kind => ?_, fun named => ⟨fun unlike => ?_,
    fun curve => ⟨fun ends => ?_, fun room => ?_⟩⟩⟩⟩⟩⟩⟩⟩
  · subst empty
    exact ⟨if_neg (by simp), by simp [handshakeServerKeyExchange]⟩
  · exact ⟨if_neg (by tauto), iff_of_false (by simp) fun cut => other cut.1⟩
  · exact ⟨if_neg (by omega), iff_of_true trivial ⟨not_not.mp type, short⟩⟩
  · exact ⟨if_neg (by omega), by simp [four]⟩
  · exact ⟨if_neg (by omega), by simp [four]⟩
  · exact ⟨if_neg (by tauto), by simp [four]⟩
  · exact ⟨if_neg (by tauto), by simp [four]⟩
  · exact ⟨if_neg (by omega), by simp [four]⟩
  · exact ⟨_, _, if_pos ⟨not_not.mp type, by omega, by omega, by omega, not_not.mp named, by tauto, by omega⟩, rfl⟩

end Parsers

/-! ## The records of a flight -/

/-- The stream begins with these handshake records. -/
def CarriesAll (stream : List UInt8) : List (List UInt8) → List UInt8 → Prop
  | [], rest => stream = rest
  | payload :: payloads, rest =>
    ∃ mid, Carries stream ⟨contentTypeHandshake, payload⟩ mid ∧ payload.length ≤ 18432 ∧ CarriesAll mid payloads rest

theorem CarriesAll.snoc {stream mid rest : List UInt8} {payloads : List (List UInt8)} {payload : List UInt8}
    (carried : CarriesAll stream payloads mid) (next : Carries mid ⟨contentTypeHandshake, payload⟩ rest)
    (short : payload.length ≤ 18432) : CarriesAll stream (payloads ++ [payload]) rest := by
  induction payloads generalizing stream with
  | nil =>
    obtain rfl : stream = mid := carried
    exact ⟨rest, next, short, rfl⟩
  | cons first payloads ih =>
    obtain ⟨after, here, small, later⟩ := carried
    exact ⟨after, here, small, ih later⟩

theorem CarriesAll.unique {stream rest rest' : List UInt8} {payloads payloads' : List (List UInt8)}
    (carried : CarriesAll stream payloads rest) (carried' : CarriesAll stream payloads' rest')
    (count : payloads.length = payloads'.length) : payloads = payloads' ∧ rest = rest' := by
  induction payloads generalizing stream payloads' with
  | nil =>
    obtain rfl := List.length_eq_zero_iff.mp count.symm
    exact ⟨rfl, carried.symm.trans carried'⟩
  | cons payload payloads ih =>
    cases payloads' with
    | nil => cases count
    | cons payload' payloads' =>
      obtain ⟨_, here, -, later⟩ := carried
      obtain ⟨_, here', -, later'⟩ := carried'
      obtain ⟨same, rfl⟩ := here.unique here'
      obtain ⟨rfl, rfl⟩ := ih later later' (Nat.succ.inj count)
      cases same
      exact ⟨rfl, rfl⟩

structure Params where
  serverRandom : List UInt8
  curve : Nat
  serverPubkey : List UInt8
deriving DecidableEq, Repr

/-- What the client takes from four records, one for each message. -/
def flightParams : List (List UInt8) → Option Params
  | [hello, certificate, keyExchange, done] =>
    match serverHelloRandom hello, keyExchangeParams keyExchange with
    | some random, some (curve, pubkey) =>
      if certificate.getD 0 0 = handshakeCertificate ∧ done.getD 0 0 = handshakeServerHelloDone then
        some ⟨random, curve, pubkey⟩
      else none
    | _, _ => none
  | _ => none

/-- The client reads beyond the end of the third record. -/
def CutFlight : List (List UInt8) → Prop
  | hello :: certificate :: keyExchange :: _ =>
    serverHelloRandom hello ≠ none ∧ certificate.getD 0 0 = handshakeCertificate ∧ CutKeyExchange keyExchange
  | _ => False

instance : (payloads : List (List UInt8)) → Decidable (CutFlight payloads)
  | _ :: _ :: _ :: _ => inferInstanceAs (Decidable (_ ∧ _))
  | [] => isFalse id
  | [_] => isFalse id
  | [_, _] => isFalse id

def Tls12Connection.hashed (c : Tls12Connection) (s : BlockingTcpSocket) (bytes : List UInt8) : Tls12Connection :=
  { c with socket := s, handshakeHash := c.handshakeHash ++ bytes }

variable (c : Tls12Connection)

theorem recvHandshakeRecord_spec :
    wp recvHandshakeRecord (fun data c' => ∃ s, c' = c.hashed s data ∧
        Carries c.socket.incoming ⟨contentTypeHandshake, data⟩ s.incoming ∧ data.length ≤ 18432)
      (fun stop _ => stop ≠ .panicked) c := by
  simp only [recvHandshakeRecord, wp_bind, wp_failIf]
  refine wp_mono (recvRecord_spec c) ?_ fun stop c' failed => failed.1
  rintro ⟨type, data⟩ c' ⟨s, rfl, carried, short⟩
  refine ⟨by simp, fun handshake => ⟨s, rfl, ?_, short⟩⟩
  rwa [show type = contentTypeHandshake from not_not.mp handshake] at carried

theorem recvServerHello_spec :
    wp recvServerHello (fun _ c' => ∃ s data random, c' = { c.hashed s data with serverRandom := random } ∧
        CarriesAll c.socket.incoming [data] s.incoming ∧ serverHelloRandom data = some random)
      (fun stop _ => stop ≠ .panicked) c := by
  simp only [recvServerHello, wp_bind]
  refine wp_mono (recvHandshakeRecord_spec c) ?_ fun stop c' failed => failed
  rintro data c' ⟨s, rfl, carried, short⟩
  refine wp_mono (parseServerHello_spec data _) ?_ fun stop c' failed => failed.2
  rintro - c' ⟨random, taken, rfl⟩
  exact ⟨s, data, random, rfl, ⟨s.incoming, carried, short, rfl⟩, taken⟩

/-- `recv_certificate` and `recv_server_hello_done` look at the type of the message only. -/
theorem recvTyped_spec (type : UInt8) (c : Tls12Connection) :
    wp (do
        let data ← recvHandshakeRecord
        failIf (data = [] ∨ data.getD 0 0 ≠ type) .tlsProtocolError : TlsM Unit)
      (fun _ c' => ∃ s data, c' = c.hashed s data ∧ Carries c.socket.incoming ⟨contentTypeHandshake, data⟩ s.incoming ∧
        data.length ≤ 18432 ∧ data.getD 0 0 = type)
      (fun stop _ => stop ≠ .panicked) c := by
  simp only [wp_bind, wp_failIf]
  refine wp_mono (recvHandshakeRecord_spec c) ?_ fun stop c' failed => failed
  rintro data c' ⟨s, rfl, carried, short⟩
  refine ⟨by simp, fun typed => ⟨s, data, rfl, carried, short, ?_⟩⟩
  exact not_not.mp (not_or.mp typed).2

theorem recvServerKeyExchange_spec :
    wp recvServerKeyExchange (fun _ c' => ∃ s data curve pubkey,
        c' = { c.hashed s data with curve := curve, serverPubkey := some pubkey } ∧
        Carries c.socket.incoming ⟨contentTypeHandshake, data⟩ s.incoming ∧ data.length ≤ 18432 ∧
        keyExchangeParams data = some (curve, pubkey))
      (fun stop _ => stop = .panicked → ∃ data rest, Carries c.socket.incoming ⟨contentTypeHandshake, data⟩ rest ∧
        data.length ≤ 18432 ∧ CutKeyExchange data) c := by
  simp only [recvServerKeyExchange, wp_bind]
  refine wp_mono (recvHandshakeRecord_spec c) ?_ fun stop c' failed panics => (failed panics).elim
  rintro data c' ⟨s, rfl, carried, short⟩
  refine wp_mono (parseServerKeyExchange_spec data _) ?_ ?_
  · rintro - c' ⟨curve, pubkey, taken, rfl⟩
    exact ⟨s, data, curve, pubkey, rfl, carried, short, taken⟩
  · rintro stop c' ⟨-, cut⟩ panics
    exact ⟨data, s.incoming, carried, short, cut.mp panics⟩

def Tls12Connection.afterFlight (c : Tls12Connection) (s : BlockingTcpSocket) (payloads : List (List UInt8))
    (params : Params) : Tls12Connection :=
  { c with
    socket := s
    handshakeHash := c.handshakeHash ++ payloads.flatten
    serverRandom := params.serverRandom
    curve := params.curve
    serverPubkey := some params.serverPubkey }

theorem recvServerFlight_spec :
    wp recvServerFlight (fun _ c' => ∃ s payloads params, c' = c.afterFlight s payloads params ∧
        CarriesAll c.socket.incoming payloads s.incoming ∧ flightParams payloads = some params)
      (fun stop _ => stop = .panicked → ∃ payloads rest, CarriesAll c.socket.incoming payloads rest ∧
        payloads.length = 3 ∧ CutFlight payloads) c := by
  simp only [recvServerFlight, wp_bind]
  refine wp_mono (recvServerHello_spec c) ?_ fun stop c' failed panics => (failed panics).elim
  rintro - - ⟨_, hello, random, rfl, first, greeted⟩
  refine wp_mono (recvTyped_spec handshakeCertificate _) ?_ fun stop c' failed panics => (failed panics).elim
  rintro - - ⟨_, certificate, rfl, next, short, certified⟩
  have second := first.snoc next short
  refine wp_mono (recvServerKeyExchange_spec _) ?_ ?_
  · rintro - - ⟨_, keyExchange, curve, pubkey, rfl, next, short, agreed⟩
    have third := second.snoc next short
    refine wp_mono (recvTyped_spec handshakeServerHelloDone _) ?_
      fun stop c' failed panics => (failed panics).elim
    rintro - - ⟨s₄, done, rfl, next, short, closed⟩
    refine ⟨s₄, [hello, certificate, keyExchange, done], ⟨random, curve, pubkey⟩, ?_, third.snoc next short, ?_⟩
    · simp [Tls12Connection.afterFlight, Tls12Connection.hashed]
    · simp only [flightParams, greeted, agreed, certified, closed, and_self, if_true]
  · intro stop c' failed panics
    obtain ⟨_, rest, next, short, cut⟩ := failed panics
    exact ⟨_, rest, second.snoc next short, rfl, by simp [greeted], certified, cut⟩

/-! ## A flight on a network that goes on -/

section Flows

variable {c : Tls12Connection} {n : Nat} {data rest : List UInt8}

theorem recvHandshakeRecord_flows (carried : Carries c.socket.incoming ⟨contentTypeHandshake, data⟩ rest)
    (short : data.length ≤ 18432) (flows : c.socket.Flows n) :
    ∃ s, s.Flows n ∧ s.incoming = rest ∧ recvHandshakeRecord c = .ok data (c.hashed s data) := by
  obtain ⟨s, flows', left, received⟩ :=
    recvRecord_flows carried flows short (show contentTypeHandshake ≠ contentTypeAlert by decide)
  refine ⟨s, flows', left, ?_⟩
  rw [recvHandshakeRecord, bind_ok _ received]
  rfl

theorem parseServerHello_ok {random : List UInt8} (taken : serverHelloRandom data = some random) :
    parseServerHello data c = .ok () { c with serverRandom := random } := by
  obtain ⟨_, _, run, _, taken', rfl⟩ := wp_returns
    (wp_mono (parseServerHello_spec data c) (fun _ _ h => h) fun _ _ failed => by simp [taken] at failed)
  cases taken.symm.trans taken'
  exact run

theorem parseServerKeyExchange_ok {curve : Nat} {pubkey : List UInt8}
    (taken : keyExchangeParams data = some (curve, pubkey)) :
    parseServerKeyExchange data c = .ok () { c with curve := curve, serverPubkey := some pubkey } := by
  obtain ⟨_, _, run, _, _, taken', rfl⟩ := wp_returns
    (wp_mono (parseServerKeyExchange_spec data c) (fun _ _ h => h) fun _ _ failed => by simp [taken] at failed)
  cases taken.symm.trans taken'
  exact run

theorem recvTyped_flows {type : UInt8} (other : type ≠ 0) (typed : data.getD 0 0 = type)
    (carried : Carries c.socket.incoming ⟨contentTypeHandshake, data⟩ rest) (short : data.length ≤ 18432)
    (flows : c.socket.Flows n) :
    ∃ s, s.Flows n ∧ s.incoming = rest ∧ (do
        let data ← recvHandshakeRecord
        failIf (data = [] ∨ data.getD 0 0 ≠ type) .tlsProtocolError : TlsM Unit) c = .ok () (c.hashed s data) := by
  obtain ⟨s, flows', left, received⟩ := recvHandshakeRecord_flows carried short flows
  refine ⟨s, flows', left, ?_⟩
  rw [bind_ok _ received, failIf_false _ (not_or.mpr ⟨by rintro rfl; exact other typed.symm, not_not.mpr typed⟩)]
  rfl

variable {payloads : List (List UInt8)}

theorem flightParams_eq_some {params : Params}
    (taken : flightParams payloads = some params) :
    ∃ hello certificate keyExchange done, payloads = [hello, certificate, keyExchange, done] ∧
      serverHelloRandom hello = some params.serverRandom ∧ certificate.getD 0 0 = handshakeCertificate ∧
      keyExchangeParams keyExchange = some (params.curve, params.serverPubkey) ∧
      done.getD 0 0 = handshakeServerHelloDone := by
  unfold flightParams at taken
  split at taken
  · rename_i hello certificate keyExchange done
    split at taken
    · rename_i random curve pubkey greeted agreed
      split_ifs at taken with typed
      cases taken
      exact ⟨hello, certificate, keyExchange, done, rfl, greeted, typed.1, agreed, typed.2⟩
    · cases taken
  · cases taken

def Tls12Connection.certified (c : Tls12Connection) (s : BlockingTcpSocket) (hello certificate random : List UInt8) :
    Tls12Connection :=
  { c with socket := s, handshakeHash := c.handshakeHash ++ hello ++ certificate, serverRandom := random }

theorem recvServerFlight_certified {hello certificate random : List UInt8}
    (carried : CarriesAll c.socket.incoming [hello, certificate] rest) (greeted : serverHelloRandom hello = some random)
    (certified : certificate.getD 0 0 = handshakeCertificate) (flows : c.socket.Flows n) :
    ∃ s, s.Flows n ∧ s.incoming = rest ∧
      recvServerFlight c =
      (do recvServerKeyExchange; recvServerHelloDone) (c.certified s hello certificate random) := by
  obtain ⟨_, first, short₁, _, second, short₂, rfl⟩ := carried
  obtain ⟨s₁, flows₁, rfl, run₁⟩ := recvHandshakeRecord_flows first short₁ flows
  obtain ⟨s₂, flows₂, rfl, run₂⟩ := recvTyped_flows (by decide) certified
    (show Carries ({ c.hashed s₁ hello with serverRandom := random }).socket.incoming _ _ from second) short₂ flows₁
  refine ⟨s₂, flows₂, rfl, ?_⟩
  rw [recvServerFlight, recvServerHello, bind_assoc, bind_ok _ run₁, bind_ok _ (parseServerHello_ok greeted),
    recvCertificate, bind_ok _ run₂]
  rfl

theorem CarriesAll.split {stream : List UInt8} (payloads : List (List UInt8)) {payloads' : List (List UInt8)}
    (carried : CarriesAll stream (payloads ++ payloads') rest) :
    ∃ mid, CarriesAll stream payloads mid ∧ CarriesAll mid payloads' rest := by
  induction payloads generalizing stream with
  | nil => exact ⟨stream, rfl, carried⟩
  | cons payload payloads ih =>
    obtain ⟨after, here, short, later⟩ := carried
    obtain ⟨mid, first, second⟩ := ih later
    exact ⟨mid, ⟨after, here, short, first⟩, second⟩

theorem recvServerFlight_flows {params : Params}
    (carried : CarriesAll c.socket.incoming payloads rest) (taken : flightParams payloads = some params)
    (flows : c.socket.Flows n) :
    ∃ s, s.Flows n ∧ s.incoming = rest ∧ recvServerFlight c = .ok () (c.afterFlight s payloads params) := by
  obtain ⟨hello, certificate, keyExchange, _, rfl, greeted, certified, agreed, closed⟩ := flightParams_eq_some taken
  obtain ⟨_, two, _, third, short₃, _, fourth, short₄, rfl⟩ := CarriesAll.split [hello, certificate] carried
  obtain ⟨s₂, flows₂, rfl, run₂⟩ := recvServerFlight_certified two greeted certified flows
  obtain ⟨s₃, flows₃, rfl, run₃⟩ := recvHandshakeRecord_flows
    (show Carries (c.certified s₂ hello certificate params.serverRandom).socket.incoming _ _ from third) short₃ flows₂
  obtain ⟨s₄, flows₄, rfl, run₄⟩ := recvTyped_flows (by decide) closed
    (show Carries ({ (c.certified s₂ hello certificate params.serverRandom).hashed s₃ keyExchange with
      curve := params.curve, serverPubkey := some params.serverPubkey }).socket.incoming _ _ from fourth) short₄ flows₃
  refine ⟨s₄, flows₄, rfl, ?_⟩
  rw [run₂, recvServerKeyExchange, bind_assoc, bind_ok _ run₃, bind_ok _ (parseServerKeyExchange_ok agreed),
    recvServerHelloDone, run₄]
  simp [Tls12Connection.afterFlight, Tls12Connection.hashed, Tls12Connection.certified]

theorem parseServerKeyExchange_panics (cut : CutKeyExchange data) :
    ∃ c', parseServerKeyExchange data c = .error .panicked c' := by
  have spec := parseServerKeyExchange_spec data c
  cases run : parseServerKeyExchange data c with
  | ok a c' =>
    obtain ⟨_, _, taken, -⟩ := wp_of_ok spec run
    rw [keyExchangeParams, if_neg (by have := cut.2; omega)] at taken
    cases taken
  | error stop c' =>
    obtain rfl := (wp_of_error spec run).2.mpr cut
    exact ⟨c', rfl⟩

/-- A cut third record stops the kernel. -/
theorem recvServerFlight_panics (carried : CarriesAll c.socket.incoming payloads rest)
    (cut : CutFlight payloads) (three : payloads.length = 3) (flows : c.socket.Flows n) :
    ∃ c', recvServerFlight c = .error .panicked c' := by
  match payloads, three with
  | [hello, certificate, keyExchange], _ =>
    obtain ⟨greeted, certified, short⟩ := cut
    obtain ⟨random, greeted⟩ := Option.ne_none_iff_exists'.mp greeted
    obtain ⟨_, two, _, third, short₃, rfl⟩ := CarriesAll.split [hello, certificate] carried
    obtain ⟨s₂, flows₂, rfl, run₂⟩ := recvServerFlight_certified two greeted certified flows
    obtain ⟨_, -, -, run₃⟩ := recvHandshakeRecord_flows
      (show Carries (c.certified s₂ hello certificate random).socket.incoming _ _ from third) short₃ flows₂
    obtain ⟨c', panics⟩ := parseServerKeyExchange_panics short
    exact ⟨c', by rw [run₂, recvServerKeyExchange, bind_assoc, bind_ok _ run₃, bind_error _ panics]⟩

end Flows

end HavyOs.Tls
