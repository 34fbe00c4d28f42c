import HavyOs.Tls.Flight

/-!
# What a handshake has seen when it returns

The client's half of the handshake, and the two halves put together: when `handshake` returns,
the bytes of the server are four handshake records that the client could read, a
`ChangeCipherSpec` record and a record that decrypts under the keys of the exchange and begins
with the type of a `Finished` message; on a network that goes on every such stream is accepted.
What follows the type is not looked at.
-/

namespace HavyOs.Tls

open Lib List

/-! ## Keys and transcript -/

variable (crypto : Crypto) (entropy : Entropy)

/-- The shared secret for what the server sent, if `compute_keys` finds one. -/
def sharedSecret (params : Params) : Option (List UInt8) :=
  if params.curve = namedCurveX25519 then
    if params.serverPubkey.length = 32 then some (crypto.x25519 entropy.x25519Secret params.serverPubkey) else none
  else if params.curve = namedCurveSecp256r1 then
    if params.serverPubkey.length = 65 ∧ crypto.p256Point params.serverPubkey = true then
      some (crypto.p256 entropy.p256Secret params.serverPubkey)
    else none
  else none

/-- The keys that client and server agree on. -/
def Params.keys (params : Params) : Option Keys :=
  (sharedSecret crypto entropy params).map fun preMaster =>
    deriveKeys crypto preMaster entropy.clientRandom params.serverRandom

variable (curve : Nat)

def clientPubkey : List UInt8 :=
  if curve = namedCurveX25519 then crypto.x25519Public entropy.x25519Secret else crypto.p256Public entropy.p256Secret

def clientKeyExchange : List UInt8 :=
  buildHandshakeMessage handshakeClientKeyExchange
    (UInt8.ofNat (clientPubkey crypto entropy curve).length :: clientPubkey crypto entropy curve)

/-- A `Finished` message: the label says whose, and the messages before it are hashed. -/
def finishedMessage (masterSecret : List UInt8) (label : String) (messages : List UInt8) : List UInt8 :=
  buildHandshakeMessage handshakeFinished (prfSha256 crypto masterSecret (ascii label) (crypto.sha256 messages) 12)

variable (hostname : List UInt8)

/-- The messages up to `ClientKeyExchange`. -/
def exchanged (payloads : List (List UInt8)) (curve : Nat) :
    List UInt8 :=
  clientHello entropy.clientRandom hostname ++ payloads.flatten ++ clientKeyExchange crypto entropy curve

def transcript (payloads : List (List UInt8)) (curve : Nat)
    (keys : Keys) : List UInt8 :=
  let messages := exchanged crypto entropy hostname payloads curve
  messages ++ finishedMessage crypto keys.masterSecret "client finished" messages

/-! ## The client's flight -/

theorem length_prfSha256 (secret label seed : List UInt8) (length : Nat) :
    (prfSha256 crypto secret label seed length).length = length := by
  have filled := pHashLoop_eq crypto secret (label ++ seed) length length length 1 (Nat.le_refl length) (by omega)
  refine (congrArg List.length filled).trans ?_
  simp only [length_take, length_flatMap, hmacBlock, crypto.hmacSha256_length, map_const',
    length_range', sum_replicate_nat]
  omega

theorem length_buildHandshakeMessage (msgType : UInt8) (data : List UInt8) :
    (buildHandshakeMessage msgType data).length = 4 + data.length := by
  simp only [buildHandshakeMessage, length_append, length_cons, toBe_length]

theorem length_finishedMessage (masterSecret : List UInt8) (label : String) (messages : List UInt8) :
    (finishedMessage crypto masterSecret label messages).length = 16 := by
  rw [finishedMessage, length_buildHandshakeMessage, length_prfSha256]

theorem length_clientPubkey :
    0 < (clientPubkey crypto entropy curve).length ∧ (clientPubkey crypto entropy curve).length ≤ 65 := by
  unfold clientPubkey
  split
  · rw [crypto.x25519Public_length]
    omega
  · rw [crypto.p256Public_length]
    omega

theorem length_clientKeyExchange :
    (clientKeyExchange crypto entropy curve).length ≤ 70 := by
  have := length_clientPubkey crypto entropy curve
  rw [clientKeyExchange, length_buildHandshakeMessage, length_cons]
  omega

section Sending

variable {crypto : Crypto} {entropy : Entropy} {params : Params} {c : Tls12Connection}

/-- The connection as `send_client_key_exchange` finds it. -/
structure Ready (crypto : Crypto) (entropy : Entropy) (params : Params) (c : Tls12Connection) : Prop where
  curve : c.curve = params.curve
  known : params.curve = namedCurveX25519 ∨ params.curve = namedCurveSecp256r1
  serverPubkey : c.serverPubkey = some params.serverPubkey
  serverRandom : c.serverRandom = params.serverRandom
  clientRandom : c.clientRandom = entropy.clientRandom
  x25519Secret : c.x25519Secret = some entropy.x25519Secret
  p256Secret : c.p256Secret = some entropy.p256Secret
  clientPubkeyX25519 : c.clientPubkeyX25519 = crypto.x25519Public entropy.x25519Secret
  clientPubkeyP256 : c.clientPubkeyP256 = crypto.p256Public entropy.p256Secret

section

variable (ready : Ready crypto entropy params c)

include ready

theorem sendClientKeyExchange_spec :
    wp sendClientKeyExchange (fun _ c' => ∃ s, c' = c.hashed s (clientKeyExchange crypto entropy params.curve) ∧
        Sends 75 c.socket s)
      (fun stop _ => stop ≠ .panicked ∧ Stalls 75 c.socket) c := by
  have pubkey : (if c.curve = namedCurveX25519 then c.clientPubkeyX25519 else c.clientPubkeyP256) =
      clientPubkey crypto entropy params.curve := by
    rw [ready.curve, ready.clientPubkeyX25519, ready.clientPubkeyP256, clientPubkey]
  have cost : 5 + (clientKeyExchange crypto entropy params.curve).length ≤ 75 := by
    have := length_clientKeyExchange crypto entropy params.curve
    omega
  simp only [sendClientKeyExchange, updateHash, wp_bind, wp_get, wp_failIf, wp_modify]
  rw [pubkey]
  have known : c.curve = namedCurveX25519 ∨ c.curve = namedCurveSecp256r1 := ready.curve ▸ ready.known
  refine ⟨fun unknown => absurd known (by tauto), fun _ => ⟨fun none => ?_, fun _ => ?_⟩⟩
  · have := (length_clientPubkey crypto entropy params.curve).1
    rw [none] at this
    cases this
  · refine wp_mono (sendRecord_spec contentTypeHandshake _ _) ?_ fun stop c' failed => ⟨failed.1, failed.2.mono cost⟩
    rintro - - ⟨s, rfl, sends⟩
    exact ⟨s, rfl, sends.mono cost⟩

theorem preMasterSecret_spec :
    wp (preMasterSecret crypto) (fun preMaster c' => sharedSecret crypto entropy params = some preMaster ∧
        ∃ x p, c' = { c with x25519Secret := x, p256Secret := p })
      (fun stop _ => stop ≠ .panicked ∧ sharedSecret crypto entropy params = none) c := by
  simp only [preMasterSecret, wp_bind, wp_get, ready.serverPubkey, ready.curve, ready.x25519Secret, ready.p256Secret,
    sharedSecret]
  by_cases x25519 : params.curve = namedCurveX25519
  · simp only [if_pos x25519, wp_bind, wp_failIf]
    exact ⟨fun other => ⟨by simp, if_neg other⟩, fun same =>
      ⟨if_pos (not_not.mp same), none, c.p256Secret, by rw [ready.p256Secret]⟩⟩
  · by_cases p256 : params.curve = namedCurveSecp256r1
    · simp only [if_neg x25519, if_pos p256, wp_bind, wp_failIf]
      refine ⟨fun other => ⟨by simp, if_neg (by tauto)⟩, fun same => ⟨fun off => ⟨by simp, if_neg (by simp [off])⟩,
        fun on => ⟨if_pos ⟨not_not.mp same, by simpa using on⟩, c.x25519Secret, none, by rw [ready.x25519Secret]⟩⟩⟩
    · exact absurd ready.known (by tauto)

theorem computeKeys_spec :
    wp (computeKeys crypto) (fun _ c' => ∃ keys x p, params.keys crypto entropy = some keys ∧
        c' = ({ c with x25519Secret := x, p256Secret := p }).withKeys keys)
      (fun stop _ => stop ≠ .panicked ∧ params.keys crypto entropy = none) c := by
  simp only [computeKeys, wp_bind]
  refine wp_mono (preMasterSecret_spec ready) ?_ ?_
  · rintro _ - ⟨shared, x, p, rfl⟩
    refine ⟨_, x, p, by rw [Params.keys, shared, Option.map_some], ?_⟩
    simp only [ready.clientRandom, ready.serverRandom]
  · rintro stop - ⟨calm, none⟩
    exact ⟨calm, by rw [Params.keys, none, Option.map_none]⟩

end

/-- The connection once the client has sent its `Finished`. -/
structure Secured (c c' : Tls12Connection) (keys : Keys) (messages : List UInt8) : Prop where
  serverSeq : c'.serverSeq = c.serverSeq
  keys : c'.keys = keys
  hash : c'.handshakeHash = messages

theorem sendFinished_spec (crypto : Crypto) (c : Tls12Connection) :
    wp (sendFinished crypto) (fun _ c' => Sends 45 c.socket c'.socket ∧ Secured c c' c.keys
        (c.handshakeHash ++ finishedMessage crypto c.masterSecret "client finished" c.handshakeHash))
      (fun stop _ => stop ≠ .panicked ∧ Stalls 45 c.socket) c := by
  simp only [sendFinished, updateHash, wp_bind, wp_get, wp_modify]
  have sixteen := length_finishedMessage crypto c.masterSecret "client finished" c.handshakeHash
  have sent := sendEncryptedRecord_spec crypto contentTypeHandshake
    (finishedMessage crypto c.masterSecret "client finished" c.handshakeHash)
    { c with handshakeHash :=
    c.handshakeHash ++ finishedMessage crypto c.masterSecret "client finished" c.handshakeHash }
    (by rw [gcmMaxPlaintext]; omega)
  rw [sixteen] at sent
  refine wp_mono sent ?_ fun stop c' failed => failed
  rintro - - ⟨s, rfl, sends⟩
  exact ⟨sends, rfl, rfl, rfl⟩

theorem sendClientFlight_spec (ready : Ready crypto entropy params c) :
    wp (sendClientFlight crypto) (fun _ c' => ∃ keys, params.keys crypto entropy = some keys ∧
        Sends 126 c.socket c'.socket ∧ Secured c c' keys
          (c.handshakeHash ++ clientKeyExchange crypto entropy params.curve ++ finishedMessage crypto keys.masterSecret
            "client finished" (c.handshakeHash ++ clientKeyExchange crypto entropy params.curve)))
      (fun stop _ => stop ≠ .panicked ∧ (params.keys crypto entropy = none ∨ Stalls 126 c.socket)) c := by
  simp only [sendClientFlight, wp_bind, wp_modify]
  refine wp_mono (sendClientKeyExchange_spec ready) ?_ fun stop c' failed => ⟨failed.1, .inr (failed.2.mono (by omega))⟩
  rintro - - ⟨s₁, rfl, first⟩
  have ready₁ : Ready crypto entropy params (c.hashed s₁ (clientKeyExchange crypto entropy params.curve)) :=
    { ready with }
  refine wp_mono (computeKeys_spec ready₁) ?_ fun stop c' failed => ⟨failed.1, .inl failed.2⟩
  rintro - - ⟨keys, x, p, derived, rfl⟩
  refine wp_mono (sendRecord_spec contentTypeChangeCipherSpec [1] _) ?_
    fun stop c' failed => ⟨failed.1, .inr ((failed.2.after first).mono (by simp))⟩
  rintro - - ⟨_, rfl, second⟩
  have sent := first.trans second
  refine wp_mono (sendFinished_spec crypto _) ?_ fun stop c' failed =>
    ⟨failed.1, .inr ((failed.2.after sent).mono (by simp))⟩
  rintro - c' ⟨third, secured⟩
  exact ⟨keys, derived, (sent.trans third).mono (by simp), secured.serverSeq, secured.keys, secured.hash⟩

end Sending

/-! ## The whole handshake -/

/-- What the server's bytes are when the handshake returns: the flight, a `ChangeCipherSpec` record, and a record that
decrypts under the agreed keys as the first of the server's records. -/
structure Received (crypto : Crypto) (entropy : Entropy) (stream : List UInt8) (payloads : List (List UInt8))
    (params : Params) (keys : Keys) (plaintext : List UInt8) : Prop where
  taken : flightParams payloads = some params
  derived : params.keys crypto entropy = some keys
  records : ∃ mid change mid' nonce ciphertext rest, CarriesAll stream payloads mid ∧
    Carries mid ⟨contentTypeChangeCipherSpec, change⟩ mid' ∧ change.length ≤ 18432 ∧
    nonce.length = gcmExplicitNonceSize ∧ Carries mid' ⟨contentTypeHandshake, nonce ++ ciphertext⟩ rest ∧
    crypto.decrypt keys.serverWriteKey (keys.serverWriteIv ++ nonce)
      (additionalData 0 contentTypeHandshake plaintext.length) ciphertext = some plaintext

variable {payloads : List (List UInt8)} {params : Params}

theorem length_of_flightParams
    (taken : flightParams payloads = some params) : payloads.length = 4 := by
  obtain ⟨_, _, _, _, rfl, -⟩ := flightParams_eq_some taken
  rfl

theorem Received.unique {crypto : Crypto} {entropy : Entropy} {stream plaintext plaintext' : List UInt8}
    {payloads' : List (List UInt8)} {params' : Params} {keys keys' : Keys}
    (received : Received crypto entropy stream payloads params keys plaintext)
    (received' : Received crypto entropy stream payloads' params' keys' plaintext') :
    payloads = payloads' ∧ params = params' ∧ keys = keys' ∧ plaintext = plaintext' := by
  obtain ⟨taken, derived, _, _, _, _, _, _, flight, changed, -, eight, last, opened⟩ := received
  obtain ⟨taken', derived', _, _, _, _, _, _, flight', changed', -, eight', last',
    opened'⟩ := received'
  obtain ⟨rfl, rfl⟩ := flight.unique flight' ((length_of_flightParams taken).trans (length_of_flightParams taken').symm)
  cases taken.symm.trans taken'
  cases derived.symm.trans derived'
  obtain ⟨-, rfl⟩ := changed.unique changed'
  obtain ⟨same, -⟩ := last.unique last'
  obtain ⟨rfl, rfl⟩ := append_inj (TlsRecord.mk.inj same).2 (eight.trans eight'.symm)
  have tagged := crypto.decrypt_length _ _ _ _ _ opened
  have tagged' := crypto.decrypt_length _ _ _ _ _ opened'
  have length : plaintext.length = plaintext'.length := by omega
  rw [length] at opened
  cases opened.symm.trans opened'
  exact ⟨rfl, rfl, rfl, rfl⟩

theorem known_of_keyExchangeParams {data pubkey : List UInt8} {curve : Nat}
    (taken : keyExchangeParams data = some (curve, pubkey)) : curve = namedCurveX25519 ∨
    curve = namedCurveSecp256r1 := by
  unfold keyExchangeParams at taken
  dsimp only at taken
  split_ifs at taken with accepted
  cases taken
  exact accepted.2.2.2.2.2.1

section Handshake

variable {crypto : Crypto} {entropy : Entropy} {c : Tls12Connection} {hostname : List UInt8}

def greeted (crypto : Crypto) (entropy : Entropy) (hostname : List UInt8) (s : BlockingTcpSocket) : Tls12Connection :=
  { Tls12Connection.new s entropy.clientRandom with
    x25519Secret := some entropy.x25519Secret
    clientPubkeyX25519 := crypto.x25519Public entropy.x25519Secret
    clientPubkeyP256 := crypto.p256Public entropy.p256Secret
    p256Secret := some entropy.p256Secret
    handshakeHash := clientHello entropy.clientRandom hostname }

theorem sendClientHello_spec (c : Tls12Connection) (hostname : List UInt8) :
    wp (sendClientHello hostname) (fun _ c' => ∃ s, c' = c.hashed s (clientHello c.clientRandom hostname) ∧
        Sends (5 + (clientHello c.clientRandom hostname).length) c.socket s)
      (fun stop _ => stop ≠ .panicked ∧ Stalls (5 + (clientHello c.clientRandom hostname).length) c.socket) c := by
  simp only [sendClientHello, wp_bind]
  exact sendRecord_spec contentTypeHandshake (clientHello c.clientRandom hostname) _

theorem recvChangeCipherSpec_spec (c : Tls12Connection) :
    wp recvChangeCipherSpec (fun _ c' => ∃ s data, c' = c.withSocket s ∧
        Carries c.socket.incoming ⟨contentTypeChangeCipherSpec, data⟩ s.incoming ∧ data.length ≤ 18432)
      (fun stop _ => stop ≠ .panicked) c := by
  simp only [recvChangeCipherSpec, wp_bind, wp_failIf]
  refine wp_mono (recvRecord_spec c) ?_ fun stop c' failed => failed.1
  rintro ⟨type, data⟩ - ⟨s, rfl, carried, short⟩
  refine ⟨by simp, fun same => ⟨s, data, rfl, ?_, short⟩⟩
  rwa [show type = contentTypeChangeCipherSpec from not_not.mp same] at carried

theorem recvFinished_spec (crypto : Crypto) (c : Tls12Connection) :
    wp (recvFinished crypto) (fun _ c' => ∃ s nonce ciphertext plaintext, c' = c.accepted s ∧
        Opened crypto c ⟨contentTypeHandshake, plaintext⟩ nonce ciphertext s.incoming ∧
        plaintext.head? = some handshakeFinished)
      (fun stop _ => stop ≠ .panicked) c := by
  simp only [recvFinished, wp_bind, wp_failIf]
  refine wp_mono (recvEncryptedRecord_spec crypto c) ?_ fun stop c' failed => failed.1
  rintro ⟨type, plaintext⟩ - ⟨s, nonce, ciphertext, rfl, opened⟩
  refine ⟨by simp, fun same => ⟨by simp, fun typed => ⟨s, nonce, ciphertext, plaintext, rfl, ?_, ?_⟩⟩⟩
  · rwa [show type = contentTypeHandshake from not_not.mp same] at opened
  · cases plaintext with
    | nil => exact absurd (.inl rfl) typed
    | cons first plaintext => exact congrArg some (not_not.mp (not_or.mp typed).2)

/-- The connection is ready for the client's flight once the server's has been read. -/
theorem ready_afterFlight {payloads : List (List UInt8)} (taken : flightParams payloads = some params)
    (crypto : Crypto) (entropy : Entropy) (hostname : List UInt8) (s s' : BlockingTcpSocket) :
    Ready crypto entropy params ((greeted crypto entropy hostname s).afterFlight s' payloads params) := by
  obtain ⟨_, _, _, _, _, _, _, agreed, _⟩ := flightParams_eq_some taken
  exact ⟨rfl, known_of_keyExchangeParams agreed, rfl, rfl, rfl, rfl, rfl, rfl, rfl⟩

/-- When the handshake returns, the client has received what it should, up to the contents of the last message, and has
hashed all messages before; it panics only in a cut `ServerKeyExchange`. -/
theorem handshake_spec (crypto : Crypto) (entropy : Entropy) (hostname : List UInt8) (s : BlockingTcpSocket) :
    wp (handshake crypto entropy hostname) (fun _ c' => ∃ payloads params keys plaintext,
        Received crypto entropy s.incoming payloads params keys plaintext ∧
        plaintext.head? = some handshakeFinished ∧ c'.keys = keys ∧
        c'.handshakeHash = transcript crypto entropy hostname payloads params.curve keys)
      (fun stop _ => stop = .panicked → ∃ payloads rest, CarriesAll s.incoming payloads rest ∧
        payloads.length = 3 ∧ CutFlight payloads) (.new s entropy.clientRandom) := by
  simp only [handshake, makeKeyPairs, wp_bind, wp_modify]
  refine wp_mono (sendClientHello_spec _ hostname) ?_ fun stop c' failed panics => (failed.1 panics).elim
  rintro - - ⟨s₁, rfl, hello⟩
  have same : s₁.incoming = s.incoming := hello.incoming
  refine wp_mono (recvServerFlight_spec _) ?_ ?_
  · rintro - - ⟨s₂, payloads, params, rfl, flight, taken⟩
    refine wp_mono (sendClientFlight_spec (ready_afterFlight taken crypto entropy hostname s₁ s₂)) ?_
      fun stop c' failed panics => (failed.1 panics).elim
    rintro - c₃ ⟨keys, derived, sent, secured⟩
    refine wp_mono (recvChangeCipherSpec_spec c₃) ?_ fun stop c' failed panics => (failed panics).elim
    rintro - - ⟨s₄, change, rfl, changed, short⟩
    refine wp_mono (recvFinished_spec crypto _) ?_ fun stop c' failed panics => (failed panics).elim
    rintro - - ⟨s₅, nonce, ciphertext, plaintext, rfl, opened, typed⟩
    refine ⟨payloads, params, keys, plaintext, ⟨taken, derived, s₂.incoming, change, s₄.incoming, nonce, ciphertext,
      s₅.incoming, ?_, ?_, short, opened.nonce_length, opened.carried, ?_⟩, typed, secured.keys, secured.hash⟩
    · exact same ▸ flight
    · exact sent.incoming ▸ changed
    · obtain rfl := secured.keys
      have first : c₃.serverSeq = 0 := secured.serverSeq
      rw [← first]
      exact opened.decrypted
  · intro stop c' failed panics
    obtain ⟨payloads, rest, flight, three, cut⟩ := failed panics
    exact ⟨payloads, rest, same ▸ flight, three, cut⟩

/-- The bytes that the client sends in a handshake, at most. -/
def handshakeCost (entropy : Entropy) (hostname : List UInt8) : Nat :=
  126 + (5 + (clientHello entropy.clientRandom hostname).length)

/-- On a network that goes on, the handshake comes to the server's flight. -/
theorem handshake_greets {n : Nat} {s : BlockingTcpSocket} (crypto : Crypto)
    (flows : s.Flows (n + (5 + (clientHello entropy.clientRandom hostname).length))) :
    ∃ s', s'.Flows n ∧ s'.incoming = s.incoming ∧ handshake crypto entropy hostname (.new s entropy.clientRandom) =
      (do recvServerFlight; sendClientFlight crypto; recvChangeCipherSpec; recvFinished crypto)
        (greeted crypto entropy hostname s') := by
  have paired : ∃ c, makeKeyPairs crypto entropy (.new s entropy.clientRandom) = .ok () c ∧ c.socket = s ∧
      c.clientRandom = entropy.clientRandom ∧ ∀ s', c.hashed s' (clientHello entropy.clientRandom hostname) =
        greeted crypto entropy hostname s' := ⟨_, rfl, rfl, rfl, fun _ => rfl⟩
  obtain ⟨c, made, rfl, random, next⟩ := paired
  have spec := sendClientHello_spec c hostname
  rw [random] at spec
  obtain ⟨_, _, sent, s', rfl, hello⟩ := wp_returns (wp_mono spec (fun _ _ h => h) fun _ _ failed => failed.2 n flows)
  refine ⟨s', hello.flows n flows, hello.incoming, ?_⟩
  rw [handshake, bind_ok _ made, bind_ok _ sent, next]

/-- On a network that goes on, everything of this shape is accepted. -/
theorem handshake_flows {s : BlockingTcpSocket} {payloads : List (List UInt8)} {keys : Keys}
    {plaintext : List UInt8} (received : Received crypto entropy s.incoming payloads params keys plaintext)
    (typed : plaintext.head? = some handshakeFinished) (flows : s.Flows (handshakeCost entropy hostname)) :
    ∃ c', handshake crypto entropy hostname (.new s entropy.clientRandom) = .ok () c' := by
  obtain ⟨taken, derived, _, _, _, nonce, ciphertext, rest, flight, changed, short, eight, last, opens⟩ := received
  obtain ⟨s₁, flows₁, same, greets⟩ := handshake_greets crypto flows
  rw [← same] at flight
  obtain ⟨s₂, flows₂, rfl, run₂⟩ :=
    recvServerFlight_flows (c := greeted crypto entropy hostname s₁) flight taken flows₁
  obtain ⟨_, c₃, run₃, _, derived', sent, secured⟩ := wp_returns (wp_mono
    (sendClientFlight_spec (ready_afterFlight taken crypto entropy hostname s₁ s₂)) (fun _ _ h => h)
    fun _ _ failed => failed.2.elim (fun none => nomatch derived.symm.trans none) fun stalls => stalls 0 flows₂)
  cases derived.symm.trans derived'
  obtain ⟨s₄, flows₄, rfl, received⟩ := recvRecord_flows (sent.incoming ▸ changed) (sent.flows 0 flows₂) short
    (show contentTypeChangeCipherSpec ≠ contentTypeAlert by decide)
  have run₄ : recvChangeCipherSpec c₃ = .ok () (c₃.withSocket s₄) := by
    rw [recvChangeCipherSpec, bind_ok _ received]
    rfl
  have opened : Opened crypto (c₃.withSocket s₄) ⟨contentTypeHandshake, plaintext⟩ nonce ciphertext rest := by
    refine ⟨eight, last, ?_⟩
    obtain rfl := secured.keys
    have first : c₃.serverSeq = 0 := secured.serverSeq
    rwa [← first] at opens
  obtain ⟨_, _, s₅, -, -, first, type, length, second⟩ := opened.carried.reads flows₄
  have last := recvEncryptedRecord_of_reads opened first type length second
  refine ⟨(c₃.withSocket s₄).accepted s₅, ?_⟩
  rw [greets, bind_ok _ run₂, bind_ok _ run₃, bind_ok _ run₄, recvFinished, bind_ok _ last, failIf_false _ (by simp),
    failIf_false]
  · rfl
  · cases plaintext with
    | nil => cases typed
    | cons first plaintext =>
      cases typed
      simp

/-- **What the client accepts.** When the handshake returns, the server's bytes are a flight, a `ChangeCipherSpec` and a
record that decrypts to a `Finished` message, and the keys and the transcript are those of the flight. On a network
that goes on, every such stream is accepted. -/
theorem handshake_accepts (crypto : Crypto) (entropy : Entropy) (hostname : List UInt8) :
    (∀ s c', handshake crypto entropy hostname (.new s entropy.clientRandom) = .ok () c' →
      ∃ payloads params keys plaintext, Received crypto entropy s.incoming payloads params keys plaintext ∧
        plaintext.head? = some handshakeFinished ∧ c'.keys = keys ∧
        c'.handshakeHash = transcript crypto entropy hostname payloads params.curve keys) ∧
    ∀ s payloads params keys plaintext, Received crypto entropy s.incoming payloads params keys plaintext →
      plaintext.head? = some handshakeFinished → s.Flows (handshakeCost entropy hostname) →
        ∃ c', handshake crypto entropy hostname (.new s entropy.clientRandom) = .ok () c' := by
  constructor
  · intro s c' returned
    exact wp_of_ok (handshake_spec crypto entropy hostname s) returned
  · intro s payloads params keys plaintext received typed flows
    exact handshake_flows received typed flows

end Handshake

/-! ## The server's `Finished` -/

/-- The `Finished` message that the server owes for what it sent. -/
def serverFinished (payloads : List (List UInt8))
    (params : Params) (keys : Keys) : List UInt8 :=
  finishedMessage crypto keys.masterSecret "server finished"
    (transcript crypto entropy hostname payloads params.curve keys)

/-- However the bytes arrive, the handshake returns only when a `Finished` message with the right `verify_data` was
received under the agreed keys. -/
def Authenticates (stream : List UInt8) : Prop :=
  ∀ polls c', handshake crypto entropy hostname (.new ⟨polls, stream, []⟩ entropy.clientRandom) = .ok () c' →
    ∃ payloads params keys plaintext, Received crypto entropy stream payloads params keys plaintext ∧
      serverFinished crypto entropy hostname payloads params keys <+: plaintext

/-- The handshake authenticates the server's `Finished` exactly on the streams whose last record, if it begins with the
type of a `Finished` message, begins with the right one. -/
theorem server_finished_authenticated (crypto : Crypto) (entropy : Entropy) (hostname stream : List UInt8) :
    Authenticates crypto entropy hostname stream ↔ ∀ payloads params keys plaintext,
      Received crypto entropy stream payloads params keys plaintext → plaintext.head? = some handshakeFinished →
      serverFinished crypto entropy hostname payloads params keys <+: plaintext := by
  constructor
  · intro authenticates payloads params keys plaintext received typed
    obtain ⟨c', run⟩ := handshake_flows received typed
      (BlockingTcpSocket.steady_flows _ stream)
    obtain ⟨_, _, _, _, received', genuine⟩ := authenticates _ c' run
    obtain ⟨rfl, rfl, rfl, rfl⟩ := received.unique received'
    exact genuine
  · intro unforged polls c' run
    obtain ⟨payloads, params, keys, plaintext, received, typed, -⟩ :=
      wp_of_ok (handshake_spec crypto entropy hostname ⟨polls, stream, []⟩) run
    exact ⟨payloads, params, keys, plaintext, received, unforged _ _ _ _ received typed⟩

/-! ## A forged `Finished` -/

/-- Primitives without secrets: what is encrypted is the plaintext with an empty tag. -/
def plainCrypto : Crypto where
  sha256 := id
  hmacSha256 _ _ := replicate 32 0
  x25519Public _ := replicate 32 9
  x25519 _ pubkey := pubkey
  p256Public _ := replicate 65 4
  p256Point _ := true
  p256 _ pubkey := pubkey
  encrypt _ _ _ plaintext := plaintext ++ replicate gcmTagSize 0
  decrypt _ _ _ ciphertext :=
    if gcmTagSize ≤ ciphertext.length then some (ciphertext.take (ciphertext.length - gcmTagSize)) else none
  hmacSha256_length _ _ := rfl
  x25519Public_length _ := rfl
  p256Public_length _ := rfl
  encrypt_length := length_emptyTag
  decrypt_length _ _ _ ciphertext plaintext decrypted := by
    split_ifs at decrypted
    cases decrypted
    rw [length_take]
    omega

/-- The messages of a server with an X25519 key, one in each record. -/
def serverMessages : List (List UInt8) :=
  [buildHandshakeMessage handshakeServerHello (tlsVersion12 ++ replicate 32 7 ++ [0] ++ cipherSuite ++ [0]),
    buildHandshakeMessage handshakeCertificate [0, 0, 0],
    buildHandshakeMessage handshakeServerKeyExchange ([3, 0, 29, 32] ++ replicate 32 9),
    buildHandshakeMessage handshakeServerHelloDone []]

/-- The messages, a `ChangeCipherSpec` record, and a record that holds the type of a `Finished` message and no more. -/
def forgedStream : List UInt8 :=
  (serverMessages.map (recordBytes contentTypeHandshake)).flatten ++
    (recordBytes contentTypeChangeCipherSpec [1] ++
      recordBytes contentTypeHandshake (replicate 8 0 ++ (handshakeFinished :: replicate 16 0)))

theorem carriesAll_records (short : ∀ payload ∈ payloads, payload.length ≤ 18432)
    (rest : List UInt8) :
    CarriesAll ((payloads.map (recordBytes contentTypeHandshake)).flatten ++ rest) payloads rest := by
  induction payloads with
  | nil => rfl
  | cons payload payloads ih =>
    rw [forall_mem_cons] at short
    refine ⟨_, ?_, short.1, ih short.2⟩
    rw [map_cons, flatten_cons, append_assoc]
    exact carries_recordBytes (by omega) _

def noEntropy : Entropy := ⟨replicate 32 0, [], []⟩

def serverParams : Params := ⟨replicate 32 7, namedCurveX25519, replicate 32 9⟩

theorem forgedStream_received : ∃ keys,
    Received plainCrypto noEntropy forgedStream serverMessages serverParams keys [handshakeFinished] := by
  have shared : sharedSecret plainCrypto noEntropy serverParams = some (replicate 32 9) := rfl
  refine ⟨_, by decide +kernel, by rw [Params.keys, shared, Option.map_some], _, [1], _, replicate 8 0,
    handshakeFinished :: replicate 16 0, [],
    carriesAll_records (by decide) _, carries_recordBytes (by decide) _, by decide, rfl, ?_, rfl⟩
  have last : Carries _ ⟨contentTypeHandshake, replicate 8 0 ++ handshakeFinished :: replicate 16 0⟩ [] :=
    carries_recordBytes (by decide) []
  rwa [append_nil] at last

/-- The stream is one that the client accepts. -/
theorem handshake_accepts_plain : ∃ s c',
    handshake plainCrypto noEntropy [] (.new s noEntropy.clientRandom) = .ok () c' ∧
    c'.handshakeHash = transcript plainCrypto noEntropy [] serverMessages serverParams.curve c'.keys := by
  obtain ⟨keys, received⟩ := forgedStream_received
  obtain ⟨accepted, accepts⟩ := handshake_accepts plainCrypto noEntropy []
  obtain ⟨c', run⟩ := accepts (.steady _ forgedStream) _ _ _ _ received rfl (BlockingTcpSocket.steady_flows _ _)
  obtain ⟨_, _, _, _, received', -, same, hash⟩ := accepted _ c' run
  obtain ⟨rfl, rfl, rfl, -⟩ := received.unique received'
  exact ⟨_, c', run, same ▸ hash⟩

theorem forged_finished_accepted :
    (∃ polls c', handshake plainCrypto noEntropy [] (.new ⟨polls, forgedStream, []⟩ noEntropy.clientRandom) =
    .ok () c') ∧
      ¬Authenticates plainCrypto noEntropy [] forgedStream := by
  obtain ⟨keys, received⟩ := forgedStream_received
  obtain ⟨c', run⟩ := handshake_flows received rfl
    (BlockingTcpSocket.steady_flows _ forgedStream)
  refine ⟨⟨_, c', run⟩, fun authenticates => ?_⟩
  obtain ⟨_, _, keys, _, received', genuine⟩ := authenticates _ c' run
  obtain ⟨-, -, -, rfl⟩ := received.unique received'
  have longer := genuine.length_le
  rw [serverFinished, length_finishedMessage] at longer
  exact absurd longer (by decide)

end HavyOs.Tls
