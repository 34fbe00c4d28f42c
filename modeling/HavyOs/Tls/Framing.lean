import HavyOs.Tls.Finished

/-!
# Records and messages

A server may put several handshake messages into one record, or one message into several records.
The client takes exactly one record for each message it waits for. What it makes of a flight is a
function of the records, `readFlight`.
-/

namespace HavyOs.Tls

open Lib List BlockingTcpSocket

/-! ## Packings -/

/-- A way to put bytes of handshake messages into records. -/
structure Packing (bytes : List UInt8) where
  fragments : List (List UInt8)
  nonempty : ∀ fragment ∈ fragments, fragment ≠ []
  short : ∀ fragment ∈ fragments, fragment.length ≤ maxPlaintext
  whole : fragments.flatten = bytes

variable (crypto : Crypto)

/-- The records of the server once it encrypts, numbered from `seq`. -/
def sealedRecords (keys : Keys) : Nat → List (List UInt8) → List UInt8
  | _, [] => []
  | seq, fragment :: fragments =>
    recordBytes contentTypeHandshake
        (sealedPayload crypto keys.serverWriteKey keys.serverWriteIv (UInt64.ofNat seq) contentTypeHandshake
        fragment) ++
      sealedRecords keys (seq + 1) fragments

/-- What the client makes of the records of a flight. -/
inductive Reading where
  | accepted (params : Params)
  | refused
  | panics
deriving DecidableEq, Repr

def pubkeyLength (curve : Nat) : Nat := if curve = namedCurveX25519 then 32 else 65

/-- The client takes one record for each of the four messages. -/
def readFlight (fragments : List (List UInt8)) : Reading :=
  if CutFlight fragments then .panics
  else match flightParams fragments with
    | none => .refused
    | some params => if params.serverPubkey.length = pubkeyLength params.curve then .accepted params else .refused

/-- The client takes the flight: four records, in which it finds a `ServerHello`, a certificate, a key exchange with a
key as long as its curve demands, and the end of the flight. -/
def Taken (fragments : List (List UInt8)) (params : Params) : Prop :=
  ∃ hello certificate keyExchange done, fragments = [hello, certificate, keyExchange, done] ∧
    serverHelloRandom hello = some params.serverRandom ∧ certificate.getD 0 0 = handshakeCertificate ∧
    keyExchangeParams keyExchange = some (params.curve, params.serverPubkey) ∧
    done.getD 0 0 = handshakeServerHelloDone ∧ params.serverPubkey.length = pubkeyLength params.curve

variable (entropy : Entropy)

/-- The keys of the server: it agrees with a client that has read its flight. -/
def Reading.keys : Reading → Option Keys
  | .accepted params => params.keys crypto entropy
  | _ => none

/-- The bytes of a server: a flight, a `ChangeCipherSpec` record, and encrypted records. -/
def serverStream (flight finished : List (List UInt8)) : List UInt8 :=
  (flight.map (recordBytes contentTypeHandshake)).flatten ++
      (recordBytes contentTypeChangeCipherSpec [1] ++
      match (readFlight flight).keys crypto entropy with
      | some keys => sealedRecords crypto keys 0 finished
      | none => [])

/-! ## Results -/

inductive Outcome where
  | established (keys : Keys)
  | failed
  | panicked
deriving DecidableEq, Repr

def outcome (hostname : List UInt8) (s : BlockingTcpSocket) : Outcome :=
  match handshake crypto entropy hostname (.new s entropy.clientRandom) with
  | .ok _ c => .established c.keys
  | .error (.error _) _ => .failed
  | .error .panicked _ => .panicked

/-- What is encrypted can be decrypted. -/
def Crypto.Correct : Prop :=
  ∀ key nonce aad plaintext, crypto.decrypt key nonce aad (crypto.encrypt key nonce aad plaintext) = some plaintext

/-- Whatever the primitives, the client's random values and the name of the server, and however the bytes arrive on a
network that goes on, the handshake ends in the same way. -/
def SameResult (flight finished flight' finished' : List (List UInt8)) : Prop :=
  ∀ (crypto : Crypto) (entropy : Entropy) (hostname : List UInt8) (s s' : BlockingTcpSocket), crypto.Correct →
    s.incoming = serverStream crypto entropy flight finished →
    s'.incoming = serverStream crypto entropy flight' finished' →
    s.Flows (handshakeCost entropy hostname) → s'.Flows (handshakeCost entropy hostname) →
    outcome crypto entropy hostname s = outcome crypto entropy hostname s'

/-! ## What the client makes of a stream -/

/-- How the handshake ends for a reading of the flight. -/
def Reading.outcome : Reading → Outcome
  | .accepted params =>
    match params.keys crypto entropy with
    | some keys => .established keys
    | none => .failed
  | .refused => .failed
  | .panics => .panicked

section Stream

variable {fragments payloads : List (List UInt8)} {tail rest : List UInt8}

section

variable (short : ∀ fragment ∈ fragments, fragment.length ≤ maxPlaintext)
    (carried :
    CarriesAll
    ((fragments.map (recordBytes contentTypeHandshake)).flatten ++
      (recordBytes contentTypeChangeCipherSpec [1] ++ tail)) payloads rest)
include short carried

/-- Handshake records come from the flight, up to the `ChangeCipherSpec` record. -/
theorem CarriesAll.from_flight :
    ∃ later, fragments = payloads ++ later ∧ rest = (later.map (recordBytes contentTypeHandshake)).flatten ++
      (recordBytes contentTypeChangeCipherSpec [1] ++ tail) := by
  induction payloads generalizing fragments with
  | nil => exact ⟨fragments, rfl, carried.symm⟩
  | cons payload payloads ih =>
    obtain ⟨_, here, -, onward⟩ := carried
    cases fragments with
    | nil =>
      exact absurd (TlsRecord.mk.inj (here.of_recordBytes (by decide)).1).1 (by decide)
    | cons fragment fragments =>
      rw [forall_mem_cons] at short
      rw [map_cons, flatten_cons, append_assoc] at here
      obtain ⟨same, rfl⟩ := here.of_recordBytes (Nat.lt_of_le_of_lt short.1 (by decide))
      cases same
      obtain ⟨later, rfl, left⟩ := ih short.2 onward
      exact ⟨later, rfl, left⟩

/-- When a `ChangeCipherSpec` record is next, the whole flight has been read. -/
theorem CarriesAll.whole_flight {change after : List UInt8}
    (next : Carries rest ⟨contentTypeChangeCipherSpec, change⟩ after) : payloads = fragments := by
  obtain ⟨later, rfl, rfl⟩ := carried.from_flight short
  cases later with
  | nil => rw [append_nil]
  | cons fragment later =>
    rw [map_cons, flatten_cons, append_assoc] at next
    have fits : fragment.length < 65536 := Nat.lt_of_le_of_lt (short fragment (by simp)) (by decide)
    exact absurd (TlsRecord.mk.inj (next.of_recordBytes fits).1).1 (by decide)

end

theorem cutFlight_append {later : List (List UInt8)} (cut : CutFlight payloads) : CutFlight (payloads ++ later) := by
  match payloads, cut with
  | _ :: _ :: _ :: _, cut => exact cut

theorem cutFlight_take (cut : CutFlight fragments) : CutFlight (fragments.take 3) ∧ (fragments.take 3).length = 3 := by
  match fragments, cut with
  | hello :: certificate :: keyExchange :: later, cut => exact ⟨cut, rfl⟩

end Stream

section Outcomes

variable {crypto : Crypto} {entropy : Entropy} {hostname : List UInt8} {s : BlockingTcpSocket}
  {flight finished : List (List UInt8)} {params : Params} {keys : Keys}

theorem uncut_of_params (taken : flightParams flight = some params) : ¬CutFlight flight := by
  obtain ⟨_, _, _, _, rfl, -, -, agreed, -⟩ := flightParams_eq_some taken
  rintro ⟨-, -, cut⟩
  rw [keyExchangeParams, if_neg (by have := cut.2; omega)] at agreed
  cases agreed

theorem readFlight_of_params (taken : flightParams flight = some params)
    (derived : params.keys crypto entropy = some keys) : readFlight flight = .accepted params := by
  rw [readFlight, if_neg (uncut_of_params taken), taken]
  refine if_pos ?_
  rw [Params.keys, Option.map_eq_some_iff] at derived
  obtain ⟨_, shared, -⟩ := derived
  unfold sharedSecret at shared
  unfold pubkeyLength
  split at shared
  · rename_i x25519
    rw [if_pos x25519]
    split_ifs at shared
    assumption
  · rename_i other
    rw [if_neg other]
    split_ifs at shared with _ sized
    exact sized.1

theorem params_of_readFlight (read : readFlight flight = .accepted params) :
    flightParams flight = some params ∧ params.serverPubkey.length = pubkeyLength params.curve := by
  unfold readFlight at read
  split at read
  · cases read
  · split at read
    · cases read
    · rename_i params' taken
      split_ifs at read
      cases read
      exact ⟨taken, by assumption⟩

theorem cut_of_readFlight (read : readFlight flight = .panics) : CutFlight flight := by
  unfold readFlight at read
  split at read
  · assumption
  · split at read
    · cases read
    · split at read <;> cases read

theorem readFlight_accepted_iff : readFlight flight = .accepted params ↔ Taken flight params := by
  constructor
  · intro read
    obtain ⟨taken, sized⟩ := params_of_readFlight read
    obtain ⟨hello, certificate, keyExchange, done, same, greeted, certified, agreed, closed⟩ :=
      flightParams_eq_some taken
    exact ⟨hello, certificate, keyExchange, done, same, greeted, certified, agreed, closed, sized⟩
  · rintro ⟨hello, certificate, keyExchange, done, rfl, greeted, certified, agreed, closed, sized⟩
    have taken : flightParams [hello, certificate, keyExchange, done] = some params := by
      simp only [flightParams, greeted, agreed, certified, closed, and_self, if_true]
    rw [readFlight, if_neg (uncut_of_params taken), taken]
    exact if_pos sized

/-- Two flights are read alike if they panic alike and the same is taken from them. -/
theorem readFlight_eq_iff {flight' : List (List UInt8)} : readFlight flight = readFlight flight' ↔
    (CutFlight flight ↔ CutFlight flight') ∧ ∀ params, Taken flight params ↔ Taken flight' params := by
  have panics {flight : List (List UInt8)} : readFlight flight = .panics ↔ CutFlight flight :=
    ⟨cut_of_readFlight, fun cut => if_pos cut⟩
  simp only [← readFlight_accepted_iff, ← panics]
  constructor
  · intro same
    simp [same]
  · rintro ⟨cut, taken⟩
    cases read : readFlight flight with
    | accepted params => exact ((taken params).mp read).symm
    | panics => exact (cut.mp read).symm
    | refused =>
      cases read' : readFlight flight' with
      | accepted params => cases read.symm.trans ((taken params).mpr read')
      | panics => cases read.symm.trans (cut.mpr read')
      | refused => rfl

section

variable (short : ∀ fragment ∈ flight, fragment.length ≤ maxPlaintext)
    (stream : s.incoming = serverStream crypto entropy flight finished)
include short stream

/-- A handshake that returns has read the flight and has the server's keys. -/
theorem established_of_ok {c' : Tls12Connection}
    (run : handshake crypto entropy hostname (.new s entropy.clientRandom) = .ok () c') :
    (readFlight flight).keys crypto entropy = some c'.keys := by
  obtain ⟨_, _, keys, _, received, -, rfl, -⟩ :=
    wp_of_ok (handshake_spec crypto entropy hostname s) run
  obtain ⟨taken, derived, _, _, _, _, _, _, carried, changed, -⟩ := received
  rw [stream, serverStream] at carried
  obtain rfl := carried.whole_flight short changed
  rw [readFlight_of_params taken derived]
  exact derived

end

theorem records_short (short : ∀ fragment ∈ flight, fragment.length ≤ maxPlaintext) :
    ∀ fragment ∈ flight, fragment.length ≤ 18432 :=
  fun fragment member => Nat.le_trans (short fragment member) (by decide)

theorem serverStream_received {fragment : List UInt8} (later : List (List UInt8))
    (correct : crypto.Correct) (short : ∀ fragment ∈ flight, fragment.length ≤ maxPlaintext)
    (small : fragment.length ≤ maxPlaintext) (read : readFlight flight = .accepted params)
    (derived : params.keys crypto entropy = some keys) :
    Received crypto entropy (serverStream crypto entropy flight (fragment :: later)) flight params keys fragment := by
  have opens : (readFlight flight).keys crypto entropy = some keys := by rw [read]; exact derived
  have length := length_sealedPayload crypto keys.serverWriteKey keys.serverWriteIv 0 contentTypeHandshake fragment
  have fits : (sealedPayload crypto keys.serverWriteKey keys.serverWriteIv 0 contentTypeHandshake fragment).length <
      65536 := by
    rw [length]
    rw [maxPlaintext] at small
    omega
  rw [serverStream, opens]
  exact ⟨(params_of_readFlight read).1, derived, _, [1], _, toBe 8 0, _, sealedRecords crypto keys 1 later,
    carriesAll_records (records_short short) _, carries_recordBytes (by decide) _, by decide, toBe_length _ _,
    carries_recordBytes fits _, correct _ _ _ _⟩

theorem accepted_of_keys (read : (readFlight flight).keys crypto entropy = some keys) :
    ∃ params, readFlight flight = .accepted params ∧ params.keys crypto entropy = some keys := by
  cases reading : readFlight flight with
  | accepted params => exact ⟨params, rfl, by rw [reading] at read; exact read⟩
  | refused =>
    rw [reading] at read
    cases read
  | panics =>
    rw [reading] at read
    cases read

section Outcome

variable (short : ∀ fragment ∈ flight, fragment.length ≤ maxPlaintext)
  (stream : s.incoming = serverStream crypto entropy flight finished) (flows : s.Flows (handshakeCost entropy hostname))

include short stream flows

/-- A cut message stops the kernel. -/
theorem handshake_panics (cut : CutFlight flight) :
    ∃ c', handshake crypto entropy hostname (.new s entropy.clientRandom) = .error .panicked c' := by
  obtain ⟨cut, three⟩ := cutFlight_take cut
  obtain ⟨s₁, flows₁, same, greets⟩ := handshake_greets crypto flows
  have all := carriesAll_records (records_short short) (recordBytes contentTypeChangeCipherSpec [1] ++
    match (readFlight flight).keys crypto entropy with
    | some keys => sealedRecords crypto keys 0 finished
    | none => [])
  rw [← serverStream, ← stream, ← same, ← take_append_drop 3 flight] at all
  obtain ⟨_, carried, -⟩ := CarriesAll.split (flight.take 3) all
  obtain ⟨c', panics⟩ := recvServerFlight_panics (c := greeted crypto entropy hostname s₁) carried cut three flows₁
  exact ⟨c', by rw [greets, bind_error _ panics]⟩

theorem outcome_eq (correct : crypto.Correct) (small : ∀ fragment ∈ finished, fragment.length ≤ maxPlaintext)
    (typed : finished.head?.bind head? = some handshakeFinished) :
    outcome crypto entropy hostname s = (readFlight flight).outcome crypto entropy := by
  by_cases cut : CutFlight flight
  · obtain ⟨c', run⟩ := handshake_panics short stream flows cut
    rw [outcome, run, readFlight, if_pos cut]
    rfl
  · cases keys : (readFlight flight).keys crypto entropy with
    | some keys =>
      obtain ⟨params, accepted, derived⟩ := accepted_of_keys keys
      obtain ⟨c', run⟩ : ∃ c', handshake crypto entropy hostname (.new s entropy.clientRandom) = .ok () c' := by
        cases finished with
        | nil => cases typed
        | cons fragment later =>
          have received := serverStream_received later correct short (small fragment (by simp)) accepted derived
          rw [← stream] at received
          exact handshake_flows received typed flows
      have same := established_of_ok short stream run
      rw [keys, Option.some_inj] at same
      simp [outcome, run, accepted, Reading.outcome, derived, same]
    | none =>
      have failed : outcome crypto entropy hostname s = .failed := by
        rw [outcome]
        split
        · rename_i c' run
          exact nomatch keys.symm.trans (established_of_ok short stream run)
        · rfl
        · rename_i c' run
          obtain ⟨_, _, carried, -, found⟩ := wp_of_error (handshake_spec crypto entropy hostname s) run rfl
          rw [stream, serverStream] at carried
          obtain ⟨_, rfl, -⟩ := carried.from_flight short
          exact absurd (cutFlight_append found) cut
      rw [failed]
      cases read : readFlight flight with
      | accepted params =>
        rw [read, Reading.keys] at keys
        rw [Reading.outcome, keys]
      | refused => rfl
      | panics => exact absurd (cut_of_readFlight read) cut

end Outcome

end Outcomes

/-! ## Telling readings apart -/

/-- Primitives under which one secret and seed are unlike all others: HMAC is ones for them and zeros otherwise. -/
def markingCrypto (secret seed : List UInt8) : Crypto :=
  { plainCrypto with
    hmacSha256 key message :=
      if key = secret ∧ seed.isSuffixOf message then replicate 32 1 else replicate 32 0
    x25519 _ pubkey := 1 :: pubkey
    p256 _ pubkey := 2 :: pubkey
    hmacSha256_length key message := by split <;> rfl }

theorem plainCrypto_correct : plainCrypto.Correct := by
  intro key nonce aad plaintext
  simp [plainCrypto]

/-- What the client reads from a flight it accepts. -/
structure Params.Sound (params : Params) : Prop where
  known : params.curve = namedCurveX25519 ∨ params.curve = namedCurveSecp256r1
  sized : params.serverPubkey.length = pubkeyLength params.curve
  random : params.serverRandom.length = 32

theorem length_serverHelloRandom {data random : List UInt8} (taken : serverHelloRandom data = some random) :
    random.length = 32 := by
  unfold serverHelloRandom at taken
  dsimp only at taken
  split_ifs at taken with accepted
  cases taken
  rw [length_take, length_drop]
  omega

theorem sound_of_readFlight {flight : List (List UInt8)} {params : Params}
    (read : readFlight flight = .accepted params) :
    params.Sound := by
  obtain ⟨taken, sized⟩ := params_of_readFlight read
  obtain ⟨_, _, _, _, _, greeted, _, agreed, _⟩ := flightParams_eq_some taken
  exact ⟨known_of_keyExchangeParams agreed, sized, length_serverHelloRandom greeted⟩

/-- The shared secret of `markingCrypto`. -/
def marked (params : Params) : List UInt8 := (if params.curve = namedCurveX25519 then 1 else 2) :: params.serverPubkey

theorem marked_inj {params params' : Params} (sound : params.Sound) (sound' : params'.Sound)
    (same : marked params = marked params') :
    params.curve = params'.curve ∧ params.serverPubkey = params'.serverPubkey := by
  obtain ⟨tag, pubkey⟩ := cons.inj same
  refine ⟨?_, pubkey⟩
  rcases sound.known with x | p <;> rcases sound'.known with x' | p'
  · rw [x, x']
  · rw [x, p'] at tag
    cases tag
  · rw [p, x'] at tag
    cases tag
  · rw [p, p']

section Marking

variable {params params' : Params} {secret seed : List UInt8}

/-- The entropy does not matter here. -/
def blank : Entropy := ⟨[], [], []⟩

theorem sharedSecret_marking (sound : params.Sound) :
    sharedSecret (markingCrypto secret seed) blank params = some (marked params) := by
  obtain ⟨known, sized, -⟩ := sound
  unfold sharedSecret marked
  unfold pubkeyLength at sized
  rcases known with x | p
  · rw [if_pos x] at sized ⊢
    rw [if_pos sized, if_pos x]
    rfl
  · have other : params.curve ≠ namedCurveX25519 := by rw [p]; decide
    rw [if_neg other] at sized ⊢
    rw [if_pos p, if_pos ⟨sized, rfl⟩, if_neg other]
    rfl

theorem keys_marking (sound : params.Sound) : params.keys (markingCrypto secret seed) blank =
    some (deriveKeys (markingCrypto secret seed) (marked params) [] params.serverRandom) := by
  rw [Params.keys, sharedSecret_marking sound]
  rfl

theorem head_prfSha256 (secret label seed : List UInt8) (n : Nat) :
    (prfSha256 crypto secret label seed (n + 1)).head? =
      (crypto.hmacSha256 secret (crypto.hmacSha256 secret (label ++ seed) ++ (label ++ seed))).head? := by
  have length := crypto.hmacSha256_length secret (crypto.hmacSha256 secret (label ++ seed) ++ (label ++ seed))
  rw [prfSha256, pHashLoop, if_neg (Nat.succ_ne_zero n)]
  cases output : crypto.hmacSha256 secret (crypto.hmacSha256 secret (label ++ seed) ++ (label ++ seed)) with
  | nil =>
    rw [output] at length
    cases length
  | cons first later =>
    dsimp only
    rw [show min (n + 1) (first :: later).length = min n later.length + 1 by rw [length_cons]; omega]
    rfl

theorem head_hmac_marking (key message : List UInt8) :
    ((markingCrypto secret seed).hmacSha256 key message).head? =
      if key = secret ∧ seed.isSuffixOf message then some 1 else some 0 := by
  simp only [markingCrypto]
  split <;> rfl

/-- Equal keys come from equal parameters. -/
theorem params_of_marking (sound : params.Sound) (sound' : params'.Sound)
    (same : params.keys (markingCrypto (marked params) (ascii "master secret" ++ params.serverRandom)) blank =
      params'.keys (markingCrypto (marked params) (ascii "master secret" ++ params.serverRandom)) blank) :
    params = params' := by
  rw [keys_marking sound, keys_marking sound', Option.some_inj] at same
  have heads := congrArg (fun keys => keys.masterSecret.head?) same
  simp only [deriveKeys, head_prfSha256, head_hmac_marking, nil_append] at heads
  rw [if_pos ⟨trivial, isSuffixOf_iff_suffix.mpr (suffix_append _ _)⟩] at heads
  by_cases both : marked params' = marked params ∧ (ascii "master secret" ++ params.serverRandom).isSuffixOf
      ((markingCrypto (marked params) (ascii "master secret" ++ params.serverRandom)).hmacSha256 (marked params')
        (ascii "master secret" ++ params'.serverRandom) ++ (ascii "master secret" ++ params'.serverRandom))
  · obtain ⟨_, _⟩ := marked_inj sound' sound both.1
    have length : (ascii "master secret" ++ params.serverRandom).length =
        (ascii "master secret" ++ params'.serverRandom).length := by
      rw [length_append, length_append, sound.random, sound'.random]
    have within := suffix_of_suffix_length_le (isSuffixOf_iff_suffix.mp both.2) (suffix_append _ _)
      (Nat.le_of_eq length)
    have equal := within.eq_of_length length
    have random := append_cancel_left equal
    cases params
    cases params'
    simp_all
  · rw [if_neg both] at heads
    cases heads

end Marking

section Apart

variable {flight flight' : List (List UInt8)}

/-- A flight that is accepted is told apart from all that are read in another way. -/
theorem accepted_of_outcomes {params : Params} (read : readFlight flight = .accepted params)
    (same : ∀ crypto entropy, Crypto.Correct crypto →
      (readFlight flight).outcome crypto entropy = (readFlight flight').outcome crypto entropy) :
    readFlight flight' = .accepted params := by
  have sound := sound_of_readFlight read
  have here :=
    same (markingCrypto (marked params) (ascii "master secret" ++ params.serverRandom)) blank plainCrypto_correct
  rw [read, Reading.outcome, keys_marking sound] at here
  cases read' : readFlight flight' with
  | accepted params' =>
    have sound' := sound_of_readFlight read'
    rw [read', Reading.outcome, keys_marking sound'] at here
    rw [params_of_marking sound sound' (by rw [keys_marking sound, keys_marking sound', Outcome.established.inj here])]
  | refused | panics =>
    rw [read'] at here
    cases here

theorem reading_eq (same : ∀ crypto entropy, Crypto.Correct crypto →
    (readFlight flight).outcome crypto entropy = (readFlight flight').outcome crypto entropy) :
    readFlight flight = readFlight flight' := by
  have plain := same plainCrypto blank plainCrypto_correct
  cases read : readFlight flight with
  | accepted params => rw [accepted_of_outcomes read same]
  | refused | panics =>
    cases read' : readFlight flight' with
    | accepted params =>
      cases read.symm.trans
        (accepted_of_outcomes read' fun crypto entropy correct => (same crypto entropy correct).symm)
    | refused | panics =>
      first
      | rfl
      | rw [read, read'] at plain
        cases plain

end Apart

/-! ## Independence of the packing -/

theorem Packing.head_finished {verify : List UInt8}
    (packing : Packing (buildHandshakeMessage handshakeFinished verify)) :
    packing.fragments.head?.bind head? = some handshakeFinished := by
  obtain ⟨fragments, nonempty, -, whole⟩ := packing
  match fragments, nonempty, whole with
  | [] :: _, nonempty, _ => exact absurd rfl (nonempty [] (by simp))
  | (first :: later) :: fragments, _, whole => exact congrArg some (cons.inj whole).1

section

variable {bytes verify : List UInt8} (flight flight' : Packing bytes)
    (finished finished' : Packing (buildHandshakeMessage handshakeFinished verify))

theorem sameResult_of_reading (same : readFlight flight.fragments = readFlight flight'.fragments) :
    SameResult flight.fragments finished.fragments flight'.fragments finished'.fragments := by
  intro crypto entropy hostname s s' correct stream stream' flows flows'
  rw [outcome_eq flight.short stream flows correct finished.short finished.head_finished,
    outcome_eq flight'.short stream' flows' correct finished'.short finished'.head_finished, same]

/-- Two ways of packing a flight and a `Finished` message have the same result exactly if the client, which takes one
record for each message, panics at both flights or at none, and takes the same from both. -/
theorem framing_independent :
    SameResult flight.fragments finished.fragments flight'.fragments finished'.fragments ↔
      (CutFlight flight.fragments ↔ CutFlight flight'.fragments) ∧
        ∀ params, Taken flight.fragments params ↔ Taken flight'.fragments params := by
  rw [← readFlight_eq_iff]
  constructor
  · intro same
    refine reading_eq fun crypto entropy correct => ?_
    have results := same crypto entropy [] (.steady _ _) (.steady _ _) correct rfl rfl
      (steady_flows _ _) (steady_flows _ _)
    rwa [outcome_eq flight.short rfl (steady_flows _ _) correct finished.short finished.head_finished,
      outcome_eq flight'.short rfl (steady_flows _ _) correct finished'.short
        finished'.head_finished] at results
  · exact sameResult_of_reading flight flight' finished finished'

end

/-- With one message to a record, the packing of the `Finished` message does not matter. -/
theorem one_message_to_a_record {messages : List (List UInt8)} {verify : List UInt8} (flight : Packing messages.flatten)
    (separate : flight.fragments = messages)
    (finished finished' : Packing (buildHandshakeMessage handshakeFinished verify)) :
    SameResult messages finished.fragments messages finished'.fragments :=
  separate ▸ sameResult_of_reading flight flight finished finished' rfl

/-- Each message in a record of its own. -/
def separate : Packing serverMessages.flatten := ⟨serverMessages, by decide, by decide, rfl⟩

def together : Packing serverMessages.flatten := ⟨[serverMessages.flatten], by decide, by decide, by simp⟩

def wholeFinished : Packing (buildHandshakeMessage handshakeFinished (replicate 12 0)) :=
  ⟨[buildHandshakeMessage handshakeFinished (replicate 12 0)], by decide, by decide, by simp⟩

/-- A network that goes on, and a server that packs its messages in one of the two ways. -/
def packedServer (flight : Packing serverMessages.flatten) : BlockingTcpSocket :=
  .steady (handshakeCost noEntropy [])
    (serverStream plainCrypto noEntropy flight.fragments wholeFinished.fragments)

theorem outcome_packedServer (flight : Packing serverMessages.flatten) :
    outcome plainCrypto noEntropy [] (packedServer flight) = (readFlight flight.fragments).outcome plainCrypto
    noEntropy :=
  outcome_eq flight.short rfl (steady_flows _ _) plainCrypto_correct wholeFinished.short
    wholeFinished.head_finished

theorem together_refused :
    (∃ keys, outcome plainCrypto noEntropy [] (packedServer separate) = .established keys) ∧
      outcome plainCrypto noEntropy [] (packedServer together) = .failed ∧
      ¬SameResult separate.fragments wholeFinished.fragments together.fragments wholeFinished.fragments := by
  have accepted : readFlight separate.fragments = .accepted serverParams := by decide +kernel
  have refused : readFlight together.fragments = .refused := by decide +kernel
  have shared : sharedSecret plainCrypto noEntropy serverParams = some (replicate 32 9) := rfl
  have established : ∃ keys, outcome plainCrypto noEntropy [] (packedServer separate) = .established keys :=
    ⟨_, by rw [outcome_packedServer, accepted, Reading.outcome, Params.keys, shared, Option.map_some]⟩
  have failed : outcome plainCrypto noEntropy [] (packedServer together) = .failed := by
    rw [outcome_packedServer, refused, Reading.outcome]
  refine ⟨established, failed, fun same => ?_⟩
  obtain ⟨keys, established⟩ := established
  have results :=
    same plainCrypto noEntropy [] (packedServer separate) (packedServer together) plainCrypto_correct rfl rfl
    (steady_flows _ _) (steady_flows _ _)
  rw [established, failed] at results
  cases results

end HavyOs.Tls
