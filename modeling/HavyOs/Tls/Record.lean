import HavyOs.Tls.Socket

/-!
# The record layer

`Tls12Connection` of `tls12.rs` and the functions that send and receive records. The
cryptographic primitives are parameters with the lengths of their documentation: a ciphertext
is its plaintext and a tag of 16 bytes. What decrypts to what is said where it is needed. A
call ends in a value, an error or a panic, and keeps what it has done to the connection in
each case.
-/

namespace HavyOs.Tls

open Lib List BlockingTcpSocket

/-! ## Constants -/

def tlsVersion12 : List UInt8 := [0x03, 0x03]

def contentTypeChangeCipherSpec : UInt8 := 20
def contentTypeAlert : UInt8 := 21
def contentTypeHandshake : UInt8 := 22
def contentTypeApplicationData : UInt8 := 23

def gcmTagSize : Nat := 16
def gcmExplicitNonceSize : Nat := 8

/-- The longest plaintext that `encrypt_in_place` takes. -/
def gcmMaxPlaintext : Nat := 2 ^ 36

/-- The longest plaintext that a record may carry. -/
def maxPlaintext : Nat := 2 ^ 14

/-! ## Primitives -/

/-- The crates `sha2`, `hmac`, `x25519_dalek`, `p256` and `aes_gcm`. -/
structure Crypto where
  sha256 : List UInt8 → List UInt8
  /-- Key and message. -/
  hmacSha256 : List UInt8 → List UInt8 → List UInt8
  x25519Public : List UInt8 → List UInt8
  /-- `diffie_hellman` of a secret and a public key. -/
  x25519 : List UInt8 → List UInt8 → List UInt8
  p256Public : List UInt8 → List UInt8
  /-- The bytes encode a point of the curve. -/
  p256Point : List UInt8 → Bool
  p256 : List UInt8 → List UInt8 → List UInt8
  /-- `encrypt_in_place`: key, nonce, additional data and plaintext. -/
  encrypt : List UInt8 → List UInt8 → List UInt8 → List UInt8 → List UInt8
  decrypt : List UInt8 → List UInt8 → List UInt8 → List UInt8 → Option (List UInt8)
  hmacSha256_length : ∀ key message, (hmacSha256 key message).length = 32
  x25519Public_length : ∀ secret, (x25519Public secret).length = 32
  p256Public_length : ∀ secret, (p256Public secret).length = 65
  encrypt_length : ∀ key nonce aad plaintext, (encrypt key nonce aad plaintext).length = plaintext.length + gcmTagSize
  decrypt_length : ∀ key nonce aad ciphertext plaintext, decrypt key nonce aad ciphertext = some plaintext →
    ciphertext.length = plaintext.length + gcmTagSize

theorem length_emptyTag (_key _nonce _aad plaintext : List UInt8) :
    (plaintext ++ replicate gcmTagSize 0).length = plaintext.length + gcmTagSize := by
  rw [length_append, length_replicate]

/-! ## Connections -/

/-- `Tls12Connection`. The context of the handshake hash is what was fed to it. -/
structure Tls12Connection where
  socket : BlockingTcpSocket
  curve : Nat
  x25519Secret : Option (List UInt8)
  p256Secret : Option (List UInt8)
  clientPubkeyX25519 : List UInt8
  clientPubkeyP256 : List UInt8
  serverPubkey : Option (List UInt8)
  serverRandom : List UInt8
  clientRandom : List UInt8
  masterSecret : List UInt8
  clientWriteKey : List UInt8
  serverWriteKey : List UInt8
  clientWriteIv : List UInt8
  serverWriteIv : List UInt8
  clientSeq : UInt64
  serverSeq : UInt64
  handshakeHash : List UInt8
  encrypted : Bool
deriving DecidableEq, Repr

/-- `Tls12Connection::new`; what the generator filled `client_random` with is an argument. -/
def Tls12Connection.new (socket : BlockingTcpSocket) (clientRandom : List UInt8) : Tls12Connection where
  socket := socket
  curve := 0
  x25519Secret := none
  p256Secret := none
  clientPubkeyX25519 := []
  clientPubkeyP256 := []
  serverPubkey := none
  serverRandom := replicate 32 0
  clientRandom := clientRandom
  masterSecret := replicate 48 0
  clientWriteKey := replicate 16 0
  serverWriteKey := replicate 16 0
  clientWriteIv := replicate 4 0
  serverWriteIv := replicate 4 0
  clientSeq := 0
  serverSeq := 0
  handshakeHash := []
  encrypted := false

/-- The connection over another state of the socket. -/
def Tls12Connection.withSocket (c : Tls12Connection) (s : BlockingTcpSocket) : Tls12Connection := { c with socket := s }

variable (c : Tls12Connection)

@[simp] theorem Tls12Connection.withSocket_socket (s : BlockingTcpSocket) : (c.withSocket s).socket = s := rfl

@[simp] theorem Tls12Connection.withSocket_serverSeq (s : BlockingTcpSocket) :
    (c.withSocket s).serverSeq = c.serverSeq := rfl

inductive Stop where
  | error (e : TlsError)
  | panicked
deriving DecidableEq, Repr

abbrev TlsM := EStateM Stop Tls12Connection

structure TlsRecord where
  contentType : UInt8
  data : List UInt8
deriving DecidableEq, Repr

def fail {α : Type} (e : TlsError) : TlsM α := throw (.error e)

/-- `if p { return Err(e) }`. -/
def failIf (p : Prop) [Decidable p] (e : TlsError) : TlsM Unit := if p then fail e else pure ()

/-- A call on the socket, with `map_err`. -/
def onSocket {α : Type} (mapErr : TlsError → TlsError) (call : SocketM α) : TlsM α := fun c =>
  match call c.socket with
  | .ok a s => .ok a (c.withSocket s)
  | .error e s => .error (.error (mapErr e)) (c.withSocket s)

def readExact (n : Nat) : TlsM (List UInt8) := onSocket id (BlockingTcpSocket.readExact n)

/-! ## Sending -/

def recordBytes (contentType : UInt8) (payload : List UInt8) : List UInt8 :=
  contentType :: tlsVersion12 ++ toBe 2 payload.length ++ payload

/-- `send_record`. How many bytes the socket took is not looked at. -/
def sendRecord (contentType : UInt8) (data : List UInt8) : TlsM Unit := do
  let _ ← onSocket (fun _ => .io) (BlockingTcpSocket.write (recordBytes contentType data))

/-- The additional data of a record: sequence number, type, version and length. -/
def additionalData (seq : UInt64) (contentType : UInt8) (length : Nat) : List UInt8 :=
  toBe 8 seq.toNat ++ contentType :: tlsVersion12 ++ toBe 2 length

variable (crypto : Crypto)

/-- The payload of an encrypted record: the explicit nonce, which is the sequence number, and the ciphertext. -/
def sealedPayload (key iv : List UInt8) (seq : UInt64) (contentType : UInt8)
    (plaintext : List UInt8) : List UInt8 :=
  toBe 8 seq.toNat ++
    crypto.encrypt key (iv ++ toBe 8 seq.toNat) (additionalData seq contentType plaintext.length) plaintext

def sendEncryptedRecord (contentType : UInt8) (plaintext : List UInt8) : TlsM Unit := do
  let c ← get
  failIf (plaintext.length > gcmMaxPlaintext) .tlsProtocolError
  let record :=
    recordBytes contentType (sealedPayload crypto c.clientWriteKey c.clientWriteIv c.clientSeq contentType plaintext)
  set { c with clientSeq := c.clientSeq + 1 }
  let _ ← onSocket (fun _ => .io) (BlockingTcpSocket.write record)

/-! ## Receiving -/

def recvRecord : TlsM TlsRecord := do
  let header ← readExact 5
  let contentType := header.getD 0 0
  let length := fromBe (header.drop 3)
  failIf (length > 16384 + 2048) .invalidData
  let data ← readExact length
  failIf (contentType = contentTypeAlert ∧ data.length ≥ 2) .tlsProtocolError
  pure ⟨contentType, data⟩

def recvEncryptedRecord : TlsM TlsRecord := do
  let header ← readExact 5
  let contentType := header.getD 0 0
  let length := fromBe (header.drop 3)
  failIf (length < gcmExplicitNonceSize + gcmTagSize) .invalidData
  let data ← readExact length
  let c ← get
  let ciphertext := data.drop gcmExplicitNonceSize
  let plaintextLen := ciphertext.length - gcmTagSize
  match crypto.decrypt c.serverWriteKey (c.serverWriteIv ++ data.take gcmExplicitNonceSize)
      (additionalData c.serverSeq contentType plaintextLen) ciphertext with
  | none => fail .tlsProtocolError
  | some plaintext =>
    set { c with serverSeq := c.serverSeq + 1 }
    pure ⟨contentType, plaintext.take plaintextLen⟩

/-! ## Application data -/

def write (data : List UInt8) : TlsM Nat := do
  sendEncryptedRecord crypto contentTypeApplicationData data
  pure data.length

/-- `read` into a buffer of `n` bytes: the bytes that were put there. -/
def read (n : Nat) : TlsM (List UInt8) := do
  let record ← recvEncryptedRecord crypto
  failIf (record.contentType = contentTypeAlert) .connectionClosed
  failIf (record.contentType ≠ contentTypeApplicationData) .tlsProtocolError
  pure (record.data.take (min record.data.length n))

/-! ## What receiving takes from the stream -/

/-- The stream begins with a record; its version is not looked at. -/
def Carries (stream : List UInt8) (record : TlsRecord) (rest : List UInt8) : Prop :=
  ∃ version, version.length = 2 ∧ record.data.length < 65536 ∧
    stream = record.contentType :: version ++ toBe 2 record.data.length ++ record.data ++ rest

variable {stream rest : List UInt8} {record : TlsRecord} {a b : Nat} {s s' : BlockingTcpSocket}

theorem Carries.unique {rest' : List UInt8} {record' : TlsRecord} (carried : Carries stream record rest)
    (carried' : Carries stream record' rest') : record = record' ∧ rest = rest' := by
  obtain ⟨_, _, short, rfl⟩ := carried
  obtain ⟨_, _, short', same⟩ := carried'
  obtain ⟨_, data⟩ := record
  obtain ⟨_, data'⟩ := record'
  simp only [cons_append, append_assoc, cons.injEq] at same short
  obtain ⟨rfl, same⟩ := same
  obtain ⟨-, same⟩ := append_inj same (by omega)
  obtain ⟨lengths, same⟩ := append_inj same (by simp)
  have length : data.length = data'.length := toBe_inj short short' lengths
  obtain ⟨rfl, rfl⟩ := append_inj same length
  exact ⟨rfl, rfl⟩

theorem carries_recordBytes {contentType : UInt8} {payload : List UInt8} (short : payload.length < 65536)
    (rest : List UInt8) : Carries (recordBytes contentType payload ++ rest) ⟨contentType, payload⟩ rest :=
  ⟨tlsVersion12, rfl, short, rfl⟩

theorem Carries.of_recordBytes {contentType : UInt8} {payload rest' : List UInt8}
    (carried : Carries (recordBytes contentType payload ++ rest) record rest') (short : payload.length < 65536) :
    record = ⟨contentType, payload⟩ ∧ rest' = rest := carried.unique (carries_recordBytes short rest)

section Socket

variable {α : Type} {Q : α → Tls12Connection → Prop} {E : Stop → Tls12Connection → Prop} {c : Tls12Connection}

@[simp] theorem wp_onSocket (mapErr : TlsError → TlsError) (call : SocketM α) :
    wp (onSocket mapErr call) Q E c ↔
      wp call (fun a s => Q a (c.withSocket s)) (fun e s => E (.error (mapErr e)) (c.withSocket s)) c.socket := by
  simp only [wp, onSocket]
  cases call c.socket <;> rfl

@[simp] theorem wp_failIf {p : Prop} [Decidable p] {R : Unit → Tls12Connection → Prop} (e : TlsError) :
    wp (failIf p e) R E c ↔ (p → E (.error e) c) ∧ (¬p → R () c) := by
  rw [failIf, apply_ite (wp · R E c), ite_prop_iff_and]
  rfl

end Socket

theorem fromBe_pair_lt (b₀ b₁ : UInt8) : fromBe [b₀, b₁] < 65536 := by
  have high := b₀.toNat_lt
  have low := b₁.toNat_lt
  simp only [fromBe, foldl_cons, foldl_nil]
  omega

theorem carries_of_reads {header data mid : List UInt8} (five : header.length = 5)
    (first : stream = header ++ mid) (announced : data.length = fromBe (header.drop 3)) (second : mid = data ++ rest) :
    Carries stream ⟨header.getD 0 0, data⟩ rest := by
  match header, five with
  | [contentType, high, low, b₀, b₁], _ =>
    refine ⟨[high, low], rfl, announced ▸ fromBe_pair_lt b₀ b₁, ?_⟩
    have length : toBe 2 data.length = [b₀, b₁] := by
      rw [announced]
      exact toBe_fromBe [b₀, b₁]
    rw [first, second, length]
    rfl

theorem recvRecord_spec :
    wp recvRecord (fun record c' => ∃ s, c' = c.withSocket s ∧ Carries c.socket.incoming record s.incoming ∧
        record.data.length ≤ 18432)
      (fun stop c' => stop ≠ .panicked ∧ ∃ s, c' = c.withSocket s) c := by
  simp only [recvRecord, readExact, wp_bind, wp_onSocket, wp_failIf, wp_pure]
  refine wp_mono (readExact_spec 5 c.socket) ?_ ?_
  · rintro _ s ⟨five, first, -⟩
    refine ⟨fun _ => ⟨by simp, s, rfl⟩, fun short => ?_⟩
    refine wp_mono (readExact_spec _ s) ?_ ?_
    · rintro data s' ⟨announced, second, -⟩
      exact ⟨fun _ => ⟨by simp, s', rfl⟩,
        fun _ => ⟨s', rfl, carries_of_reads five first announced second, by omega⟩⟩
    · rintro e s' -
      exact ⟨by simp, s', rfl⟩
  · rintro e s -
    exact ⟨by simp, s, rfl⟩

/-- What an accepted encrypted record is: it is carried by the stream and decrypts under the server's key, with the
sequence number, the type and the length in the additional data. -/
structure Opened (crypto : Crypto) (c : Tls12Connection) (record : TlsRecord) (nonce ciphertext rest : List UInt8) :
    Prop where
  nonce_length : nonce.length = gcmExplicitNonceSize
  carried : Carries c.socket.incoming ⟨record.contentType, nonce ++ ciphertext⟩ rest
  decrypted : crypto.decrypt c.serverWriteKey (c.serverWriteIv ++ nonce)
    (additionalData c.serverSeq record.contentType record.data.length) ciphertext = some record.data

/-- The connection after an accepted encrypted record. -/
def Tls12Connection.accepted (c : Tls12Connection) (s : BlockingTcpSocket) : Tls12Connection :=
  { c with socket := s, serverSeq := c.serverSeq + 1 }

theorem recvEncryptedRecord_spec (c : Tls12Connection) :
    wp (recvEncryptedRecord crypto) (fun record c' => ∃ s nonce ciphertext, c' = c.accepted s ∧
        Opened crypto c record nonce ciphertext s.incoming)
      (fun stop c' => stop ≠ .panicked ∧ ∃ s, c' = c.withSocket s) c := by
  simp only [recvEncryptedRecord, readExact, wp_bind, wp_onSocket, wp_failIf, wp_get]
  refine wp_mono (readExact_spec 5 c.socket) ?_ ?_
  · rintro _ s ⟨five, first, -⟩
    refine ⟨fun _ => ⟨by simp, s, rfl⟩, fun long => ?_⟩
    refine wp_mono (readExact_spec _ s) ?_ ?_
    · rintro data s' ⟨announced, second, -⟩
      have carried := carries_of_reads five first announced second
      split
      · exact ⟨by simp, s', rfl⟩
      · rename_i plaintext decrypted
        have length := crypto.decrypt_length _ _ _ _ _ decrypted
        have whole : plaintext.take ((data.drop gcmExplicitNonceSize).length - gcmTagSize) = plaintext := by
          rw [length, Nat.add_sub_cancel, take_length]
        rw [whole]
        refine ⟨s', data.take gcmExplicitNonceSize, data.drop gcmExplicitNonceSize, rfl, ?_, ?_, ?_⟩
        · rw [length_take]
          omega
        · rwa [take_append_drop]
        · rwa [length] at decrypted
    · rintro e s' -
      exact ⟨by simp, s', rfl⟩
  · rintro e s -
    exact ⟨by simp, s, rfl⟩

/-! ## Receiving from a network that keeps up -/

theorem failIf_false {p : Prop} [Decidable p] (e : TlsError) (fails : ¬p) : failIf p e = pure () := if_neg fails

theorem Carries.header (carried : Carries stream record rest) :
    ∃ header, header.length = 5 ∧ stream = header ++ (record.data ++ rest) ∧ header.getD 0 0 = record.contentType ∧
      fromBe (header.drop 3) = record.data.length := by
  obtain ⟨version, two, short, rfl⟩ := carried
  refine ⟨record.contentType :: version ++ toBe 2 record.data.length, ?_, ?_, rfl, ?_⟩
  · simp [two]
  · simp
  · have behind : (record.contentType :: version ++ toBe 2 record.data.length).drop 3 = toBe 2 record.data.length := by
      rw [cons_append, drop_succ_cons, drop_append_of_le_length (by omega), drop_of_length_le (by omega),
        nil_append]
    rw [behind]
    exact fromBe_toBe_of_lt short

section Reads

variable {c c₁ : Tls12Connection} {s : BlockingTcpSocket} {header : List UInt8} {record : TlsRecord}

theorem recvEncryptedRecord_of_reads {crypto : Crypto} {nonce ciphertext rest : List UInt8}
    (opened : Opened crypto c record nonce ciphertext rest) (first : readExact 5 c = .ok header c₁)
    (type : header.getD 0 0 = record.contentType) (length : fromBe (header.drop 3) = (nonce ++ ciphertext).length)
    (second : readExact (nonce ++ ciphertext).length c₁ = .ok (nonce ++ ciphertext) (c.withSocket s)) :
    recvEncryptedRecord crypto c = .ok record (c.accepted s) := by
  obtain ⟨nonce_length, -, decrypted⟩ := opened
  have tagged := crypto.decrypt_length _ _ _ _ _ decrypted
  have total : (nonce ++ ciphertext).length = gcmExplicitNonceSize + (record.data.length + gcmTagSize) := by
    rw [length_append, nonce_length, tagged]
  rw [recvEncryptedRecord, bind_ok _ first, type, length, failIf_false _ (by rw [total]; omega), pure_bind,
    bind_ok _ second, bind_ok _ (rfl : (get : TlsM _) _ = .ok _ _), ← nonce_length, take_left, drop_left, tagged,
    Nat.add_sub_cancel]
  have opened : crypto.decrypt (c.withSocket s).serverWriteKey ((c.withSocket s).serverWriteIv ++ nonce)
      (additionalData (c.withSocket s).serverSeq record.contentType record.data.length) ciphertext =
      some record.data := decrypted
  simp only [opened, take_length]
  rfl

end Reads

section Prompt

variable {c : Tls12Connection} {k : Nat} {polls : List Poll} {stream rest outgoing : List UInt8}

theorem readExact_prompt {bytes : List UInt8} (enough : bytes.length ≤ k) (some : 0 < bytes.length)
    (socket : c.socket = ⟨.prompt k :: polls, bytes ++ rest, outgoing⟩) :
    readExact bytes.length c = .ok bytes (c.withSocket ⟨polls, rest, outgoing⟩) := by
  have read := BlockingTcpSocket.readExact_prompt enough some
    (by rw [length_append]; omega : bytes.length ≤ (bytes ++ rest).length) polls outgoing
  rw [take_left, drop_left] at read
  simp only [readExact, onSocket, socket, read]

end Prompt

/-! ## Sending and receiving on a network that goes on -/

section Flows

variable {c : Tls12Connection} {n : Nat} {rest : List UInt8} {record : TlsRecord}

theorem Carries.length {stream : List UInt8} (carried : Carries stream record rest) :
    stream.length = 5 + record.data.length + rest.length := by
  obtain ⟨header, _, rfl, -⟩ := carried.header
  rw [length_append, length_append]
  omega

theorem readExact_steady {polls : List Poll} {bytes outgoing : List UInt8} (steady : Steady (n + bytes.length) polls)
    (socket : c.socket = ⟨polls, bytes ++ rest, outgoing⟩) :
    ∃ polls', Steady n polls' ∧ readExact bytes.length c = .ok bytes (c.withSocket ⟨polls', rest, outgoing⟩) := by
  obtain ⟨polls', steady', read⟩ := BlockingTcpSocket.readExact_steady steady rest outgoing
  exact ⟨polls', steady', by simp only [readExact, onSocket, socket, read]⟩

section

variable (carried : Carries c.socket.incoming record rest) (flows : c.socket.Flows n)
include carried flows

theorem Carries.reads :
    ∃ header s s', s'.Flows n ∧ s'.incoming = rest ∧ readExact 5 c = .ok header (c.withSocket s) ∧
      header.getD 0 0 = record.contentType ∧ fromBe (header.drop 3) = record.data.length ∧
      readExact record.data.length (c.withSocket s) = .ok record.data (c.withSocket s') := by
  have total := carried.length
  obtain ⟨header, five, split, type, length⟩ := carried.header
  have steady : Steady (n + rest.length + record.data.length + header.length) c.socket.polls :=
    Steady.mono flows (by omega)
  have socket : c.socket = ⟨c.socket.polls, header ++ (record.data ++ rest), c.socket.outgoing⟩ := by rw [← split]
  obtain ⟨polls₁, steady₁, first⟩ := readExact_steady steady socket
  obtain ⟨polls', steady', second⟩ := readExact_steady steady₁
    (Tls12Connection.withSocket_socket c ⟨polls₁, record.data ++ rest, c.socket.outgoing⟩)
  rw [five] at first
  exact ⟨header, _, ⟨polls', rest, c.socket.outgoing⟩, steady', rfl, first, type, length, second⟩

theorem recvRecord_flows (short : record.data.length ≤ 18432) (plain : record.contentType ≠ contentTypeAlert) :
    ∃ s, s.Flows n ∧ s.incoming = rest ∧ recvRecord c = .ok record (c.withSocket s) := by
  obtain ⟨_, s, s', flows', left, first, type, length, second⟩ := carried.reads flows
  refine ⟨s', flows', left, ?_⟩
  rw [recvRecord, bind_ok _ first, type, length, failIf_false _ (by omega), pure_bind, bind_ok _ second,
    failIf_false _ (fun h => plain h.1)]
  rfl

end

theorem length_recordBytes (contentType : UInt8) (payload : List UInt8) :
    (recordBytes contentType payload).length = 5 + payload.length := by
  simp only [recordBytes, tlsVersion12, length_append, length_cons, length_nil, toBe_length]

theorem length_sealedPayload (key iv : List UInt8) (seq : UInt64) (contentType : UInt8)
    (plaintext : List UInt8) :
    (sealedPayload crypto key iv seq contentType plaintext).length = plaintext.length + 24 := by
  rw [sealedPayload, length_append, toBe_length, crypto.encrypt_length, gcmTagSize]
  omega

theorem onSocket_ok {α : Type} {mapErr : TlsError → TlsError} {call : SocketM α} {a : α} {s : BlockingTcpSocket}
    (run : call c.socket = .ok a s) : onSocket mapErr call c = .ok a (c.withSocket s) := by
  simp only [onSocket, run]

end Flows

/-! ## Sending -/

/-- A call that sends: it takes nothing from the stream, and with rounds for `cost` bytes it succeeds. -/
structure Sends (cost : Nat) (s s' : BlockingTcpSocket) : Prop where
  incoming : s'.incoming = s.incoming
  flows : ∀ n, s.Flows (n + cost) → s'.Flows n

theorem Sends.trans {s'' : BlockingTcpSocket} (first : Sends a s s') (second : Sends b s' s'') :
    Sends (a + b) s s'' where
  incoming := second.incoming.trans first.incoming
  flows n flows := second.flows n (first.flows (n + b) (by rwa [Nat.add_assoc, Nat.add_comm b a]))

theorem Sends.mono (sends : Sends a s s') (more : a ≤ b) : Sends b s s' where
  incoming := sends.incoming
  flows n flows := sends.flows n (flows.mono (by omega))

/-- There are not rounds enough for `cost` bytes. -/
def Stalls (cost : Nat) (s : BlockingTcpSocket) : Prop := ∀ n, ¬s.Flows (n + cost)

theorem Stalls.mono (stalls : Stalls a s) (more : a ≤ b) : Stalls b s :=
  fun n flows => stalls n (flows.mono (by omega))

theorem Stalls.after (stalls : Stalls b s') (sends : Sends a s s') : Stalls (a + b) s :=
  fun n flows => stalls n (sends.flows (n + b) (by rwa [Nat.add_assoc, Nat.add_comm b a]))

theorem sendRecord_spec (contentType : UInt8) (data : List UInt8) (c : Tls12Connection) :
    wp (sendRecord contentType data) (fun _ c' => ∃ s, c' = c.withSocket s ∧ Sends (5 + data.length) c.socket s)
      (fun stop _ => stop ≠ .panicked ∧ Stalls (5 + data.length) c.socket) c := by
  have taken := write_spec (recordBytes contentType data) c.socket
  have run : sendRecord contentType data c = (onSocket (fun _ => .io)
      (BlockingTcpSocket.write (recordBytes contentType data)) >>= fun _ => pure ()) c := rfl
  unfold wp
  cases call : BlockingTcpSocket.write (recordBytes contentType data) c.socket with
  | ok count s =>
    rw [run, bind_ok _ (onSocket_ok call)]
    refine ⟨s, rfl, (wp_of_ok taken call).2.2.2, fun n flows => ?_⟩
    obtain ⟨s', flows', -, sent⟩ := write_flows (length_recordBytes contentType data ▸ flows)
    cases call.symm.trans sent
    exact flows'
  | error e s =>
    have failed : onSocket (fun _ => .io) (BlockingTcpSocket.write (recordBytes contentType data)) c =
        .error (.error .io) (c.withSocket s) := by simp only [onSocket, call]
    rw [run, bind_error _ failed]
    refine ⟨by simp, fun n flows => ?_⟩
    obtain ⟨s', -, -, sent⟩ := write_flows (length_recordBytes contentType data ▸ flows)
    cases call.symm.trans sent

theorem sendEncryptedRecord_spec (contentType : UInt8) (plaintext : List UInt8) (c : Tls12Connection)
    (short : plaintext.length ≤ gcmMaxPlaintext) :
    wp (sendEncryptedRecord crypto contentType plaintext)
      (fun _ c' => ∃ s, c' = { c with clientSeq := c.clientSeq + 1, socket := s } ∧
        Sends (5 + (plaintext.length + 24)) c.socket s)
      (fun stop _ => stop ≠ .panicked ∧ Stalls (5 + (plaintext.length + 24)) c.socket) c := by
  have sent :=
    sendRecord_spec contentType (sealedPayload crypto c.clientWriteKey c.clientWriteIv c.clientSeq contentType
    plaintext) { c with clientSeq := c.clientSeq + 1 }
  rw [length_sealedPayload, sendRecord, wp_bind] at sent
  simp only [sendEncryptedRecord, wp_bind, wp_failIf]
  exact ⟨fun long => absurd short (by omega), fun _ => sent⟩

end HavyOs.Tls
