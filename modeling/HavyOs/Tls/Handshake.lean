import HavyOs.Tls.Record

/-!
# The handshake

`Tls12Connection::handshake` with the functions that send and receive its messages, and the key
schedule. What the generator of random numbers gives is an argument. Each receiving function
takes one record for its message. The parts that look at the bytes of a message are functions of
their own here.
-/

namespace HavyOs.Tls

open Lib List

/-! ## Constants -/

def handshakeClientHello : UInt8 := 1
def handshakeServerHello : UInt8 := 2
def handshakeCertificate : UInt8 := 11
def handshakeServerKeyExchange : UInt8 := 12
def handshakeServerHelloDone : UInt8 := 14
def handshakeClientKeyExchange : UInt8 := 16
def handshakeFinished : UInt8 := 20

/-- `CIPHER_SUITE_ECDHE_RSA_AES128_GCM_SHA256`. -/
def cipherSuite : List UInt8 := [0xc0, 0x2f]

def extServerName : Nat := 0
def extSupportedGroups : Nat := 10
def extEcPointFormats : Nat := 11
def extSignatureAlgorithms : Nat := 13

def namedCurveSecp256r1 : Nat := 23
def namedCurveX25519 : Nat := 29

/-! ## The pseudo-random function -/

/-- A byte string literal. -/
def ascii (text : String) : List UInt8 := text.toList.map fun c => UInt8.ofNat c.toNat

variable (crypto : Crypto)

/-- The loop of `p_hash` with `missing` bytes of the output to fill; each round fills a byte at least. -/
def pHashLoop (secret seed : List UInt8) : Nat → Nat → List UInt8 → List UInt8
  | 0, _, _ => []
  | fuel + 1, missing, a =>
    if missing = 0 then []
    else
      let result := crypto.hmacSha256 secret (a ++ seed)
      let toCopy := min missing result.length
      result.take toCopy ++ pHashLoop secret seed fuel (missing - toCopy) (crypto.hmacSha256 secret a)

/-- `prf_sha256` with an output of `length` bytes. -/
def prfSha256 (secret label seed : List UInt8) (length : Nat) : List UInt8 :=
  pHashLoop crypto secret (label ++ seed) length length (crypto.hmacSha256 secret (label ++ seed))

section Prf

variable (crypto : Crypto) (secret seed : List UInt8)

/-- `A(i)` of RFC 5246. -/
def hmacChain : Nat → List UInt8
  | 0 => seed
  | i + 1 => crypto.hmacSha256 secret (hmacChain i)

/-- The part of the output that is made from `A(i)`. -/
def hmacBlock (i : Nat) : List UInt8 := crypto.hmacSha256 secret (hmacChain crypto secret seed i ++ seed)

theorem pHashLoop_eq (fuel blocks missing i : Nat) (enough : missing ≤ fuel) (full : missing ≤ 32 * blocks) :
    pHashLoop crypto secret seed fuel missing (hmacChain crypto secret seed i) =
      ((range' i blocks).flatMap (hmacBlock crypto secret seed)).take missing := by
  induction fuel generalizing blocks missing i with
  | zero =>
    obtain rfl : missing = 0 := by omega
    rw [pHashLoop, take_zero]
  | succ fuel ih =>
    rw [pHashLoop]
    split_ifs with none
    · rw [none, take_zero]
    · -- at least one block is left, and this round copies from it
      obtain ⟨blocks, rfl⟩ : ∃ n, blocks = n + 1 := ⟨blocks - 1, by omega⟩
      have length : (hmacBlock crypto secret seed i).length = 32 := crypto.hmacSha256_length _ _
      have copied :
          (hmacBlock crypto secret seed i).take (min missing 32) = (hmacBlock crypto secret seed i).take missing := by
        rw [← length]
        exact take_eq_take_min.symm
      have later := ih blocks (missing - min missing 32) (i + 1) (by omega) (by omega)
      rw [range'_succ, flatMap_cons, take_append, length, ← copied,
        show missing - 32 = missing - min missing 32 by omega, ← later]
      dsimp only
      rw [crypto.hmacSha256_length]
      rfl

/-- **The pseudo-random function of RFC 5246.** The output is the first bytes of the blocks made from `A(1)`,
`A(2)` and so on, as many as it takes. -/
theorem prfSha256_eq (label : List UInt8) (length : Nat) :
    prfSha256 crypto secret label seed length =
      ((range' 1 ((length + 31) / 32)).flatMap (hmacBlock crypto secret (label ++ seed))).take length :=
  pHashLoop_eq crypto secret (label ++ seed) length ((length + 31) / 32) length 1 (Nat.le_refl length) (by omega)

end Prf

/-! ## Sending -/

def buildHandshakeMessage (msgType : UInt8) (data : List UInt8) : List UInt8 := msgType :: toBe 3 data.length ++ data

variable (hostname : List UInt8)

def serverNameExtension : List UInt8 :=
  if hostname = [] then []
  else
    let sni := toBe 2 (hostname.length + 3) ++ [0] ++ toBe 2 hostname.length ++ hostname
    toBe 2 extServerName ++ toBe 2 sni.length ++ sni

def extensions : List UInt8 :=
  serverNameExtension hostname ++
    (toBe 2 extSupportedGroups ++ toBe 2 6 ++ toBe 2 4 ++ toBe 2 namedCurveSecp256r1 ++ toBe 2 namedCurveX25519) ++
    (toBe 2 extEcPointFormats ++ toBe 2 2 ++ [1, 0]) ++
    (toBe 2 extSignatureAlgorithms ++ toBe 2 4 ++ toBe 2 2 ++ [0x04, 0x01])

def clientHello (clientRandom hostname : List UInt8) : List UInt8 :=
  buildHandshakeMessage handshakeClientHello
    (tlsVersion12 ++ clientRandom ++ [0] ++ [0, 2] ++ cipherSuite ++ [1, 0] ++
      toBe 2 (extensions hostname).length ++ extensions hostname)

def updateHash (bytes : List UInt8) : TlsM Unit :=
  modify fun c => { c with handshakeHash := c.handshakeHash ++ bytes }

def sendClientHello : TlsM Unit := do
  let c ← get
  updateHash (clientHello c.clientRandom hostname)
  sendRecord contentTypeHandshake (clientHello c.clientRandom hostname)

def sendClientKeyExchange : TlsM Unit := do
  let c ← get
  failIf (c.curve ≠ namedCurveX25519 ∧ c.curve ≠ namedCurveSecp256r1) .internalError
  let pubkey := if c.curve = namedCurveX25519 then c.clientPubkeyX25519 else c.clientPubkeyP256
  failIf (pubkey = []) .internalError
  let message := buildHandshakeMessage handshakeClientKeyExchange (UInt8.ofNat pubkey.length :: pubkey)
  updateHash message
  sendRecord contentTypeHandshake message

def sendChangeCipherSpec : TlsM Unit := sendRecord contentTypeChangeCipherSpec [1]

def sendFinished : TlsM Unit := do
  let c ← get
  let verifyData := prfSha256 crypto c.masterSecret (ascii "client finished") (crypto.sha256 c.handshakeHash) 12
  let message := buildHandshakeMessage handshakeFinished verifyData
  updateHash message
  sendEncryptedRecord crypto contentTypeHandshake message

/-! ## Receiving -/

/-- A handshake record, which goes into the hash as a whole. -/
def recvHandshakeRecord : TlsM (List UInt8) := do
  let record ← recvRecord
  failIf (record.contentType ≠ contentTypeHandshake) .tlsProtocolError
  updateHash record.data
  pure record.data

/-- What `recv_server_hello` makes of the bytes. -/
def parseServerHello (data : List UInt8) : TlsM Unit := do
  failIf (data.length < 4) .invalidData
  failIf (data.getD 0 0 ≠ handshakeServerHello) .tlsProtocolError
  let msgLen := fromBe ((data.drop 1).take 3)
  failIf (data.length < 4 + msgLen) .invalidData
  let msg := (data.drop 4).take msgLen
  failIf (msg.length < 35) .invalidData
  modify fun c => { c with serverRandom := (msg.drop 2).take 32 }
  let pos := 35 + (msg.getD 34 0).toNat
  failIf (pos + 2 > msg.length) .invalidData
  failIf ((msg.drop pos).take 2 ≠ cipherSuite) .tlsProtocolError

def recvServerHello : TlsM Unit := recvHandshakeRecord >>= parseServerHello

/-- `recv_certificate`; the certificate is not looked at. -/
def recvCertificate : TlsM Unit := do
  let data ← recvHandshakeRecord
  failIf (data = [] ∨ data.getD 0 0 ≠ handshakeCertificate) .tlsProtocolError

/-- `if` an index is outside a slice. -/
def panicIf (p : Prop) [Decidable p] : TlsM Unit := if p then throw .panicked else pure ()

/-- What `recv_server_key_exchange` makes of the bytes. Bytes 1 to 3 are read without a look at the length. -/
def parseServerKeyExchange (data : List UInt8) : TlsM Unit := do
  failIf (data = []) .tlsProtocolError
  failIf (data.getD 0 0 ≠ handshakeServerKeyExchange) .tlsProtocolError
  panicIf (data.length < 4)
  let msgLen := fromBe ((data.drop 1).take 3)
  failIf (data.length < 4 + msgLen) .invalidData
  let msg := (data.drop 4).take msgLen
  failIf (msg.length < 5) .invalidData
  failIf (msg.getD 0 0 ≠ 3) .tlsProtocolError
  let curve := fromBe ((msg.drop 1).take 2)
  modify fun c => { c with curve := curve }
  failIf (curve ≠ namedCurveX25519 ∧ curve ≠ namedCurveSecp256r1) .tlsProtocolError
  let pubkeyLen := (msg.getD 3 0).toNat
  failIf (msg.length < 4 + pubkeyLen) .invalidData
  modify fun c => { c with serverPubkey := some ((msg.drop 4).take pubkeyLen) }

def recvServerKeyExchange : TlsM Unit := recvHandshakeRecord >>= parseServerKeyExchange

def recvServerHelloDone : TlsM Unit := do
  let data ← recvHandshakeRecord
  failIf (data = [] ∨ data.getD 0 0 ≠ handshakeServerHelloDone) .tlsProtocolError

def recvChangeCipherSpec : TlsM Unit := do
  let record ← recvRecord
  failIf (record.contentType ≠ contentTypeChangeCipherSpec) .tlsProtocolError

/-- `recv_finished`. Only the type of the message is looked at. -/
def recvFinished : TlsM Unit := do
  let record ← recvEncryptedRecord crypto
  failIf (record.contentType ≠ contentTypeHandshake) .tlsProtocolError
  failIf (record.data = [] ∨ record.data.getD 0 0 ≠ handshakeFinished) .tlsProtocolError

/-! ## The key schedule -/

/-- The shared secret of `compute_keys`; the secret key is taken. -/
def preMasterSecret : TlsM (List UInt8) := do
  let c ← get
  match c.serverPubkey with
  | none => fail .invalidData
  | some pubkey =>
    if c.curve = namedCurveX25519 then
      failIf (pubkey.length ≠ 32) .invalidData
      match c.x25519Secret with
      | none => fail .invalidData
      | some secret =>
        set { c with x25519Secret := none }
        pure (crypto.x25519 secret pubkey)
    else if c.curve = namedCurveSecp256r1 then
      failIf (pubkey.length ≠ 65) .invalidData
      failIf (crypto.p256Point pubkey = false) .invalidData
      match c.p256Secret with
      | none => fail .invalidData
      | some secret =>
        set { c with p256Secret := none }
        pure (crypto.p256 secret pubkey)
    else fail .tlsProtocolError

/-- The master secret, keys and implicit nonces of a connection. -/
structure Keys where
  masterSecret : List UInt8
  clientWriteKey : List UInt8
  serverWriteKey : List UInt8
  clientWriteIv : List UInt8
  serverWriteIv : List UInt8
deriving DecidableEq, Repr

/-- The keys for a shared secret and the random values. -/
def deriveKeys (preMaster clientRandom serverRandom : List UInt8) : Keys :=
  let masterSecret := prfSha256 crypto preMaster (ascii "master secret") (clientRandom ++ serverRandom) 48
  let keyBlock := prfSha256 crypto masterSecret (ascii "key expansion") (serverRandom ++ clientRandom) 40
  ⟨masterSecret, keyBlock.take 16, (keyBlock.drop 16).take 16, (keyBlock.drop 32).take 4, (keyBlock.drop 36).take 4⟩

def Tls12Connection.keys (c : Tls12Connection) : Keys :=
  ⟨c.masterSecret, c.clientWriteKey, c.serverWriteKey, c.clientWriteIv, c.serverWriteIv⟩

def Tls12Connection.withKeys (c : Tls12Connection) (keys : Keys) : Tls12Connection :=
  { c with
    masterSecret := keys.masterSecret
    clientWriteKey := keys.clientWriteKey
    serverWriteKey := keys.serverWriteKey
    clientWriteIv := keys.clientWriteIv
    serverWriteIv := keys.serverWriteIv }

def computeKeys : TlsM Unit := do
  let preMaster ← preMasterSecret crypto
  modify fun c => c.withKeys (deriveKeys crypto preMaster c.clientRandom c.serverRandom)

/-! ## The handshake -/

/-- What the client draws from its generator. -/
structure Entropy where
  clientRandom : List UInt8
  x25519Secret : List UInt8
  p256Secret : List UInt8
deriving DecidableEq, Repr

/-- The key pairs that `handshake` makes first. -/
def makeKeyPairs (entropy : Entropy) : TlsM Unit :=
  modify fun c =>
    { c with
      x25519Secret := some entropy.x25519Secret
      clientPubkeyX25519 := crypto.x25519Public entropy.x25519Secret
      clientPubkeyP256 := crypto.p256Public entropy.p256Secret
      p256Secret := some entropy.p256Secret }

/-- The messages of the server up to `ServerHelloDone`. -/
def recvServerFlight : TlsM Unit := do
  recvServerHello
  recvCertificate
  recvServerKeyExchange
  recvServerHelloDone

/-- The client's side up to its `Finished`. -/
def sendClientFlight : TlsM Unit := do
  sendClientKeyExchange
  computeKeys crypto
  sendChangeCipherSpec
  modify fun c => { c with encrypted := true }
  sendFinished crypto

def handshake (entropy : Entropy) (hostname : List UInt8) : TlsM Unit := do
  makeKeyPairs crypto entropy
  sendClientHello hostname
  recvServerFlight
  sendClientFlight crypto
  recvChangeCipherSpec
  recvFinished crypto

end HavyOs.Tls
