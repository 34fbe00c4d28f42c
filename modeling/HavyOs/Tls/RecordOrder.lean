import HavyOs.Tls.Record

/-!
# Integrity and order of records

With an ideal AEAD nothing decrypts under the server's key but what the server encrypted. The
sequence number is not on the wire: the receiver puts its own count of accepted records in the
additional data. A call that fails leaves the count as it is.
-/

namespace HavyOs.Tls

open Lib List

/-- A record that the server encrypted, with the explicit nonce it chose. -/
structure SentRecord where
  record : TlsRecord
  nonce : List UInt8
deriving DecidableEq, Repr

/-- The additional data of the `i`-th record of the server. -/
def SentRecord.aad (sent : SentRecord) (i : Nat) : List UInt8 :=
  additionalData (UInt64.ofNat i) sent.record.contentType sent.record.data.length

variable (crypto : Crypto)

/-- The nonce, the additional data and the ciphertext are those the server produced for its `i`-th record. -/
def Produced (key iv : List UInt8) (sent : List SentRecord) (nonce aad ciphertext plaintext : List UInt8)
    (i : Nat) : Prop :=
  ∃ r, sent[i]? = some r ∧ nonce = iv ++ r.nonce ∧ aad = r.aad i ∧
    ciphertext = crypto.encrypt key nonce aad r.record.data ∧
    plaintext = r.record.data

/-- Under the key only what the server produced decrypts, to what it encrypted. -/
def Authentic (key iv : List UInt8) (sent : List SentRecord) : Prop :=
  ∀ nonce aad ciphertext plaintext, crypto.decrypt key nonce aad ciphertext = some plaintext →
    ∃ i, Produced crypto key iv sent nonce aad ciphertext plaintext i

/-- The server encrypts `sent`, the first with sequence number zero, and its counter does not wrap. -/
structure Peer (crypto : Crypto) (c : Tls12Connection) (sent : List SentRecord) : Prop where
  authentic : Authentic crypto c.serverWriteKey c.serverWriteIv sent
  unwrapped : sent.length < 2 ^ 64

/-- An ideal AEAD for what a server sends: decryption looks up what the server produced. -/
def tableCrypto (iv : List UInt8) (sent : List SentRecord) : Crypto where
  sha256 message := message
  hmacSha256 _ _ := replicate 32 0
  x25519Public _ := replicate 32 0
  x25519 _ _ := replicate 32 0
  p256Public _ := replicate 65 0
  p256Point _ := false
  p256 _ _ := replicate 32 0
  encrypt _ _ _ plaintext := plaintext ++ replicate gcmTagSize 0
  decrypt _ nonce aad ciphertext :=
    (sent.zipIdx.find? fun entry => nonce = iv ++ entry.1.nonce ∧ aad = entry.1.aad entry.2 ∧
      ciphertext = entry.1.record.data ++ replicate gcmTagSize 0).map fun entry => entry.1.record.data
  hmacSha256_length _ _ := length_replicate
  x25519Public_length _ := length_replicate
  p256Public_length _ := length_replicate
  encrypt_length := length_emptyTag
  decrypt_length key nonce aad ciphertext plaintext found := by
    obtain ⟨entry, here, rfl⟩ := Option.map_eq_some_iff.mp found
    have matched := find?_some here
    simp only [decide_eq_true_eq] at matched
    rw [matched.2.2]
    simp

theorem tableCrypto_authentic (key iv : List UInt8) (sent : List SentRecord) :
    Authentic (tableCrypto iv sent) key iv sent := by
  intro nonce aad ciphertext plaintext found
  obtain ⟨entry, here, rfl⟩ := Option.map_eq_some_iff.mp found
  have matched := find?_some here
  simp only [decide_eq_true_eq] at matched
  exact ⟨entry.2, entry.1, mem_zipIdx_iff_getElem?.mp (mem_of_find?_eq_some here), matched.1, matched.2.1,
    matched.2.2, rfl⟩

section

variable {crypto : Crypto} {c c' : Tls12Connection} {sent : List SentRecord}

theorem additionalData_inj {seq seq' : UInt64} {type type' : UInt8} {n n' : Nat}
    (same : additionalData seq type n = additionalData seq' type' n') : seq = seq' ∧ type = type' := by
  have lengths : (toBe 8 seq.toNat).length = (toBe 8 seq'.toNat).length := by simp
  simp only [additionalData, append_assoc] at same
  obtain ⟨numbers, rest⟩ := append_inj same lengths
  refine ⟨UInt64.toNat_inj.mp (toBe_inj ?_ ?_ numbers), ?_⟩
  · exact lt_of_lt_of_eq seq.toNat_lt (by decide)
  · exact lt_of_lt_of_eq seq'.toNat_lt (by decide)
  · simpa [tlsVersion12] using (cons.inj rest).1

variable (peer : Peer crypto c sent)

include peer

theorem Peer.next {record : TlsRecord} {nonce ciphertext rest : List UInt8}
    (opened : Opened crypto c record nonce ciphertext rest) : ∃ r, sent[c.serverSeq.toNat]? = some r ∧
    r.record = record := by
  obtain ⟨i, r, there, -, aad, -, plaintext⟩ := peer.authentic _ _ _ _ opened.decrypted
  obtain ⟨seq, type⟩ := additionalData_inj aad
  have bound : i < 2 ^ 64 := by
    have := (List.getElem?_eq_some_iff.mp there).1
    have := peer.unwrapped
    omega
  rw [seq, UInt64.toNat_ofNat', Nat.mod_eq_of_lt bound]
  refine ⟨r, there, ?_⟩
  obtain ⟨_, _⟩ := record
  simp only at type plaintext
  rw [type, plaintext]

theorem Peer.count {r : SentRecord} (there : sent[c.serverSeq.toNat]? = some r) :
    (c.serverSeq + 1).toNat = c.serverSeq.toNat + 1 := by
  have inside := (List.getElem?_eq_some_iff.mp there).1
  have bound := peer.unwrapped
  rw [UInt64.toNat_add, UInt64.toNat_one]
  omega

end

/-- The records that `n` calls of `recv_encrypted_record` accept up to the first error. -/
def acceptedRecords : Nat → Tls12Connection → List TlsRecord
  | 0, _ => []
  | n + 1, c =>
    match recvEncryptedRecord crypto c with
    | .ok record c' => record :: acceptedRecords n c'
    | .error _ _ => []

theorem acceptedRecords_prefix {crypto : Crypto} {sent : List SentRecord} (n : Nat) {c : Tls12Connection}
    (peer : Peer crypto c sent) : acceptedRecords crypto n c <+: (sent.drop c.serverSeq.toNat).map (·.record) := by
  induction n generalizing c with
  | zero => exact nil_prefix
  | succ n ih =>
    have spec := recvEncryptedRecord_spec crypto c
    rw [acceptedRecords]
    cases outcome : recvEncryptedRecord crypto c with
    | error e c' => exact nil_prefix
    | ok record c' =>
      obtain ⟨s, _, _, rfl, opened⟩ := wp_of_ok spec outcome
      obtain ⟨r, there, rfl⟩ := peer.next opened
      have later := ih (show Peer crypto (c.accepted s) sent from ⟨peer.authentic, peer.unwrapped⟩)
      rw [show (c.accepted s).serverSeq.toNat = c.serverSeq.toNat + 1 from peer.count there] at later
      obtain ⟨inside, here⟩ := List.getElem?_eq_some_iff.mp there
      rw [drop_eq_getElem_cons inside, here]
      exact cons_prefix_cons.mpr ⟨rfl, later⟩

/-- Whatever bytes the wire carries and however they arrive, the records that `recv_encrypted_record` accepts up to
its first error are a prefix of those the server encrypted. -/
theorem records_in_order (crypto : Crypto) (sent : List SentRecord) (c : Tls12Connection) (peer : Peer crypto c sent)
    (fresh : c.serverSeq = 0) (n : Nat) : acceptedRecords crypto n c <+: sent.map (·.record) := by
  have prefixed := acceptedRecords_prefix n peer
  rwa [fresh] at prefixed

/-- Two records of a server, and a wire that delivers the first twice. -/
def twoSent : List SentRecord := [⟨⟨22, [20, 0]⟩, toBe 8 0⟩, ⟨⟨23, [104, 105]⟩, toBe 8 1⟩]

def repeatingWire : BlockingTcpSocket :=
  let first := recordBytes 22 (toBe 8 0 ++ [20, 0] ++ replicate gcmTagSize 0)
  ⟨replicate 4 (Poll.prompt 65535), first ++ first, []⟩

theorem records_in_order_repeated :
    acceptedRecords (tableCrypto (replicate 4 0) twoSent) 2 (.new repeatingWire []) = [⟨22, [20, 0]⟩] ∧
      acceptedRecords (tableCrypto (replicate 4 0) twoSent) 2 (.new repeatingWire []) <+: twoSent.map (·.record) :=
  ⟨by decide +kernel, records_in_order _ twoSent (.new repeatingWire []) ⟨tableCrypto_authentic _ _ _, by decide⟩ rfl 2⟩

end HavyOs.Tls
