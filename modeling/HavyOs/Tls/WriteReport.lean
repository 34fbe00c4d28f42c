import HavyOs.Tls.RecordOrder

/-!
# What a write reports

`write` makes one record of its data whatever the length, puts the length in a field of 16 bits and
does not look at how many bytes the socket took. That no other grouping into records can be right is
a matter of counting: every record adds 29 bytes to its plaintext.
-/

namespace HavyOs.Tls

open Lib List BlockingTcpSocket

/-- What a record adds to its plaintext: header, explicit nonce and tag. -/
def recordOverhead : Nat := 29

/-- The bytes are complete records of application data, encrypted under consecutive sequence numbers, with these
plaintexts; the field of each holds the length of the payload behind it. -/
def Framed (crypto : Crypto) (key iv : List UInt8) : UInt64 → List UInt8 → List (List UInt8) → Prop
  | _, bytes, [] => bytes = []
  | seq, bytes, plaintext :: plaintexts =>
    plaintext.length ≤ maxPlaintext ∧ ∃ nonce rest, nonce.length = gcmExplicitNonceSize ∧
      bytes = recordBytes contentTypeApplicationData
        (nonce ++ crypto.encrypt key (iv ++ nonce)
          (additionalData seq contentTypeApplicationData plaintext.length) plaintext) ++ rest ∧
      Framed crypto key iv (seq + 1) rest plaintexts

/-- If `write` returns `n`, the bytes it handed to TCP are records whose plaintexts are the first `n` bytes of the data.
-/
def WriteReports (crypto : Crypto) (data : List UInt8) (c : Tls12Connection) : Prop :=
  ∀ n c', write crypto data c = .ok n c' → ∃ sent plaintexts, c'.socket.outgoing = c.socket.outgoing ++ sent ∧
    Framed crypto c.clientWriteKey c.clientWriteIv c.clientSeq sent plaintexts ∧ plaintexts.flatten = data.take n

section

variable {crypto : Crypto} {key iv : List UInt8}

theorem length_sealedRecord (crypto : Crypto) (key iv : List UInt8) (seq : UInt64) (contentType : UInt8)
    (plaintext : List UInt8) :
    (recordBytes contentType (sealedPayload crypto key iv seq contentType plaintext)).length =
      plaintext.length + recordOverhead := by
  rw [length_recordBytes, length_sealedPayload, recordOverhead]
  omega

theorem Framed.length {seq : UInt64} {bytes : List UInt8} {plaintexts : List (List UInt8)}
    (framed : Framed crypto key iv seq bytes plaintexts) :
    bytes.length = plaintexts.flatten.length + recordOverhead * plaintexts.length := by
  induction plaintexts generalizing seq bytes with
  | nil =>
    rw [show bytes = [] from framed]
    rfl
  | cons plaintext plaintexts ih =>
    obtain ⟨-, _, _, eight, rfl, framed⟩ := framed
    have later := ih framed
    rw [length_append, length_recordBytes, length_append, eight, crypto.encrypt_length, flatten_cons,
      length_append, length_cons]
    simp only [gcmExplicitNonceSize, gcmTagSize, recordOverhead] at later ⊢
    omega

theorem framed_within {seq : UInt64} {bytes data : List UInt8} {plaintexts : List (List UInt8)}
    (framed : Framed crypto key iv seq bytes plaintexts) (whole : plaintexts.flatten = data)
    (within : bytes.length ≤ data.length + recordOverhead) (some : 0 < bytes.length) :
    data.length ≤ maxPlaintext ∧ bytes.length = data.length + recordOverhead := by
  have count := framed.length
  rw [whole] at count
  match plaintexts, framed with
  | [], framed =>
    rw [show bytes = [] from framed] at some
    simp at some
  | [plaintext], framed =>
    rw [flatten_singleton] at whole
    subst whole
    exact ⟨framed.1, by simpa using count⟩
  | _ :: _ :: _, _ =>
    simp only [length_cons, recordOverhead] at count within
    omega

theorem write_spec (crypto : Crypto) (data : List UInt8) (c : Tls12Connection) :
    wp (write crypto data) (fun n c' => n = data.length ∧ data.length ≤ gcmMaxPlaintext ∧
        c'.socket.outgoing = c.socket.outgoing ++ (recordBytes contentTypeApplicationData (sealedPayload crypto
          c.clientWriteKey c.clientWriteIv c.clientSeq contentTypeApplicationData data)).take
            (accepted c.socket.polls (data.length + recordOverhead)) ∧
        0 < accepted c.socket.polls (data.length + recordOverhead))
      (fun _ _ => gcmMaxPlaintext < data.length ∨
        accepted c.socket.polls (data.length + recordOverhead) = 0) c := by
  simp only [write, sendEncryptedRecord, wp_bind, wp_failIf, wp_set, wp_onSocket, wp_pure]
  refine ⟨fun long => .inl long, fun short => ?_⟩
  have socket := BlockingTcpSocket.write_spec (recordBytes contentTypeApplicationData (sealedPayload crypto
    c.clientWriteKey c.clientWriteIv c.clientSeq contentTypeApplicationData data)) c.socket
  rw [length_sealedRecord] at socket
  refine wp_mono socket ?_ ?_
  · rintro n s ⟨rfl, taken, outgoing, -⟩
    refine ⟨trivial, by omega, outgoing, taken.resolve_right ?_⟩
    exact ne_nil_of_length_pos (by rw [length_recordBytes]; omega)
  · rintro e s ⟨none, -⟩
    exact .inr none

end

/-- What `write` reports is what it handed to TCP exactly if the data fits one record that TCP took as a whole, or TCP
took none of it, or the data is more than the cipher takes. -/
theorem write_reports (crypto : Crypto) (data : List UInt8) (c : Tls12Connection) :
    WriteReports crypto data c ↔
      (data.length ≤ maxPlaintext ∧
        accepted c.socket.polls (data.length + recordOverhead) = data.length + recordOverhead) ∨
      accepted c.socket.polls (data.length + recordOverhead) = 0 ∨ gcmMaxPlaintext < data.length := by
  have spec := write_spec crypto data c
  constructor
  · intro reports
    cases outcome : write crypto data c with
    | error e c' => exact .inr (wp_of_error spec outcome).symm
    | ok n c' =>
      obtain ⟨rfl, -, outgoing, taken⟩ := wp_of_ok spec outcome
      obtain ⟨sent, _, handed, framed, whole⟩ := reports _ _ outcome
      rw [take_length] at whole
      rw [outgoing, append_cancel_left_eq] at handed
      have bound := accepted_le c.socket.polls (data.length + recordOverhead)
      have length : sent.length = accepted c.socket.polls (data.length + recordOverhead) := by
        rw [← handed, length_take, length_sealedRecord]
        omega
      have one := framed_within framed whole (by omega) (by omega)
      exact .inl ⟨one.1, by omega⟩
  · intro condition n c' outcome
    obtain ⟨rfl, _, outgoing, taken⟩ := wp_of_ok spec outcome
    obtain ⟨fits, all⟩ | _ | _ := condition
    · refine ⟨_, [data], outgoing, ?_, by simp⟩
      rw [all, ← length_sealedRecord crypto c.clientWriteKey c.clientWriteIv c.clientSeq
          contentTypeApplicationData data,
        take_length]
      exact ⟨fits, toBe 8 c.clientSeq.toNat, [], toBe_length 8 _, by rw [append_nil, sealedPayload], rfl⟩
    · omega
    · omega

/-- A stack with room for ten bytes, and then no more time. -/
def fullStack : Tls12Connection := .new ⟨[.prompt 10, .late], [], []⟩ []

/-- Three bytes are reported as written when ten of the 32 bytes of their record were sent. -/
theorem short_write_reported :
    (∃ c', write (tableCrypto [] []) [1, 2, 3] fullStack = .ok 3 c' ∧ c'.socket.outgoing.length = 10) ∧
      ¬WriteReports (tableCrypto [] []) [1, 2, 3] fullStack := by
  obtain ⟨c', outcome, ten⟩ : ∃ c', write (tableCrypto [] []) [1, 2, 3] fullStack = .ok 3 c' ∧
      c'.socket.outgoing.length = 10 := ⟨_, rfl, by decide +kernel⟩
  refine ⟨⟨c', outcome, ten⟩, fun reports => ?_⟩
  obtain ⟨sent, _, handed, framed, whole⟩ := reports 3 c' outcome
  have length : sent.length = 10 := by rwa [handed] at ten
  have one := framed_within framed whole (by rw [length]; decide) (by omega)
  rw [length] at one
  exact absurd one.2 (by decide)

end HavyOs.Tls
