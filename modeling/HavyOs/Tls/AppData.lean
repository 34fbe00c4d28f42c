import HavyOs.Tls.RecordOrder

/-!
# Application data

`read` takes one record and gives its first bytes, as many as the buffer holds; the rest of the
record is gone. The abstract view of a sequence of reads is `Takes`: a call takes the next record or
fails, and nothing else can happen. The reads of a connection to a server that sends application
data take records in this way for every behaviour of the network, and every way of taking them
happens for some behaviour.
-/

namespace HavyOs.Tls

open Lib List Tls12Connection

/-! ## Taking records -/

section Abstract

variable {plaintexts : List (List UInt8)}

/-- From record `t` on, calls with these buffers can return these pieces; each is logged with its record. -/
inductive Takes (plaintexts : List (List UInt8)) : Nat → List Nat → List (Nat × List UInt8) → Prop where
  | nil (t : Nat) : Takes plaintexts t [] []
  | failed {t n : Nat} {bufs : List Nat} {log : List (Nat × List UInt8)} :
      Takes plaintexts t bufs log → Takes plaintexts t (n :: bufs) log
  | took {t n : Nat} {bufs : List Nat} {log : List (Nat × List UInt8)} {plaintext : List UInt8} :
      plaintexts[t]? = some plaintext → Takes plaintexts (t + 1) bufs log →
      Takes plaintexts t (n :: bufs) ((t, plaintext.take n) :: log)

def returned (log : List (Nat × List UInt8)) : List UInt8 := (log.map (·.2)).flatten

/-- The bytes are a prefix of what was sent, and no byte was skipped: when a read returns bytes of a record, all the
bytes of the records before it have been returned. -/
def Unskipped (plaintexts : List (List UInt8)) (log : List (Nat × List UInt8)) : Prop :=
  returned log <+: plaintexts.flatten ∧
    ∀ p t bytes, log[p]? = some (t, bytes) → bytes ≠ [] → returned (log.take p) = (plaintexts.take t).flatten

/-- No record from `t` on can be taken by a call whose buffer is smaller while calls enough for a later byte remain:
record `i` can be taken by any call from the `i - t`-th on, and the records up to `j` by the calls behind it. -/
def RoomyFrom (plaintexts : List (List UInt8)) (t : Nat) (bufs : List Nat) : Prop :=
  ∀ i j k : Nat, t ≤ i → i < j → i ≤ t + k → ∀ piece later n, plaintexts[i]? = some piece →
    plaintexts[j]? = some later →
    later ≠ [] → k + (j - i) < bufs.length → bufs[k]? = some n → piece.length ≤ n

def Roomy (plaintexts : List (List UInt8)) (bufs : List Nat) : Prop := RoomyFrom plaintexts 0 bufs

section Entries

variable {t : Nat} {bufs : List Nat} {log : List (Nat × List UInt8)}

@[simp] theorem returned_nil : returned [] = [] := rfl

@[simp] theorem returned_cons (entry : Nat × List UInt8) (log : List (Nat × List UInt8)) :
    returned (entry :: log) = entry.2 ++ returned log := rfl

theorem Takes.length_le (takes : Takes plaintexts t bufs log) : log.length ≤ bufs.length := by
  induction takes with
  | nil => exact Nat.le_refl _
  | failed _ ih => exact Nat.le_succ_of_le ih
  | took _ _ ih => exact Nat.succ_le_succ ih

variable {p i : Nat} {bytes : List UInt8} {n : Nat}

theorem Takes.entry (takes : Takes plaintexts t bufs log)
    (there : log[p]? = some (i, bytes)) :
    i = t + p ∧ ∃ plaintext n, plaintexts[i]? = some plaintext ∧ bytes = plaintext.take n := by
  induction takes generalizing p with
  | nil => simp at there
  | failed _ ih => exact ih there
  | took here _ ih =>
    cases p with
    | zero =>
      obtain ⟨rfl, rfl⟩ := there
      exact ⟨rfl, _, _, here, rfl⟩
    | succ p =>
      obtain ⟨index, piece⟩ := ih there
      exact ⟨by omega, piece⟩

section

variable (roomy : RoomyFrom plaintexts t (n :: bufs))
include roomy

theorem RoomyFrom.failed : RoomyFrom plaintexts t bufs := by
  intro i j k from_t later reach piece next m here there some room buf
  exact roomy i j (k + 1) from_t later (by omega) piece next m here there some
    (by rw [length_cons]; omega) (by rwa [getElem?_cons_succ])

theorem RoomyFrom.took : RoomyFrom plaintexts (t + 1) bufs := by
  intro i j k from_t later reach piece next m here there some room buf
  exact roomy i j (k + 1) (by omega) later (by omega) piece next m here there some
    (by rw [length_cons]; omega) (by rwa [getElem?_cons_succ])

/-- A record behind which a byte is read fits the buffer that took it. -/
theorem RoomyFrom.whole {plaintext : List UInt8}
    (here : plaintexts[t]? = some plaintext) (takes : Takes plaintexts (t + 1) bufs log)
    (there : log[p]? = some (i, bytes)) (some : bytes ≠ []) : plaintext.length ≤ n := by
  obtain ⟨rfl, later, m, next, rfl⟩ := takes.entry there
  have inside := (List.getElem?_eq_some_iff.mp there).1
  have bound := takes.length_le
  exact roomy t (t + 1 + p) 0 (Nat.le_refl t) (by omega) (by omega) plaintext later n here next
    (by rintro rfl; exact some (by simp)) (by rw [length_cons]; omega) rfl

end

section

variable (takes : Takes plaintexts t bufs log)

include takes

/-- Before a read that returns bytes all the bytes of the earlier records were returned. -/
theorem Takes.before (roomy : RoomyFrom plaintexts t bufs)
    (there : log[p]? = some (i, bytes)) (some : bytes ≠ []) :
    returned (log.take p) = ((plaintexts.drop t).take p).flatten := by
  induction takes generalizing p with
  | nil => simp at there
  | failed _ ih => exact ih roomy.failed there
  | @took t n bufs log plaintext here rest ih =>
    cases p with
    | zero => simp
    | succ p =>
      have fits := roomy.whole here rest there some
      have later := ih roomy.took there
      obtain ⟨inside, rfl⟩ := List.getElem?_eq_some_iff.mp here
      rw [take_succ_cons, returned_cons, later, take_of_length_le fits, drop_eq_getElem_cons inside,
        take_succ_cons, flatten_cons]

omit takes in
theorem returned_eq_nil (empty : ∀ (p i : Nat) (bytes : List UInt8), log[p]? = some (i, bytes) → bytes = []) :
    returned log = [] := by
  induction log with
  | nil => rfl
  | cons entry log ih =>
    rw [returned_cons, empty 0 entry.1 entry.2 rfl, nil_append]
    exact ih fun p i bytes there => empty (p + 1) i bytes there

theorem Takes.leading (roomy : RoomyFrom plaintexts t bufs) :
    returned log <+: (plaintexts.drop t).flatten := by
  induction takes with
  | nil => exact nil_prefix
  | failed _ ih => exact ih roomy.failed
  | @took t n bufs log plaintext here rest ih =>
    have later := ih roomy.took
    obtain ⟨inside, same⟩ := List.getElem?_eq_some_iff.mp here
    rw [returned_cons, drop_eq_getElem_cons inside, same]
    -- either the whole record was returned, or nothing is returned behind it
    by_cases fits : plaintext.length ≤ n
    · rw [take_of_length_le fits]
      exact (prefix_append_right_inj plaintext).mpr later
    · have nothing : returned log = [] := returned_eq_nil fun p i bytes there => by
        by_contra some
        exact fits (roomy.whole here rest there some)
      rw [nothing, append_nil]
      exact (List.take_prefix n plaintext).trans (prefix_append _ _)

omit takes in
theorem Takes.unskipped (takes : Takes plaintexts 0 bufs log) (roomy : Roomy plaintexts bufs) :
    Unskipped plaintexts log := by
  refine ⟨by simpa using takes.leading roomy, fun p i bytes there some => ?_⟩
  obtain ⟨index, _⟩ := takes.entry there
  rw [takes.before roomy there some, index, drop_zero, Nat.zero_add]

theorem Takes.length_take_le (p : Nat) :
    (returned (log.take p)).length ≤ ((plaintexts.drop t).take p).flatten.length := by
  induction takes generalizing p with
  | nil => simp
  | failed _ ih => exact ih p
  | @took t n bufs log plaintext here rest ih =>
    cases p with
    | zero => simp
    | succ p =>
      obtain ⟨inside, rfl⟩ := List.getElem?_eq_some_iff.mp here
      have later := ih p
      rw [take_succ_cons, returned_cons, drop_eq_getElem_cons inside, take_succ_cons, flatten_cons,
        length_append, length_append, length_take]
      omega

/-- They are shorter when one of them was cut. -/
theorem Takes.length_take_lt {plaintext : List UInt8}
    (there : log[i]? = some (t + i, bytes)) (of : plaintexts[t + i]? = some plaintext)
    (cut : bytes.length < plaintext.length) (behind : i < p) :
    (returned (log.take p)).length < ((plaintexts.drop t).take p).flatten.length := by
  induction takes generalizing i p with
  | nil => simp at there
  | failed _ ih => exact ih there of behind
  | @took t n bufs log first here rest ih =>
    obtain ⟨p, rfl⟩ : ∃ q, p = q + 1 := ⟨p - 1, by omega⟩
    obtain ⟨inside, rfl⟩ := List.getElem?_eq_some_iff.mp here
    rw [take_succ_cons, returned_cons, drop_eq_getElem_cons inside, take_succ_cons, flatten_cons,
      length_append, length_append]
    cases i with
    | zero =>
      obtain ⟨-, rfl⟩ := there
      have later := rest.length_take_le p
      rw [Nat.add_zero, getElem?_eq_getElem inside, Option.some.injEq] at of
      rw [← of] at cut
      dsimp only at ⊢
      omega
    | succ i =>
      have index : t + (i + 1) = t + 1 + i := by omega
      rw [index] at there of
      have later := ih there of (by omega : i < p)
      simp only [length_take]
      omega

end

/-! Ways of taking records. -/

theorem Takes.none (t : Nat) (bufs : List Nat) : Takes plaintexts t bufs [] := by
  induction bufs with
  | nil => exact .nil t
  | cons n bufs ih => exact .failed ih

theorem Takes.skip (k : Nat) (takes : Takes plaintexts t (bufs.drop k) log) : Takes plaintexts t bufs log := by
  induction bufs generalizing k with
  | nil => simpa using takes
  | cons n bufs ih =>
    cases k with
    | zero => exact takes
    | succ k => exact .failed (ih k takes)

theorem Takes.lead (d : Nat) (there : t + d ≤ plaintexts.length) (calls : d ≤ bufs.length)
    (takes : Takes plaintexts (t + d) (bufs.drop d) log) :
    ∃ pieces, pieces.length = d ∧ Takes plaintexts t bufs (pieces ++ log) := by
  induction d generalizing t bufs with
  | zero => exact ⟨[], rfl, takes⟩
  | succ d ih =>
    cases bufs with
    | nil => simp at calls
    | cons n bufs =>
      rw [length_cons] at calls
      have index : t + (d + 1) = t + 1 + d := by omega
      rw [index] at takes
      obtain ⟨pieces, length, rest⟩ := ih (by omega) (by omega) takes
      exact ⟨(t, plaintexts[t].take n) :: pieces, by rw [length_cons, length],
        .took (getElem?_eq_getElem (by omega)) rest⟩

/-- A record that meets a buffer too small for it, and a later byte that is still read. -/
theorem cut_takes (nonzero : ∀ n ∈ bufs, 0 < n) {j k : Nat} {piece later : List UInt8} (order : i < j) (reach : i ≤ k)
    (here : plaintexts[i]? = some piece) (there : plaintexts[j]? = some later) (some : later ≠ [])
    (room : k + (j - i) < bufs.length) (buf : bufs[k]? = Option.some n) :
    ∃ log bytes, Takes plaintexts 0 bufs log ∧ log[i]? = Option.some (i, piece.take n) ∧
      log[j]? = Option.some (j, bytes) ∧ bytes ≠ [] := by
  have inside := (List.getElem?_eq_some_iff.mp there).1
  have calls := (List.getElem?_eq_some_iff.mp buf).1
  obtain ⟨m, final, positive⟩ : ∃ m, bufs[k + (j - i)] = m ∧ 0 < m := ⟨_, rfl, nonzero _ (getElem_mem room)⟩
  -- from the last piece back to the first
  have last : Takes plaintexts j (bufs.drop (k + (j - i))) [(j, later.take m)] := by
    rw [drop_eq_getElem_cons room, final]
    exact .took there (.none _ _)
  obtain ⟨mid, midLength, middle⟩ : ∃ pieces, pieces.length = j - i - 1 ∧
      Takes plaintexts (i + 1) (bufs.drop (k + 1)) (pieces ++ [(j, later.take m)]) := by
    apply Takes.lead (j - i - 1) (by omega) (by rw [length_drop]; omega)
    rw [drop_drop, show i + 1 + (j - i - 1) = j by omega, show k + 1 + (j - i - 1) = k + (j - i) by omega]
    exact last
  have cut : Takes plaintexts i (bufs.drop k) ((i, piece.take n) :: (mid ++ [(j, later.take m)])) := by
    rw [drop_eq_getElem_cons calls, (List.getElem?_eq_some_iff.mp buf).2]
    exact .took here middle
  obtain ⟨front, frontLength, whole⟩ : ∃ pieces, pieces.length = i ∧ Takes plaintexts 0 bufs
      (pieces ++ (i, piece.take n) :: (mid ++ [(j, later.take m)])) := by
    apply Takes.lead i (by omega) (by omega)
    rw [Nat.zero_add]
    apply Takes.skip (k - i)
    rwa [drop_drop, show i + (k - i) = k by omega]
  refine ⟨_, later.take m, whole, ?_, ?_, ?_⟩
  · rw [getElem?_append_right (by omega), frontLength, Nat.sub_self, getElem?_cons_zero]
  · rw [getElem?_append_right (by omega), frontLength, show j - i = (j - i - 1) + 1 by omega,
      getElem?_cons_succ, getElem?_append_right (by omega), midLength, Nat.sub_self, getElem?_cons_zero]
  · rw [Ne, take_eq_nil_iff]
    rintro (zero | empty)
    · omega
    · exact some empty

/-- Whatever way the records are taken, nothing is lost exactly if there is room. -/
theorem unskipped_iff_roomy (nonzero : ∀ n ∈ bufs, 0 < n) :
    (∀ log, Takes plaintexts 0 bufs log → Unskipped plaintexts log) ↔ Roomy plaintexts bufs := by
  constructor
  · intro unskipped i j k _ order reach piece later n here there some room buf
    by_contra small
    obtain ⟨log, bytes, takes, cut, last, nonempty⟩ := cut_takes nonzero order (by omega) here there some room buf
    have whole := (unskipped log takes).2 j j bytes last nonempty
    have cutAt : log[i]? = Option.some (0 + i, piece.take n) := by rwa [Nat.zero_add]
    have hereAt : plaintexts[0 + i]? = Option.some piece := by rwa [Nat.zero_add]
    have shorter : (piece.take n).length < piece.length := by
      rw [length_take]
      omega
    have less := takes.length_take_lt cutAt hereAt shorter order
    rw [whole, drop_zero] at less
    omega
  · intro roomy log takes
    exact takes.unskipped roomy

end Entries

end Abstract

/-! ## The reads of a connection -/

/-- The pieces that `read` calls with these buffers return; records are counted from the `first`-th of the server. -/
def readLog (crypto : Crypto) (first : Nat) : List Nat → Tls12Connection → List (Nat × List UInt8)
  | [], _ => []
  | n :: bufs, c =>
    match read crypto n c with
    | .ok bytes c' => (c.serverSeq.toNat - first, bytes) :: readLog crypto first bufs c'
    | .error _ c' => readLog crypto first bufs c'

/-- The bytes of the server's records, from sequence number `seq` on. -/
def wire (crypto : Crypto) (key iv : List UInt8) : Nat → List SentRecord → List UInt8
  | _, [] => []
  | seq, r :: records =>
    recordBytes r.record.contentType
        (r.nonce ++ crypto.encrypt key (iv ++ r.nonce) (r.aad seq) r.record.data) ++
      wire crypto key iv (seq + 1) records

/-- A server that encrypts `records` of application data after `earlier` ones. -/
structure AppServer (crypto : Crypto) (key iv : List UInt8) (earlier records : List SentRecord) : Prop where
  authentic : Authentic crypto key iv (earlier ++ records)
  decrypts : ∀ (i : Nat) (r : SentRecord), (earlier ++ records)[i]? = some r →
    crypto.decrypt key (iv ++ r.nonce) (r.aad i) (crypto.encrypt key (iv ++ r.nonce) (r.aad i) r.record.data) =
      some r.record.data
  unwrapped : (earlier ++ records).length < 2 ^ 64
  application : ∀ r ∈ records, r.record.contentType = contentTypeApplicationData
  nonce_length : ∀ r ∈ records, r.nonce.length = gcmExplicitNonceSize
  size : ∀ r ∈ records, r.record.data.length ≤ maxPlaintext

section Reads

variable {crypto : Crypto} {c : Tls12Connection} {earlier records : List SentRecord} {t : Nat}

theorem read_spec (crypto : Crypto) (n : Nat) (c : Tls12Connection) :
    wp (read crypto n) (fun bytes c' => ∃ s record nonce ciphertext, c' = c.accepted s ∧
        Opened crypto c record nonce ciphertext s.incoming ∧ bytes = record.data.take n)
      (fun _ c' => ∃ s, c' = c.withSocket s ∨ c' = c.accepted s ∧ ∃ record nonce ciphertext,
        Opened crypto c record nonce ciphertext s.incoming ∧ record.contentType ≠ contentTypeApplicationData) c := by
  simp only [read, wp_bind, wp_failIf]
  refine wp_mono (recvEncryptedRecord_spec crypto c) ?_ ?_
  · rintro record c' ⟨s, nonce, ciphertext, rfl, opened⟩
    have other : ∀ type, record.contentType = type → type ≠ contentTypeApplicationData →
        ∃ s', c.accepted s = c.withSocket s' ∨ c.accepted s = c.accepted s' ∧ ∃ record nonce ciphertext,
          Opened crypto c record nonce ciphertext s'.incoming ∧ record.contentType ≠ contentTypeApplicationData :=
      fun type same differs => ⟨s, .inr ⟨rfl, record, nonce, ciphertext, opened, by rwa [same]⟩⟩
    refine ⟨fun alert => other _ alert (by decide), fun _ => ⟨fun unlike => other _ rfl unlike, fun _ => ?_⟩⟩
    refine ⟨s, record, nonce, ciphertext, rfl, opened, ?_⟩
    rcases Nat.le_total record.data.length n with long | small
    · rw [Nat.min_eq_left long, take_length, take_of_length_le long]
    · rw [Nat.min_eq_right small]
  · rintro e c' ⟨-, s, rfl⟩
    exact ⟨s, .inl rfl⟩

section

variable (server : AppServer crypto c.serverWriteKey c.serverWriteIv earlier records)
include server

theorem AppServer.peer : Peer crypto c (earlier ++ records) := ⟨server.authentic, server.unwrapped⟩

section

variable (count : c.serverSeq.toNat = earlier.length + t)
include count

/-- What is accepted is the record whose turn it is, and it is application data. -/
theorem AppServer.opened {record : TlsRecord} {nonce ciphertext rest : List UInt8}
    (opened : Opened crypto c record nonce ciphertext rest) :
    (records.map (·.record.data))[t]? = some record.data ∧ record.contentType = contentTypeApplicationData ∧
      (c.serverSeq + 1).toNat = earlier.length + (t + 1) := by
  obtain ⟨r, there, rfl⟩ := server.peer.next opened
  have next := server.peer.count there
  rw [count, getElem?_append_right (by omega), Nat.add_sub_cancel_left] at there
  refine ⟨by rw [getElem?_map, there, Option.map_some], server.application r (mem_of_getElem? there), ?_⟩
  omega

theorem AppServer.takes (bufs : List Nat) :
    Takes (records.map (·.record.data)) t bufs (readLog crypto earlier.length bufs c) := by
  induction bufs generalizing c t with
  | nil => exact .nil t
  | cons n bufs ih =>
    have spec := read_spec crypto n c
    rw [readLog]
    cases outcome : read crypto n c with
    | ok bytes c' =>
      obtain ⟨s, record, nonce, ciphertext, rfl, opened, rfl⟩ := wp_of_ok spec outcome
      obtain ⟨here, -, next⟩ := server.opened count opened
      rw [count, Nat.add_sub_cancel_left]
      exact .took here (ih server next)
    | error e c' =>
      obtain ⟨s, rfl | ⟨rfl, record, nonce, ciphertext, opened, unlike⟩⟩ := wp_of_error spec outcome
      · exact .failed (ih server count)
      · exact (unlike (server.opened count opened).2.1).elim

theorem AppServer.next_opened {r : SentRecord} (there : records[t]? = some r) :
    ∃ ciphertext, ∀ s : BlockingTcpSocket,
      s.incoming = wire crypto c.serverWriteKey c.serverWriteIv (earlier.length + t) (records.drop t) →
      Opened crypto (c.withSocket s) r.record r.nonce ciphertext
        (wire crypto c.serverWriteKey c.serverWriteIv (earlier.length + (t + 1)) (records.drop (t + 1))) := by
  have member := mem_of_getElem? there
  have nonce := server.nonce_length r member
  have size := server.size r member
  have at_t : (earlier ++ records)[earlier.length + t]? = some r := by
    rwa [getElem?_append_right (by omega), Nat.add_sub_cancel_left]
  have number : UInt64.ofNat (earlier.length + t) = c.serverSeq := by
    rw [← count, UInt64.ofNat_toNat]
  obtain ⟨inside, here⟩ := List.getElem?_eq_some_iff.mp there
  refine ⟨crypto.encrypt c.serverWriteKey (c.serverWriteIv ++ r.nonce) (r.aad (earlier.length + t)) r.record.data,
    fun s incoming => ⟨nonce, ?_, ?_⟩⟩
  · rw [withSocket_socket, incoming, drop_eq_getElem_cons inside, here]
    apply carries_recordBytes
    rw [length_append, nonce, crypto.encrypt_length]
    simp only [gcmExplicitNonceSize, gcmTagSize, maxPlaintext] at size ⊢
    omega
  · have opens := server.decrypts _ r at_t
    rw [SentRecord.aad, number] at opens ⊢
    exact opens

end

end

theorem read_prompt {record : TlsRecord} {nonce ciphertext rest outgoing stream : List UInt8} {polls : List Poll}
    (socket : c.socket = ⟨.prompt 65535 :: .prompt 65535 :: polls, stream, outgoing⟩)
    (opened : Opened crypto c record nonce ciphertext rest)
    (application : record.contentType = contentTypeApplicationData)
    (n : Nat) : read crypto n c = .ok (record.data.take n) (c.accepted ⟨polls, rest, outgoing⟩) := by
  have short := opened.carried.choose_spec.2.1
  have some : 0 < (nonce ++ ciphertext).length := by
    rw [length_append, opened.nonce_length, gcmExplicitNonceSize]
    omega
  obtain ⟨header, five, split, type, length⟩ := opened.carried.header
  rw [socket] at split
  dsimp only at short
  subst split
  have first := readExact_prompt (by omega) (by omega) socket
  rw [five] at first
  have received := recvEncryptedRecord_of_reads opened first type length
    (readExact_prompt (by omega) some (Tls12Connection.withSocket_socket _ _))
  rw [read, bind_ok _ received, failIf_false _ (by rw [application]; decide),
    failIf_false _ (not_not.mpr application)]
  rcases Nat.le_total record.data.length n with long | small
  · rw [Nat.min_eq_left long, take_length, take_of_length_le long]
    rfl
  · rw [Nat.min_eq_right small]
    rfl

theorem AppServer.takes_happens {bufs : List Nat} {log : List (Nat × List UInt8)}
    (takes : Takes (records.map (·.record.data)) t bufs log) (outgoing : List UInt8)
    (server : AppServer crypto c.serverWriteKey c.serverWriteIv earlier records)
    (count : c.serverSeq.toNat = earlier.length + t) :
    ∃ polls, readLog crypto earlier.length bufs (c.withSocket ⟨polls, wire crypto c.serverWriteKey c.serverWriteIv
      (earlier.length + t) (records.drop t), outgoing⟩) = log := by
  induction takes generalizing c with
  | nil t => exact ⟨[], rfl⟩
  | @failed t n bufs log _ ih =>
    obtain ⟨polls, rest⟩ := ih server count
    refine ⟨.late :: polls, ?_⟩
    exact rest
  | @took t n bufs log plaintext here _ ih =>
    rw [getElem?_map] at here
    obtain ⟨r, there, rfl⟩ := Option.map_eq_some_iff.mp here
    have application := server.application r (mem_of_getElem? there)
    obtain ⟨ciphertext, opened⟩ := server.next_opened count there
    have next := (server.opened (c := c.withSocket ⟨[], _, outgoing⟩) count (opened _ rfl)).2.2
    obtain ⟨polls, rest⟩ := ih (c := c.accepted ⟨[], [], outgoing⟩) server next
    refine ⟨.prompt 65535 :: .prompt 65535 :: polls, ?_⟩
    rw [readLog, read_prompt (withSocket_socket _ _) (opened _ rfl) application n]
    rw [withSocket_serverSeq, count, Nat.add_sub_cancel_left]
    exact congrArg _ rest

end Reads

/-- The bytes that reads return are a prefix of what the server sent, with no byte skipped, for every behaviour of the
network, exactly if no record can meet a buffer smaller than it while a later byte can still be read. -/
theorem app_bytes_kept (crypto : Crypto) (c : Tls12Connection) (earlier records : List SentRecord)
    (server : AppServer crypto c.serverWriteKey c.serverWriteIv earlier records)
    (count : c.serverSeq.toNat = earlier.length) (bufs : List Nat) (nonzero : ∀ n ∈ bufs, 0 < n) :
    (∀ polls, Unskipped (records.map (·.record.data)) (readLog crypto earlier.length bufs
      (c.withSocket ⟨polls, wire crypto c.serverWriteKey c.serverWriteIv earlier.length records, c.socket.outgoing⟩))) ↔
      Roomy (records.map (·.record.data)) bufs := by
  rw [← unskipped_iff_roomy nonzero]
  constructor
  · intro unskipped log takes
    obtain ⟨polls, happens⟩ := AppServer.takes_happens takes c.socket.outgoing server count
    rw [← happens]
    exact unskipped polls
  · intro unskipped polls
    have start : c.serverSeq.toNat = earlier.length + 0 := count
    exact unskipped _ (AppServer.takes (c := c.withSocket ⟨polls, _, _⟩) server start bufs)

/-- A server that sends three bytes in a record and one in the next. -/
def cutRecords : List SentRecord := [⟨⟨23, [1, 2, 3]⟩, toBe 8 0⟩, ⟨⟨23, [4]⟩, toBe 8 1⟩]

theorem cutRecords_server :
    AppServer (tableCrypto (replicate 4 0) cutRecords) (replicate 16 0) (replicate 4 0) [] cutRecords where
  authentic := tableCrypto_authentic _ _ _
  decrypts i r there := by
    match i with
    | 0 =>
      cases there
      decide +kernel
    | 1 =>
      cases there
      decide +kernel
    | i + 2 => cases there
  unwrapped := by decide
  application := by decide
  nonce_length := by decide
  size := by decide

/-- Buffers of three bytes and of one are enough for them. -/
theorem app_bytes_kept_wide :
    Roomy (cutRecords.map (·.record.data)) [3, 1] ∧
      ∀ polls, Unskipped (cutRecords.map (·.record.data)) (readLog (tableCrypto (replicate 4 0) cutRecords) 0 [3, 1]
        ((new ⟨[], [], []⟩ []).withSocket ⟨polls, wire (tableCrypto (replicate 4 0) cutRecords)
          (replicate 16 0) (replicate 4 0) 0 cutRecords, []⟩)) := by
  have roomy : Roomy (cutRecords.map (·.record.data)) [3, 1] := by
    intro i j k _ order _ piece later n here there some room buf
    have first : i = 0 := by
      have := (List.getElem?_eq_some_iff.mp there).1
      simp [cutRecords] at this
      omega
    have call : k = 0 := by
      rw [length_cons, length_cons, length_nil] at room
      omega
    subst first call
    cases here
    cases buf
    decide
  exact ⟨roomy,
    (app_bytes_kept _ (.new ⟨[], [], []⟩ []) [] cutRecords cutRecords_server rfl [3, 1] (by decide)).mpr roomy⟩

/-- Two reads into buffers of two bytes skip the third byte. -/
theorem cut_record_skips : let crypto := tableCrypto (replicate 4 0) cutRecords
    let c := new ⟨replicate 4 (.prompt 65535),
      wire crypto (replicate 16 0) (replicate 4 0) 0 cutRecords, []⟩ []
    readLog crypto 0 [2, 2] c = [(0, [1, 2]), (1, [4])] ∧
      ¬Unskipped (cutRecords.map (·.record.data)) (readLog crypto 0 [2, 2] c) := by
  intro crypto c
  have log : readLog crypto 0 [2, 2] c = [(0, [1, 2]), (1, [4])] := by decide +kernel
  refine ⟨log, fun unskipped => ?_⟩
  rw [log] at unskipped
  have whole := unskipped.2 1 1 [4] rfl (by decide)
  revert whole
  decide

end HavyOs.Tls
