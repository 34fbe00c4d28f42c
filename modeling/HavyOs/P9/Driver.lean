import HavyOs.P9.Path
import HavyOs.P9.Server

/-!
# The 9P driver

The operations of `VirtioP9Driver` over the queue, against a conforming server that answers while
the driver waits.
-/

namespace HavyOs.P9

open Lib List Server

structure VirtioP9Driver where
  queue : Queue Server
  msize : UInt32
  rootFid : UInt32
  nextFid : UInt32
  nextTag : UInt32

namespace VirtioP9Driver

/-- `create_driver`. -/
def new (server : Server) : VirtioP9Driver where
  queue := .new server
  msize := UInt32.ofNat defaultMsize
  rootFid := 0
  nextFid := 1
  nextTag := 1

abbrev server (d : VirtioP9Driver) : Server := d.queue.device

end VirtioP9Driver

abbrev Drive := EStateM String VirtioP9Driver

def allocFid : Drive UInt32 := do
  let d ← get
  set { d with nextFid := d.nextFid + 1 }
  pure d.nextFid

def allocTag : Drive Nat := do
  let d ← get
  set { d with nextTag := d.nextTag + 1 }
  pure (d.nextTag.toNat % 65536)

/-- A message is built and handed to `transact`. -/
def send (msgType : UInt8) (tag : Nat) (body : List UInt8) : Drive (List UInt8) := do
  let d ← get
  zoom (·.queue) (fun q d => { d with queue := q })
    (transact Server.handle d.msize.toNat (message msgType tag body) prompt)

/-- The field of four bytes behind the header. -/
def countField (resp : List UInt8) : Nat := fromLe ((resp.drop 7).take 4)

def negotiateVersion : Drive Unit := do
  let tag ← allocTag
  let d ← get
  let resp ← send tVersion tag (versionBody d.msize.toNat)
  if 11 ≤ resp.length then
    modify fun d => { d with msize := min (UInt32.ofNat (countField resp)) (UInt32.ofNat defaultMsize) }

def attach : Drive Unit := do
  let tag ← allocTag
  let _ ← send tAttach tag (attachBody 0)
  modify fun d => { d with rootFid := 0 }

/-- `init`, once the device is set up. -/
def init : Drive Unit := do
  negotiateVersion
  attach

def walk (path : List UInt8) : Drive UInt32 := do
  let tag ← allocTag
  let d ← get
  let newFid ← allocFid
  let resp ← send tWalk tag (walkBody d.rootFid newFid (components path))
  if 9 ≤ resp.length then
    if fromLe ((resp.drop 7).take 2) ≠ (components path).length then throw "Path not found"
  pure newFid

variable (fid : UInt32)

/-- `open`. -/
def openFid (flags : Nat) : Drive Unit := do
  let tag ← allocTag
  let _ ← send tLopen tag (lopenBody fid flags)

def lcreate (dirFid : UInt32) (name : List UInt8) : Drive UInt32 := do
  let tag ← allocTag
  let _ ← send tLcreate tag (lcreateBody dirFid name)
  pure dirFid

def read (offset : UInt64) (count : UInt32) : Drive (List UInt8) := do
  let tag ← allocTag
  let resp ← send tRead tag (readBody fid offset.toNat count.toNat)
  if 11 ≤ resp.length then pure ((resp.take (min (11 + countField resp) resp.length)).drop 11)
  else pure []

def write (offset : UInt64) (data : List UInt8) : Drive Nat := do
  let tag ← allocTag
  let resp ← send tWrite tag (writeBody fid offset.toNat data)
  if 11 ≤ resp.length then pure (countField resp)
  else pure 0

def clunk : Drive Unit := do
  let tag ← allocTag
  let _ ← send tClunk tag (clunkBody fid)

/-! ## What a request does -/

/-- `d'` is `d` after a request: the server is now `s`. -/
structure VirtioP9Driver.Served (d d' : VirtioP9Driver) (s : Server) : Prop where
  quiet : d'.queue.Quiet
  server : d'.server = s
  msize : d'.msize = d.msize
  rootFid : d'.rootFid = d.rootFid
  nextFid : d'.nextFid = d.nextFid

/-- The driver and the server agree on the message size, and nothing is under way. -/
structure VirtioP9Driver.Ready (d : VirtioP9Driver) : Prop where
  quiet : d.queue.Quiet
  agreed : d.msize.toNat = d.server.msize
  small : d.server.msize ≤ defaultMsize

/-- The driver has a root. -/
structure VirtioP9Driver.Attached (d : VirtioP9Driver) : Prop extends d.Ready where
  root : d.server.fids d.rootFid = some ⟨rootIno, none⟩

open VirtioP9Driver

variable {d d' : VirtioP9Driver} {s : Server}

theorem VirtioP9Driver.Ready.served (ready : d.Ready) (served : d.Served d' s) (same : s.msize = d.server.msize) :
    d'.Ready := by
  constructor
  · exact served.quiet
  · rw [served.msize, served.server, same, ready.agreed]
  · rw [served.server, same]
    exact ready.small

theorem VirtioP9Driver.Attached.served (attached : d.Attached) (served : d.Served d' s)
    (same : s.msize = d.server.msize)
    (fids : s.fids = d.server.fids) : d'.Attached := by
  refine ⟨attached.toReady.served served same, ?_⟩
  rw [served.server, served.rootFid, fids]
  exact attached.root

/-- The reply to a request that is performed is returned; otherwise there is an error. -/
theorem wp_send (ready : d.Ready) (nextTag : UInt32) {msgType : UInt8} {tag : Nat} {body : List UInt8}
    {request : Option Tmessage} (decoded : decode ((message msgType tag body).take d.server.msize) = request) :
    wp (send msgType tag body)
      (fun resp d' => ∃ type fields s' tag', request.bind d.server.allowed = some (type, fields, s') ∧
        resp = message type tag' fields ∧ d.Served d' s'.tick)
      (fun _ d' => request.bind d.server.allowed = none ∧ d.Served d' d.server.tick)
      { d with nextTag := nextTag } := by
  have small := ready.small
  rw [send, wp_bind, wp_get, wp_zoom, ready.agreed, wp]
  cases outcome : request.bind d.server.allowed with
  | some done =>
    obtain ⟨type, fields, s'⟩ := done
    obtain ⟨t, -, done⟩ := Option.bind_eq_some_iff.mp outcome
    obtain ⟨-, performed, fits⟩ := allowed_eq done
    have served : d.server.handle ((message msgType tag body).take d.server.msize) =
        (some (message type (tagField ((message msgType tag body).take d.server.msize)) fields), s'.tick) := by
      rw [handle, decoded, outcome]
    have run := transact_answered ready.quiet served (by rw [length_message]; exact fits)
      (by rw [length_message, size_message (by rw [defaultMsize] at small; omega)]) (by rw [length_message]; omega)
    rw [type_message, if_neg (perform_type performed)] at run
    rw [run]
    exact ⟨type, fields, s', _, rfl, rfl, ready.quiet.reanswered small _ _ (by rw [length_message]; exact fits), rfl,
      rfl, rfl, rfl⟩
  | none =>
    by_cases room : 11 ≤ d.server.msize
    · have served : d.server.handle ((message msgType tag body).take d.server.msize) =
          (some (message rLerror (tagField ((message msgType tag body).take d.server.msize)) (toLe 4 eio)),
            d.server.tick) := by
        rw [handle, decoded, outcome]
        simp only [if_pos room]
      have fits : (message rLerror (tagField ((message msgType tag body).take d.server.msize)) (toLe 4 eio)).length ≤
          d.server.msize := by
        exact room
      have run := transact_answered ready.quiet served fits (by rw [length_message, size_message (by decide)])
        (by rw [length_message]; omega)
      rw [run]
      exact ⟨rfl, ready.quiet.reanswered small _ _ fits, rfl, rfl, rfl, rfl⟩
    · have served : d.server.handle ((message msgType tag body).take d.server.msize) = (none, d.server.tick) := by
        rw [handle, decoded, outcome]
        simp only [if_neg room]
      rw [transact_dropped ready.quiet small served]
      exact ⟨rfl, ready.quiet.resubmitted small _ _, rfl, rfl, rfl, rfl⟩

/-! ## What each operation does -/

section Operations

variable {fid : UInt32} {i : Ino} {flags : Nat} {contents : List UInt8}

theorem fromLe_field {n x : Nat} {rest : List UInt8} (small : x < 256 ^ n) :
    fromLe ((toLe n x ++ rest).take n) = x := by
  rw [take_append_of_le_length (by simp), take_of_length_le (by simp), fromLe_toLe, Nat.mod_eq_of_lt small]

/-- A walk binds the new fid to the node that the path leads to, or changes nothing. -/
theorem wp_walk (attached : d.Attached) {path : List UInt8} (fits : path.length ≤ ramSize + 1) :
    wp (walk path)
      (fun fid d' => d'.Ready ∧ fid = d.nextFid ∧ ∃ j, d.server.Reaches d.rootFid d.nextFid (components path) j ∧
        d'.server = (d.server.setFid fid (some ⟨j, none⟩)).tick)
      (fun _ d' => (d'.Attached ∧ d'.server = d.server.tick ∧ d'.rootFid = d.rootFid ∧ d'.nextFid = d.nextFid + 1) ∧
        ∀ j, ¬d.server.Reaches d.rootFid d.nextFid (components path) j) d := by
  have bound := attached.root
  have agreed := attached.small
  rw [defaultMsize] at agreed
  rw [ramSize] at fits
  have short := length_walkBody d.rootFid d.nextFid path
  have attached' : ({ d with nextFid := d.nextFid + 1 } : VirtioP9Driver).Attached := { attached with }
  simp only [walk, allocTag, allocFid, wp_bind, wp_get, wp_set, wp_pure]
  refine wp_mono
    (wp_send attached'.toReady (d.nextTag + 1) (decode_walk (by omega) (show d.server.msize < 65536 by omega))) ?_ ?_
  · rintro _ d' ⟨_, _, _, _, outcome, rfl, served⟩
    split_ifs at outcome with whole
    · obtain ⟨may, performed, room⟩ := allowed_eq outcome
      change _ ≤ d.server.msize at whole room
      obtain ⟨free, ⟨_, rfl, qids⟩, target⟩ := perform_walk bound performed
      have le := Tree.length_trail_le (t := d.server.tree) (i := rootIno) (components path)
      have few := (lengths_lt_walkBody d.rootFid d.nextFid (components path)).1
      rw [length_message, length_append, toLe_length, if_pos (by omega), drop_message, fromLe_field (by omega)]
      have all := Tree.length_trail (t := d.server.tree) (i := rootIno) (components path)
      obtain ⟨j, leads, rfl⟩ | ⟨nowhere, rfl⟩ := target
      · rw [leads] at all
        have every := all.mpr rfl
        rw [length_append, toLe_length, qids, every] at room
        rw [if_neg (not_not.mpr every)]
        exact ⟨attached'.toReady.served served rfl, rfl, j, ⟨may, free, whole, by omega, leads⟩, served.server⟩
      · rw [nowhere] at all
        rw [if_pos (mt all.mp (by simp))]
        refine ⟨⟨attached'.served served rfl rfl, served.server, served.rootFid, served.nextFid⟩, fun j reaches => ?_⟩
        cases nowhere.symm.trans reaches.leads
    · cases outcome
  · rintro e d' ⟨outcome, served⟩
    refine ⟨⟨attached'.served served rfl rfl, served.server, served.rootFid, served.nextFid⟩, fun j reaches => ?_⟩
    rw [if_pos reaches.asked] at outcome
    exact reaches.allowed bound outcome

theorem wp_openFid (ready : d.Ready) (bound : d.server.fids fid = some ⟨i, none⟩) (small : flags < 2 ^ 32) :
    wp (openFid fid flags)
      (fun _ d' => d'.Ready ∧ d.server.choice.refuse = false ∧ 24 ≤ d.server.msize ∧
        (d.server.tree.node i = .dir ∧ flags % 4 = oRdonly ∨
          ∃ contents, d.server.tree.contents i = some contents ∧ d'.server = (d.server.openFile fid i flags).tick))
      (fun _ _ => d.server.choice.refuse = false → 24 ≤ d.server.msize → d.server.tree.contents i = none) d := by
  simp only [openFid, allocTag, wp_bind, wp_get, wp_set, wp_pure]
  refine wp_mono (wp_send ready (d.nextTag + 1) (decode_lopen small)) ?_ ?_
  · rintro _ d' ⟨_, _, s', _, outcome, rfl, served⟩
    split at outcome
    · obtain ⟨may, performed, _⟩ := allowed_eq outcome
      obtain ⟨_, opened⟩ := perform_lopen bound performed
      have same : s'.msize = d.server.msize := by
        obtain ⟨-, -, rfl⟩ | ⟨-, -, rfl⟩ := opened <;> rfl
      refine ⟨ready.served served same, may, by omega, ?_⟩
      obtain ⟨dir, reads, -⟩ | ⟨contents, file, rfl⟩ := opened
      · exact .inl ⟨dir, reads⟩
      · exact .inr ⟨contents, file, served.server⟩
    · cases outcome
  · rintro e d' ⟨outcome, -⟩ may room
    cases file : d.server.tree.contents i with
    | none => rfl
    | some contents =>
      rw [if_pos (by omega), Option.bind_some, allowed_lopen bound may room file] at outcome
      cases outcome

theorem wp_lcreate (ready : d.Ready) (bound : d.server.fids fid = some ⟨i, none⟩) {name : List UInt8}
    (fits : name.length ≤ ramSize) :
    wp (lcreate fid name)
      (fun fid' d' => d'.Ready ∧ d.server.Creates i name ∧ d'.server.Alike d.server.tick ∧ fid' = fid ∧ ∃ j,
        d'.server.fids fid = some ⟨j, some createFlags⟩ ∧ d'.server.tree.contents j = some [] ∧
        ∀ names, d.server.tree.walk rootIno names = some i → d'.server.tree.walk rootIno (names ++ [name]) = some j)
      (fun _ _ => ¬d.server.Creates i name) d := by
  have agreed := ready.small
  rw [defaultMsize] at agreed
  rw [ramSize] at fits
  have length : (lcreateBody fid name).length = 18 + name.length := length_lcreateBody
  simp only [lcreate, allocTag, wp_bind, wp_get, wp_set, wp_pure]
  refine wp_mono (wp_send ready (d.nextTag + 1) (decode_lcreate (by omega) (by omega))) ?_ ?_
  · rintro _ d' ⟨_, _, s', _, outcome, rfl, served⟩
    split at outcome
    · obtain ⟨may, performed, _⟩ := allowed_eq outcome
      obtain ⟨-, alike, ⟨isDir, valid, file⟩, j, there⟩ := perform_lcreate bound (by decide) performed
      refine ⟨ready.served served alike.msize, ⟨may, by omega, isDir, valid, file⟩, ?_, trivial, j, ?_⟩
      · rw [served.server]
        exact ⟨alike.msize, alike.choices, congrArg (· + 1) alike.time⟩
      · rw [served.server]
        exact there
    · cases outcome
  · rintro e d' ⟨outcome, -⟩ creates
    have room := creates.room
    rw [if_pos (by omega)] at outcome
    exact creates.allowed bound outcome

/-- What the server takes of `data`, at most what came of it. -/
def Server.accepted (s : Server) (data : List UInt8) : List UInt8 :=
  ((data.take (s.msize - 23)).take (data.length % 2 ^ 32)).take s.choice.limit

theorem Server.Alike.accepted {s s' : Server} (alike : s.Alike s') (data : List UInt8) :
    s.accepted data = s'.accepted data := by
  rw [Server.accepted, Server.accepted, alike.choice, alike.msize]

theorem overwrite_zero (contents bytes : List UInt8) :
    Server.overwrite contents 0 bytes = bytes ++ contents.drop bytes.length := by
  rw [Server.overwrite]
  split
  · rename_i none
    simp [none]
  · simp

/-- A write puts the bytes that the server takes into the file, unless it is refused. -/
theorem wp_write (ready : d.Ready) (bound : d.server.fids fid = some ⟨i, some flags⟩) (writes : flags % 4 ≠ oRdonly)
    (file : d.server.tree.contents i = some contents) (room : 23 ≤ d.server.msize) (data : List UInt8) :
    wp (write fid 0 data)
      (fun _ d' => d'.Ready ∧ d.server.choice.refuse = false ∧
        d'.server.tree =
        d.server.tree.store i (d.server.accepted data ++ contents.drop (d.server.accepted data).length))
      (fun _ _ => d.server.choice.refuse = true) d := by
  have performed : d.server.perform d.server.choice.limit
      (.write fid (0 : UInt64).toNat ((data.take (d.server.msize - 23)).take (data.length % 2 ^ 32))) =
      some (rWrite, toLe 4 (d.server.accepted data).length,
        { d.server with tree :=
        d.server.tree.store i (d.server.accepted data ++ contents.drop (d.server.accepted data).length) }) := by
    simp only [perform, bound, file, if_neg writes, UInt64.toNat_zero, overwrite_zero]
    rfl
  simp only [write, allocTag, wp_bind, wp_get, wp_set, wp_pure]
  refine wp_mono (wp_send ready (d.nextTag + 1) (decode_write (by decide) room)) ?_ ?_
  · rintro _ d' ⟨_, _, _, _, outcome, rfl, served⟩
    obtain ⟨may, done, -⟩ := allowed_eq outcome
    obtain ⟨rfl, rfl, rfl⟩ := performed.symm.trans done
    exact ⟨ready.served served rfl, may, congrArg tree served.server⟩
  · rintro e d' ⟨outcome, -⟩
    by_contra may
    rw [Option.bind_some, allowed_of_perform (by simpa using may) performed (by rw [toLe_length]; omega)] at outcome
    cases outcome

theorem payload_message {type : UInt8} {tag : Nat} {data : List UInt8} (short : data.length < 2 ^ 32) :
    let resp := message type tag (toLe 4 data.length ++ data)
    (resp.take (min (11 + countField resp) resp.length)).drop 11 = data := by
  intro resp
  have length : resp.length = 11 + data.length := by
    rw [length_message, length_append, toLe_length]
    omega
  have count : countField resp = data.length := by
    rw [countField, drop_message, fromLe_field short]
  rw [take_of_length_le (by omega), show 11 = 7 + 4 from rfl, ← drop_drop, drop_message,
    drop_left' (toLe_length _ _)]

def VirtioP9Driver.given (d : VirtioP9Driver) (contents : List UInt8) (offset count : Nat) : List UInt8 :=
  ((contents.drop offset).take (min count (d.server.msize - 11))).take (d.server.choice.limit + 1)

/-- A read returns what the server gives, unless it is refused. -/
theorem wp_read (ready : d.Ready) (bound : d.server.fids fid = some ⟨i, some flags⟩) (reads : flags % 4 ≠ oWronly)
    (file : d.server.tree.contents i = some contents) (room : 23 ≤ d.server.msize) (offset : UInt64) (count : UInt32) :
    wp (read fid offset count)
      (fun chunk d' => d'.Ready ∧ d.server.choice.refuse = false ∧ d'.server = d.server.tick ∧ d'.msize = d.msize ∧
        chunk = d.given contents offset.toNat count.toNat)
      (fun _ d' => d'.Ready ∧ d.server.choice.refuse = true ∧ d'.server = d.server.tick) d := by
  have small := ready.small
  rw [defaultMsize] at small
  have short : (d.given contents offset.toNat count.toNat).length ≤ d.server.msize - 11 := by
    simp only [given, length_take]
    omega
  have performed : d.server.perform d.server.choice.limit (.read fid offset.toNat count.toNat) =
      some (rRead,
      toLe 4 (d.given contents offset.toNat count.toNat).length ++ d.given contents offset.toNat count.toNat,
        d.server) := by
    simp only [perform, bound, file, if_neg reads]
    rfl
  simp only [read, allocTag, wp_bind, wp_get, wp_set, wp_pure]
  refine wp_mono (wp_send ready (d.nextTag + 1) (decode_read offset.toNat_lt count.toNat_lt)) ?_ ?_
  · rintro _ d' ⟨_, _, _, _, outcome, rfl, served⟩
    rw [if_pos room] at outcome
    obtain ⟨may, done, -⟩ := allowed_eq outcome
    obtain ⟨rfl, rfl, rfl⟩ := performed.symm.trans done
    rw [payload_message (by omega)]
    exact ⟨ready.served served rfl, may, served.server, served.msize, rfl⟩
  · rintro e d' ⟨outcome, served⟩
    refine ⟨ready.served served rfl, ?_, served.server⟩
    by_contra may
    rw [if_pos room, Option.bind_some,
      allowed_of_perform (by simpa using may) performed (by rw [length_append, toLe_length]; omega)] at outcome
    cases outcome

theorem wp_clunk (ready : d.Ready) :
    wp (clunk fid) (fun _ d' => d'.server.tree = d.server.tree) (fun _ d' => d'.server.tree = d.server.tree) d := by
  simp only [clunk, allocTag, wp_bind, wp_get, wp_set, wp_pure]
  refine wp_mono (wp_send ready (d.nextTag + 1) decode_clunk) ?_ ?_
  · rintro _ d' ⟨_, _, _, _, outcome, rfl, served⟩
    rw [served.server]
    split at outcome
    · obtain ⟨-, done, -⟩ := allowed_eq outcome
      rw [perform] at done
      split at done
      · obtain ⟨-, -, rfl⟩ := done
        rfl
      · cases done
    · cases outcome
  · rintro e d' ⟨-, served⟩
    rw [served.server]
    rfl

theorem wp_negotiateVersion (ready : d.Ready) (full : d.server.msize = defaultMsize) :
    wp negotiateVersion
      (fun _ d' => d'.Ready ∧ d.server.choice.refuse = false ∧
        d'.server = { d.server with msize := min defaultMsize d.server.offer, fids := fun _ => none }.tick)
      (fun _ d' => d.server.choice.refuse = true ∧ d'.server = d.server.tick) d := by
  have decoded : ∀ tag, decode ((message tVersion tag (versionBody d.msize.toNat)).take d.server.msize) =
      some (.version defaultMsize) := fun tag => by
    rw [ready.agreed, full, decode_take (by decide) (by decide) fun _ => rfl]
    rfl
  simp only [negotiateVersion, allocTag, wp_bind, wp_get, wp_set, wp_pure]
  refine wp_mono (wp_send ready (d.nextTag + 1) (decoded _)) ?_ ?_
  · intro _ d' answered
    obtain ⟨_, _, _, _, outcome, rfl, served⟩ := answered
    obtain ⟨may, performed, -⟩ := allowed_eq outcome
    obtain ⟨-, rfl, rfl⟩ := performed
    have small : min defaultMsize d.server.offer < 256 ^ 4 := by rw [defaultMsize]; omega
    rw [if_pos (by simp; omega), wp_modify, countField, drop_message, fromLe_field small]
    refine ⟨⟨served.quiet, ?_, ?_⟩, may, served.server⟩
    · have size : (UInt32.ofNat (min defaultMsize d.server.offer)).toNat = min defaultMsize d.server.offer :=
        UInt32.toNat_ofNat_of_lt' small
      show (if _ then _ else _ : UInt32).toNat = d'.server.msize
      rw [served.server, if_pos (by rw [UInt32.le_iff_toNat_le, size]; exact Nat.min_le_left ..)]
      exact size
    · rw [served.server]
      exact Nat.min_le_left ..
  · intro _ d' answered
    obtain ⟨outcome, served⟩ := answered
    refine ⟨?_, served.server⟩
    by_contra may
    rw [Option.bind_some,
      allowed_of_perform (by simpa using may) rfl (by rw [full]; simp [text, protocolVersion, defaultMsize])] at outcome
    cases outcome

theorem wp_attach (ready : d.Ready) (unbound : d.server.fids 0 = none) :
    wp attach
      (fun _ d' => d'.Attached ∧ d'.server.tree = d.server.tree ∧ d.server.choice.refuse = false ∧ 23 ≤ d.server.msize)
      (fun _ d' => d'.server.tree = d.server.tree ∧ (d.server.choice.refuse = true ∨ d.server.msize < 23)) d := by
  simp only [attach, allocTag, wp_bind, wp_get, wp_set, wp_pure]
  have performed : ∀ limit, d.server.perform limit (.attach 0) =
      some (rAttach, d.server.qid rootIno, d.server.setFid 0 (some ⟨rootIno, none⟩)) := fun limit => by
    simp only [perform, unbound]
  have decoded : ∀ tag, decode ((message tAttach tag (attachBody 0)).take d.server.msize) =
      if 23 ≤ d.server.msize then some (.attach 0) else none :=
    fun tag => decode_take (by decide) (by decide) fun _ => rfl
  refine wp_mono (wp_send ready (d.nextTag + 1) (decoded _)) ?_ ?_
  · intro _ d' answered
    obtain ⟨_, _, _, _, outcome, rfl, served⟩ := answered
    split_ifs at outcome with room
    · obtain ⟨may, done, -⟩ := allowed_eq outcome
      rw [performed] at done
      obtain ⟨-, -, rfl⟩ := done
      have kept := ready.served served rfl
      refine ⟨⟨⟨kept.quiet, kept.agreed, kept.small⟩, ?_⟩, ?_, may, room⟩
      · show d'.server.fids 0 = _
        rw [served.server, fids_tick, fids_setFid]
      · show d'.server.tree = _
        rw [served.server]
        rfl
    · cases outcome
  · intro _ d' answered
    obtain ⟨outcome, served⟩ := answered
    refine ⟨by rw [served.server]; rfl, ?_⟩
    by_contra may
    rw [not_or, Bool.not_eq_true, Nat.not_lt] at may
    rw [if_pos may.2, Option.bind_some, allowed_of_perform may.1 (performed _) (by simp [qid]; omega)] at outcome
    cases outcome

end Operations

/-! ## Mounting -/

section Mounting

theorem quiet_new (server : Server) : (Queue.new server).Quiet :=
  ⟨rfl, rfl, rfl, length_replicate, length_replicate⟩

/-- **Mounting.** `init` returns with a root exactly if the server refuses neither request and agrees to a message size
that has room for `Tattach`; the server's tree stays as it is. -/
theorem init_attaches (server : Server) :
    wp init
      (fun _ d => d.Attached ∧ d.server.tree = server.tree ∧ server.choice.refuse = false ∧
        server.tick.choice.refuse = false ∧ 23 ≤ server.offer)
      (fun _ d => d.server.tree = server.tree ∧
        (server.choice.refuse = true ∨ server.tick.choice.refuse = true ∨ server.offer < 23))
      (.new { server with msize := defaultMsize }) := by
  have ready : (VirtioP9Driver.new { server with msize := defaultMsize }).Ready :=
    ⟨quiet_new _, UInt32.toNat_ofNat_of_lt' (by decide), Nat.le_of_eq rfl⟩
  have fresh :
    (VirtioP9Driver.new { server with msize := defaultMsize }).server = { server with msize := defaultMsize } := rfl
  -- only the server of the new driver matters
  generalize VirtioP9Driver.new _ = d at ready fresh ⊢
  have negotiated := wp_negotiateVersion ready (by rw [fresh])
  rw [fresh] at negotiated
  rw [init, wp_bind]
  refine wp_mono negotiated ?_ ?_
  · intro _ d' ended
    obtain ⟨ready, may, now⟩ := ended
    refine wp_mono (wp_attach ready (by rw [now]; rfl)) ?_ ?_
    · intro _ d'' ended
      obtain ⟨attached, same, mayAttach, room⟩ := ended
      rw [now] at same mayAttach room
      exact ⟨attached, same, may, mayAttach, Nat.le_trans room (Nat.min_le_right ..)⟩
    · intro _ d'' ended
      obtain ⟨same, failed⟩ := ended
      rw [now] at same failed
      refine ⟨same, .inr (failed.imp_right fun small => ?_)⟩
      change min 8192 server.offer < 23 at small
      omega
  · intro _ d' ended
    obtain ⟨refused, now⟩ := ended
    exact ⟨by rw [now]; rfl, .inl refused⟩

end Mounting

/-! ## Open files -/

/-- `fid` is open on the file that `path` leads to. -/
structure VirtioP9Driver.Opened (d : VirtioP9Driver) (path : List UInt8) (fid : UInt32) (i : Ino) (flags : Nat)
    (contents : List UInt8) : Prop where
  ready : d.Ready
  room : 24 ≤ d.server.msize
  bound : d.server.fids fid = some ⟨i, some flags⟩
  file : d.server.tree.contents i = some contents
  leads : d.server.tree.walk rootIno (components path) = some i

/-- A file that was walked to and opened is as it was, unless the flags empty it. -/
theorem Server.Opens.opened {path contents : List UInt8} {fid : UInt32} {i : Ino} {flags : Nat}
    (opens : d.server.Opens d.rootFid d.nextFid (components path) i) (file : d.server.tree.contents i = some contents)
    (keeps : ¬truncates flags) (ready : d'.Ready)
    (now : d'.server = ((d.server.setFid fid (some ⟨i, none⟩)).tick.openFile fid i flags).tick) :
    d'.Opened path fid i flags contents ∧ d'.server.Alike (d.server.ticks 2) := by
  refine ⟨⟨ready, ?_, ?_, ?_, ?_⟩, ?_⟩
  · rw [now]
    exact opens.room
  · rw [now, fids_tick, fids_openFile]
  · change (d.server.setFid fid (some ⟨i, none⟩)).tick.tree.contents i = _ at file
    rw [now, tree_tick, contents_openFile file, if_neg keeps]
  · rw [now, tree_tick, walk_openFile]
    exact opens.leads
  · rw [now]
    exact ⟨rfl, rfl, rfl⟩

def VirtioP9Driver.fileAt (d : VirtioP9Driver) (path : List UInt8) : Option (List UInt8) :=
  d.server.tree.lookup (components path)

/-! ## A small mount -/

def oneFile (contents : List UInt8) : Tree where
  child i name := if i = rootIno ∧ name = [97] then some 1 else none
  node i := if i = 0 then .dir else if i = 1 then .file contents else .absent
  next := 2
  root_dir := rfl
  child_dir is := by
    split_ifs at is with first
    cases is
    exact ⟨by rw [first.1]; rfl, by simp⟩
  absent {i} later := by
    have none : i ≠ 0 := Nat.ne_of_gt (Nat.lt_of_lt_of_le (by decide) later)
    have not : i ≠ 1 := Nat.ne_of_gt (Nat.lt_of_lt_of_le (by decide) later)
    rw [if_neg none, if_neg not]

/-- A driver that is mounted on `tree`. -/
def mounted (tree : Tree) (msize : Nat) (choices : Nat → Choice) : VirtioP9Driver where
  queue := .new
    { tree := tree
      fids := fun fid => if fid = 0 then some ⟨rootIno, none⟩ else none
      msize := msize
      offer := msize
      choices := choices
      time := 0 }
  msize := UInt32.ofNat msize
  rootFid := 0
  nextFid := 1
  nextTag := 3

theorem attached_mounted {tree : Tree} {msize : Nat} {choices : Nat → Choice} (small : msize ≤ defaultMsize) :
    (mounted tree msize choices).Attached := by
  refine ⟨⟨quiet_new _, ?_, small⟩, rfl⟩
  exact UInt32.toNat_ofNat_of_lt' (Nat.lt_of_le_of_lt small (by decide))

end HavyOs.P9
