import HavyOs.P9.Driver

/-!
# Writing a file over 9P

`write_file` of `fs/p9.rs`: it opens the file, or creates it, sends the data in one `Twrite` and
closes. An existing file is opened without `O_TRUNC`, the message is cut at the negotiated size and
the count in the reply is not looked at, so a write that succeeds may leave old bytes or miss new
ones.
-/

namespace HavyOs.P9

open Lib Server List

/-- The first part of `write_file`: a fid that is open for writing. -/
def openForWriting (path : List UInt8) : Drive UInt32 := do
  match ← attempt (walk path) with
  | some fid =>
    match ← attempt (openFid fid oWronly) with
    | some _ => pure fid
    | none =>
      let _ ← attempt (clunk fid)
      throw "Failed to open file"
  | none =>
    let (parent, filename) := splitParent path
    match ← attempt (walk parent) with
    | none => throw "Parent directory not found"
    | some parentFid =>
      match ← attempt (lcreate parentFid filename) with
      | some fid => pure fid
      | none =>
        let _ ← attempt (clunk parentFid)
        throw "Failed to create file"

variable (data : List UInt8)

def writeAndClose (fid : UInt32) : Drive Unit := do
  let result ← capture (write fid 0 data)
  let _ ← attempt (clunk fid)
  match result with
  | .ok _ => pure ()
  | .error e => throw e

def writeFile (path data : List UInt8) : Drive Unit := openForWriting path >>= writeAndClose data

variable {d d' : VirtioP9Driver} {fid : UInt32}

/-- The `Twrite` is request `n` of the call, and the file holds `old` then: it is there and is opened, or it is created
in its parent. -/
inductive VirtioP9Driver.WritesOver (d : VirtioP9Driver) (path : List UInt8) : Nat → List UInt8 → Prop where
  | existing {i : Ino} {old : List UInt8} (opens : d.server.Opens d.rootFid d.nextFid (components path) i)
    (file : d.server.tree.contents i = some old) : d.WritesOver path 2 old
  | created {i : Ino} (missing : ∀ j, ¬d.server.Reaches d.rootFid d.nextFid (components path) j)
    (parent : d.server.tick.Reaches d.rootFid (d.nextFid + 1) (components (splitParent path).1) i)
    (creates : (d.server.ticks 2).Creates i (splitParent path).2) : d.WritesOver path 3 []

theorem VirtioP9Driver.WritesOver.unique {path old old' : List UInt8} {n n' : Nat} (onto : d.WritesOver path n old)
    (onto' : d.WritesOver path n' old') : n = n' ∧ old = old' := by
  cases onto with
  | existing opens file =>
    cases onto' with
    | existing opens' file' =>
      cases opens.leads.symm.trans opens'.leads
      exact ⟨rfl, Option.some.inj (file.symm.trans file')⟩
    | created missing => exact (missing _ opens.toReaches).elim
  | created missing =>
    cases onto' with
    | existing opens => exact (missing _ opens.toReaches).elim
    | created => exact ⟨rfl, rfl⟩

theorem wp_openForWriting (attached : d.Attached) (path : Path) :
    wp (openForWriting path.bytes)
      (fun fid d' => ∃ i flags contents n, d'.Opened path.bytes fid i flags contents ∧ flags % 4 ≠ oRdonly ∧
        d.WritesOver path.bytes n contents ∧ d'.server.Alike (d.server.ticks n))
      (fun _ _ => ∀ n old, ¬d.WritesOver path.bytes n old) d := by
  have fits := path.fits
  have lengths := length_splitParent path.bytes
  rw [openForWriting, wp_bind, wp_attempt]
  refine wp_mono (wp_walk attached (by omega)) ?_ ?_
  · rintro fid d₁ ⟨ready, -, i, reaches, now⟩
    have bound : d₁.server.fids fid = some ⟨i, none⟩ := by rw [now, fids_tick, fids_setFid]
    simp only [wp_bind, wp_attempt, wp_throw]
    refine wp_mono (wp_openFid ready bound (by decide)) ?_ ?_
    · rintro - d₂ ⟨ready₂, may, room, ⟨-, reads⟩ | ⟨contents, file, now₂⟩⟩
      · cases reads
      · rw [now] at may room file now₂
        have opens : d.server.Opens d.rootFid d.nextFid (components path.bytes) i := ⟨reaches, may, room⟩
        obtain ⟨opened, alike⟩ := opens.opened file (by decide) ready₂ now₂
        exact ⟨i, oWronly, contents, 2, opened, by decide, .existing opens file, alike⟩
    · intro e d₂ unopened
      have never : ∀ n old, ¬d.WritesOver path.bytes n old := by
        intro n old onto
        cases onto with
        | existing opens file =>
          cases reaches.leads.symm.trans opens.leads
          rw [now] at unopened
          cases (unopened opens.opens opens.room).symm.trans file
        | created missing => exact missing i reaches
      exact wp_of_forall (fun _ _ => never) fun _ _ => never
  · rintro e d₁ ⟨⟨attached₁, now₁, root, next⟩, missing⟩
    simp only [wp_bind, wp_attempt]
    have inside : (splitParent path.bytes).1.length ≤ ramSize + 1 := by omega
    have walking := wp_walk attached₁ inside
    rw [now₁, root, next] at walking
    refine wp_mono walking ?_ ?_
    · rintro fid d₂ ⟨ready, -, i, parent, now⟩
      have bound : d₂.server.fids fid = some ⟨i, none⟩ := by rw [now, fids_tick, fids_setFid]
      simp only [wp_throw]
      refine wp_mono (wp_lcreate ready bound (by omega)) ?_ ?_
      · rintro _ d₃ ⟨ready₃, creates, alike, rfl, j, opened, empty, there⟩
        rw [now] at creates alike there
        refine ⟨j, createFlags, [], 3,
          ⟨ready₃, ?_, opened, empty, ?_⟩, by decide, .created missing parent { creates with }, ?_⟩
        · have room : 25 + _ ≤ d.server.msize := creates.room
          have same : d₃.server.msize = d.server.msize := alike.msize
          omega
        · rw [components_splitParent creates.valid.1]
          exact there _ parent.leads
        · exact ⟨alike.msize, alike.choices, alike.time⟩
      · intro e d₃ uncreated
        have never : ∀ n old, ¬d.WritesOver path.bytes n old := by
          intro n old onto
          cases onto with
          | existing opens => exact missing _ opens.toReaches
          | created _ parent' creates =>
            cases parent.leads.symm.trans parent'.leads
            rw [now] at uncreated
            exact uncreated { creates with }
        exact wp_of_forall (fun _ _ => never) fun _ _ => never
    · rintro e d₂ ⟨-, orphan⟩ n old onto
      cases onto with
      | existing opens => exact missing _ opens.toReaches
      | created _ parent => exact orphan _ parent

/-! ## What a write leaves -/

variable {path : List UInt8} {i : Ino} {flags : Nat} {contents : List UInt8}

theorem VirtioP9Driver.Opened.fileAt_stored (opened : d.Opened path fid i flags contents) {bytes : List UInt8}
    (stored : d'.server.tree = d.server.tree.store i bytes) : d'.fileAt path = some bytes := by
  rw [VirtioP9Driver.fileAt, stored, Tree.lookup, Tree.walk_store, opened.leads, Option.bind_some,
    Tree.contents_store opened.file]

/-- A write that is not refused succeeds; the file then holds what the server took and, behind it, what it held before.
-/
theorem wp_writeAndClose (opened : d.Opened path fid i flags contents) (writes : flags % 4 ≠ oRdonly)
    (data : List UInt8) :
    wp (writeAndClose data fid)
      (fun _ d' => d.server.choice.refuse = false ∧
        d'.fileAt path = some (d.server.accepted data ++ contents.drop (d.server.accepted data).length))
      (fun _ _ => d.server.choice.refuse = true) d := by
  have room : 23 ≤ d.server.msize := Nat.le_of_succ_le opened.room
  rw [writeAndClose, wp_bind, wp_capture]
  refine wp_mono (wp_write opened.ready opened.bound writes opened.file room data) ?_ ?_
  · rintro n d₁ ⟨ready, may, stored⟩
    rw [wp_bind, wp_attempt]
    refine wp_mono (wp_clunk ready) ?_ ?_
    · intro _ d₂ same
      exact ⟨may, opened.fileAt_stored (same.trans stored)⟩
    · intro _ d₂ same
      exact ⟨may, opened.fileAt_stored (same.trans stored)⟩
  · intro e d₁ refused
    rw [wp_bind]
    exact wp_of_forall (fun _ _ => refused) fun _ _ => refused

theorem accepted_append (s : Server) (rest : List UInt8) :
    s.accepted data ++ rest = data ↔ rest = data.drop (s.accepted data).length := by
  have front : s.accepted data <+: data :=
    (List.take_prefix _ _).trans ((List.take_prefix _ _).trans (List.take_prefix _ _))
  have split := take_append_drop (s.accepted data).length data
  rw [← prefix_iff_eq_take.mp front] at split
  nth_rewrite 2 [← split]
  rw [append_cancel_left_eq]

/-- A write that succeeds leaves just the data if and only if the file agreed with it behind what the server takes. -/
theorem write_complete (attached : d.Attached) (path : Path) (data : List UInt8) :
    (∀ d', writeFile path.bytes data d = .ok () d' → d'.fileAt path.bytes = some data) ↔
      ∀ n old, d.WritesOver path.bytes n old → (d.server.ticks n).choice.refuse = false →
        old.drop ((d.server.ticks n).accepted data).length = data.drop ((d.server.ticks n).accepted data).length := by
  have opening := wp_openForWriting attached path
  cases run : openForWriting path.bytes d with
  | ok fid d₁ =>
    obtain ⟨i, flags, contents, n, opened, writes, onto, alike⟩ := wp_of_ok opening run
    have writing := wp_writeAndClose opened writes data
    rw [alike.choice, alike.accepted] at writing
    constructor
    · intro complete m old onto' may
      obtain ⟨rfl, rfl⟩ := onto.unique onto'
      cases written : writeAndClose data fid d₁ with
      | ok u d' =>
        have after := complete d' ((bind_ok _ run).trans written)
        rwa [(wp_of_ok writing written).2, Option.some.injEq, accepted_append] at after
      | error e d' =>
        rw [wp_of_error writing written] at may
        cases may
    · intro agrees d' written
      rw [writeFile, bind_ok _ run] at written
      obtain ⟨may, after⟩ := wp_of_ok writing written
      rw [after, Option.some.injEq, accepted_append]
      exact agrees n contents onto may
  | error e d₁ =>
    have never := wp_of_error opening run
    constructor
    · intro _ n old onto
      exact (never n old onto).elim
    · intro _ d' written
      rw [writeFile, bind_error _ run] at written
      cases written

/-- A server with the file `/a` that refuses nothing and takes up to 100 bytes at a time. -/
def oneMount : VirtioP9Driver := mounted (oneFile [1, 2, 3]) 8192 fun _ => ⟨false, 100⟩

theorem oneMount_opens : oneMount.server.Opens oneMount.rootFid oneMount.nextFid (components [47, 97]) 1 :=
  ⟨⟨rfl, .inr rfl, by decide, by decide, by decide⟩, rfl, by decide⟩

/-- Four bytes are written over the three of the file. -/
theorem write_complete_longer : oneMount.WritesOver [47, 97] 2 [1, 2, 3] ∧
    ∀ d', writeFile [47, 97] [4, 5, 6, 7] oneMount = .ok () d' → d'.fileAt [47, 97] = some [4, 5, 6, 7] := by
  have onto : oneMount.WritesOver [47, 97] 2 [1, 2, 3] := .existing oneMount_opens (by decide)
  refine ⟨onto, (write_complete (attached_mounted (by decide)) ⟨[47, 97], by decide⟩ [4, 5, 6, 7]).mpr ?_⟩
  intro n old onto' _
  obtain ⟨rfl, rfl⟩ := onto.unique onto'
  decide

/-- One byte is written over a file of three, and the other two stay. -/
theorem old_bytes_stay :
    ∃ d', writeFile [47, 97] [9] (mounted (oneFile [1, 2, 3]) 8192 fun _ => ⟨false, 100⟩) = .ok () d' ∧
      d'.fileAt [47, 97] = some [9, 2, 3] := by
  have sees : returned (fun _ d => d.fileAt [47, 97])
      (writeFile [47, 97] [9] (mounted (oneFile [1, 2, 3]) 8192 fun _ => ⟨false, 100⟩)) = some (some [9, 2, 3]) := by
    decide +kernel
  obtain ⟨_, d', run, file⟩ := returned_eq sees
  exact ⟨d', run, file⟩

end HavyOs.P9
