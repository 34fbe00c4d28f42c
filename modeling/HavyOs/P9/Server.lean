import HavyOs.P9.Message
import HavyOs.P9.Queue

/-!
# A conforming 9P2000.L server

What the driver may rely on: the server keeps a tree of directories and files, binds fids to its
nodes and performs each request that is well formed and allowed, or answers it with `Rlerror`.
What the protocol leaves to the server is in its choices, one for each request: to refuse it, and
how many bytes of a read or a write it serves. A read before the end of the file gives at least
one byte; a write may take none.
-/

namespace HavyOs.P9

open Lib Option List

/-! ## The tree -/

abbrev Ino := Nat

abbrev Name := List UInt8

inductive Node where
  | absent
  | dir
  | file (contents : List UInt8)
deriving DecidableEq, Repr

def Node.refill (contents : List UInt8) : Node → Node
  | .file _ => .file contents
  | node => node

def rootIno : Ino := 0

/-- Directories lead from a node to nodes; a file may have several names, and `..` is a name like others. -/
structure Tree where
  child : Ino → Name → Option Ino
  node : Ino → Node
  next : Ino
  root_dir : node rootIno = .dir
  child_dir : ∀ {i name j}, child i name = some j → node i = .dir ∧ node j ≠ .absent
  absent : ∀ {i}, next ≤ i → node i = .absent

variable (names : List Name) (name : Name)

namespace Tree

/-- The nodes on the way along `names`, as far as there are any. -/
def trail (t : Tree) : Ino → List Name → List Ino
  | _, [] => []
  | i, name :: names =>
    match t.child i name with
    | none => []
    | some j => j :: t.trail j names

def walk (t : Tree) (i : Ino) (names : List Name) : Option Ino := names.foldlM t.child i

def contents (t : Tree) (i : Ino) : Option (List UInt8) :=
  match t.node i with
  | .file contents => some contents
  | _ => none

def lookup (t : Tree) (names : List Name) : Option (List UInt8) := (t.walk rootIno names).bind t.contents

variable {contents : List UInt8}

theorem refill_eq_dir {node : Node} : node.refill contents = .dir ↔ node = .dir := by
  cases node <;> simp [Node.refill]

theorem refill_eq_absent {node : Node} : node.refill contents = .absent ↔ node = .absent := by
  cases node <;> simp [Node.refill]

def store (t : Tree) (i : Ino) (contents : List UInt8) : Tree where
  child := t.child
  node j := if j = i then (t.node j).refill contents else t.node j
  next := t.next
  root_dir := by
    split
    · exact refill_eq_dir.mpr t.root_dir
    · exact t.root_dir
  child_dir is := by
    obtain ⟨from_dir, to_node⟩ := t.child_dir is
    constructor
    · split
      · exact refill_eq_dir.mpr from_dir
      · exact from_dir
    · split
      · exact fun none => to_node (refill_eq_absent.mp none)
      · exact to_node
  absent later := by
    split
    · exact refill_eq_absent.mpr (t.absent later)
    · exact t.absent later

def create (t : Tree) (dir : Ino) (name : Name) : Tree where
  child i n := if i = dir ∧ n = name ∧ t.node dir = .dir then some t.next else t.child i n
  node j := if j = t.next then .file [] else t.node j
  next := t.next + 1
  root_dir := by
    split_ifs with new
    · exact absurd (t.absent (Nat.le_of_eq new.symm)) (by rw [t.root_dir]; simp)
    · exact t.root_dir
  child_dir {i n j} is := by
    have old {i : Ino} (is : t.node i = .dir) : i ≠ t.next := by
      rintro rfl
      exact absurd (t.absent (Nat.le_refl _)) (by rw [is]; simp)
    split_ifs at is with new
    · cases is
      have from_dir : t.node i = .dir := new.1 ▸ new.2.2
      rw [if_neg (old from_dir), if_pos rfl]
      exact ⟨from_dir, by simp⟩
    · obtain ⟨from_dir, to_node⟩ := t.child_dir is
      rw [if_neg (old from_dir)]
      refine ⟨from_dir, ?_⟩
      split
      · simp
      · exact to_node
  absent {i} later := by
    rw [if_neg (Nat.ne_of_gt later)]
    exact t.absent (Nat.le_of_succ_le later)

/-! ### Where names lead -/

variable {t : Tree} {i j : Ino}

theorem walk_append (more : List Name) :
    t.walk i (names ++ more) = (t.walk i names).bind fun j => t.walk j more := foldlM_append

theorem walk_singleton : t.walk i [name] = t.child i name := by
  simp [walk]

theorem length_trail : (t.trail i names).length = names.length ↔ (t.walk i names).isSome := by
  induction names generalizing i with
  | nil => simp [trail, walk]
  | cons name names ih =>
    rw [trail, walk, foldlM_cons]
    cases t.child i name with
    | none => simp
    | some j => simpa [walk] using ih

theorem length_trail_le : (t.trail i names).length ≤ names.length := by
  induction names generalizing i with
  | nil => simp [trail]
  | cons name names ih =>
    rw [trail]
    split
    · simp
    · simpa using ih

/-! ### New contents -/

theorem walk_store (contents : List UInt8) (names : List Name) : (t.store j contents).walk i names = t.walk i names :=
  rfl

theorem contents_eq : t.contents i = some contents ↔ t.node i = .file contents := by
  rw [Tree.contents]
  split <;> simp_all

theorem contents_store {old : List UInt8} (file : t.contents i = some old) (contents : List UInt8) :
    (t.store i contents).contents i = some contents := by
  rw [contents_eq] at file ⊢
  change (if i = i then (t.node i).refill contents else t.node i) = _
  rw [if_pos rfl, file]
  rfl

/-! ### New files -/

theorem contents_create (dir : Ino) (name : Name) : (t.create dir name).contents t.next = some [] := by
  rw [contents_eq]
  exact if_pos rfl

/-- What names led to before a file was created they lead to still. -/
theorem walk_create {dir : Ino} {name : Name} (new : t.child dir name = none) {names : List Name}
    (leads : t.walk i names = some j) :
    (t.create dir name).walk i names = some j := by
  induction names generalizing i with
  | nil => exact leads
  | cons first names ih =>
    rw [walk, foldlM_cons, bind_eq_bind, bind_eq_some_iff] at leads ⊢
    obtain ⟨k, step, rest⟩ := leads
    refine ⟨k, ?_, ih rest⟩
    have other : ¬(i = dir ∧ first = name ∧ t.node dir = .dir) := by
      intro same
      rw [same.1, same.2.1, new] at step
      cases step
    exact (if_neg other).trans step

theorem child_create {dir : Ino} (isDir : t.node dir = .dir) (name : Name) :
    (t.create dir name).child dir name = some t.next :=
  if_pos ⟨rfl, rfl, isDir⟩

end Tree

/-! ## The server -/

/-- What a fid stands for; `flags` are those it was opened with. -/
structure Fid where
  ino : Ino
  flags : Option Nat
deriving DecidableEq, Repr

/-- What the server decides about one request. -/
structure Choice where
  refuse : Bool
  /-- The bytes it serves at most, one more for a read. -/
  limit : Nat
deriving DecidableEq, Repr

structure Server where
  tree : Tree
  fids : UInt32 → Option Fid
  msize : Nat
  /-- The largest message size it agrees to. -/
  offer : Nat
  choices : Nat → Choice
  /-- The number of requests it has had. -/
  time : Nat

namespace Server

variable (s : Server)

def setFid (fid : UInt32) (f : Option Fid) : Server :=
  { s with fids := fun other => if other = fid then f else s.fids other }

theorem fids_setFid {s : Server} {fid : UInt32} {f : Option Fid} : (s.setFid fid f).fids fid = f := if_pos rfl

def tick : Server := { s with time := s.time + 1 }

/-- The server after `n` requests that changed nothing. -/
def ticks (n : Nat) : Server := { s with time := s.time + n }

@[simp] theorem fids_tick : s.tick.fids = s.fids := rfl

@[simp] theorem tree_tick : s.tick.tree = s.tree := rfl

def choice : Choice := s.choices s.time

/-- The number of a node with its kind, 13 bytes. -/
def qid (i : Ino) : List UInt8 := (if s.tree.node i = .dir then 0x80 else 0) :: toLe 4 0 ++ toLe 8 i

def truncates (flags : Nat) : Prop := flags / 512 % 2 = 1

instance (flags : Nat) : Decidable (truncates flags) := inferInstanceAs (Decidable (_ = _))

def openFile (fid : UInt32) (i : Ino) (flags : Nat) : Server :=
  { s with tree := if truncates flags then s.tree.store i [] else s.tree }.setFid fid (some ⟨i, some flags⟩)

/-- The reply to an open or a create: the node and no limit of its own for reads and writes. -/
def opened (i : Ino) : List UInt8 := s.qid i ++ toLe 4 0

def validName : Prop := name ≠ [] ∧ 47 ∉ name ∧ name ≠ [46] ∧ name ≠ [46, 46]

instance : Decidable (validName name) := inferInstanceAs (Decidable (_ ∧ _))

/-- `bytes` written into a file, with zeros up to `offset` where it is shorter. -/
def overwrite (contents : List UInt8) (offset : Nat) (bytes : List UInt8) : List UInt8 :=
  if bytes = [] then contents
  else (contents ++ replicate (offset - contents.length) 0).take offset ++ bytes ++
    contents.drop (offset + bytes.length)

/-- A request that the server does not refuse: the type and the fields of the reply, and what becomes of the server. -/
def perform (limit : Nat) : Tmessage → Option (UInt8 × List UInt8 × Server)
  | .version msize =>
    let agreed := min msize s.offer
    some (rVersion, toLe 4 agreed ++ text protocolVersion, { s with msize := agreed, fids := fun _ => none })
  | .attach fid =>
    match s.fids fid with
    | none => some (rAttach, s.qid rootIno, s.setFid fid (some ⟨rootIno, none⟩))
    | some _ => none
  | .walk fid newFid names =>
    match s.fids fid with
    | some ⟨i, none⟩ =>
      let trail := s.tree.trail i names
      if newFid ≠ fid ∧ s.fids newFid ≠ none then none
      else if names ≠ [] ∧ trail = [] then none
      else
        let qids := toLe 2 trail.length ++ (trail.map s.qid).flatten
        match s.tree.walk i names with
        | some j => some (rWalk, qids, s.setFid newFid (some ⟨j, none⟩))
        | none => some (rWalk, qids, s)
    | _ => none
  | .lopen fid flags =>
    match s.fids fid with
    | some ⟨i, none⟩ =>
      match s.tree.node i with
      | .absent => none
      | .dir => if flags % 4 = oRdonly then some (rLopen, s.opened i, s.setFid fid (some ⟨i, some flags⟩)) else none
      | .file _ => some (rLopen, s.opened i, s.openFile fid i flags)
    | _ => none
  | .lcreate fid name flags =>
    match s.fids fid with
    | some ⟨i, none⟩ =>
      if s.tree.node i = .dir ∧ validName name then
        match s.tree.child i name with
        | none =>
          some (rLcreate, s.opened s.tree.next, { s with tree := s.tree.create i name }.openFile fid s.tree.next flags)
        | some j =>
          match s.tree.node j with
          | .file _ => some (rLcreate, s.opened j, s.openFile fid j flags)
          | _ => none
      else none
    | _ => none
  | .read fid offset count =>
    match s.fids fid with
    | some ⟨i, some flags⟩ =>
      match s.tree.contents i with
      | some contents =>
        if flags % 4 = oWronly then none
        else
          let data := ((contents.drop offset).take (min count (s.msize - 11))).take (limit + 1)
          some (rRead, toLe 4 data.length ++ data, s)
      | none => none
    | _ => none
  | .write fid offset data =>
    match s.fids fid with
    | some ⟨i, some flags⟩ =>
      match s.tree.contents i with
      | some contents =>
        if flags % 4 = oRdonly then none
        else
          let taken := data.take limit
          some (rWrite, toLe 4 taken.length, { s with tree := s.tree.store i (overwrite contents offset taken) })
      | none => none
    | _ => none
  | .clunk fid =>
    match s.fids fid with
    | some _ => some (rClunk, [], s.setFid fid none)
    | none => none

/-- A request that is performed: it is not refused, and the reply is not too long. -/
def allowed (request : Tmessage) : Option (UInt8 × List UInt8 × Server) :=
  if s.choice.refuse then none
  else (s.perform s.choice.limit request).filter fun done => 7 + done.2.1.length ≤ s.msize

def eio : Nat := 5

/-- The reply to a message, if there is room for one. -/
def handle (request : List UInt8) : Option (List UInt8) × Server :=
  match (decode request).bind s.allowed with
  | some (type, body, s') => (some (message type (tagField request) body), s'.tick)
  | none => (if 11 ≤ s.msize then some (message rLerror (tagField request) (toLe 4 eio)) else none, s.tick)

/-! ### When a request succeeds -/

/-- The next request, a `Twalk` from `root` along the path, is answered to its end and binds `fid` to the node. -/
structure Reaches (root fid : UInt32) (names : List Name) (i : Ino) : Prop where
  may : s.choice.refuse = false
  free : fid = root ∨ s.fids fid = none
  asked : 7 + (walkBody root fid names).length ≤ s.msize
  answered : 9 + 13 * names.length ≤ s.msize
  leads : s.tree.walk rootIno names = some i

/-- The request after it, a `Tlopen`, is answered too. -/
structure Opens (root fid : UInt32) (names : List Name) (i : Ino) : Prop extends s.Reaches root fid names i where
  opens : s.tick.choice.refuse = false
  room : 24 ≤ s.msize

/-- A `Tlcreate` in the directory `i` is answered. -/
structure Creates (i : Ino) (name : Name) : Prop where
  may : s.choice.refuse = false
  room : 25 + name.length ≤ s.msize
  isDir : s.tree.node i = .dir
  valid : validName name
  file : ∀ j, s.tree.child i name = some j → (s.tree.contents j).isSome

/-- The servers agree on the message size and decide alike from here on. -/
structure Alike (s s' : Server) : Prop where
  msize : s.msize = s'.msize
  choices : s.choices = s'.choices
  time : s.time = s'.time

theorem Alike.choice {s s' : Server} (alike : s.Alike s') : s.choice = s'.choice := by
  rw [Server.choice, Server.choice, alike.choices, alike.time]

/-! ### What it answers -/

section Answers

variable {s s' : Server} {request : Tmessage} {type : UInt8} {body : List UInt8} {limit : Nat}

theorem allowed_eq (done : s.allowed request = some (type, body, s')) :
    s.choice.refuse = false ∧ s.perform s.choice.limit request = some (type, body, s') ∧ 7 + body.length ≤ s.msize := by
  rw [allowed] at done
  split_ifs at done with may
  rw [filter_eq_some_iff] at done
  exact ⟨by simpa using may, done.1, by simpa using done.2⟩

theorem allowed_of_perform (may : s.choice.refuse = false)
    (done : s.perform s.choice.limit request = some (type, body, s'))
    (fits : 7 + body.length ≤ s.msize) : s.allowed request = some (type, body, s') := by
  rw [allowed, if_neg (by simp [may]), filter_eq_some_iff]
  exact ⟨done, by simpa using fits⟩

/-- No reply but the refusal looks like one. -/
theorem perform_type (done : s.perform limit request = some (type, body, s')) : type ≠ rLerror := by
  cases request <;> simp only [perform] at done <;> grind
    [rLerror, rVersion, rAttach, rWalk, rLopen, rLcreate, rRead, rWrite, rClunk]

variable {fid newFid : UInt32} {i : Ino} {flags : Nat}

theorem length_qid : (s.qid i).length = 13 := by
  simp [qid]

theorem length_qids (trail : List Ino) : (trail.map s.qid).flatten.length = 13 * trail.length := by
  induction trail with
  | nil => rfl
  | cons i trail ih =>
    rw [map_cons, flatten_cons, length_append, ih, length_qid, length_cons]
    omega

theorem perform_walk {names : List Name} (bound : s.fids fid = some ⟨i, none⟩)
    (done : s.perform limit (.walk fid newFid names) = some (type, body, s')) :
    (newFid = fid ∨ s.fids newFid = none) ∧
      (∃ qids, body = toLe 2 (s.tree.trail i names).length ++ qids ∧ qids.length = 13 * (s.tree.trail i names).length) ∧
      ((∃ j, s.tree.walk i names = some j ∧ s' = s.setFid newFid (some ⟨j, none⟩)) ∨
        s.tree.walk i names = none ∧ s' = s) := by
  simp only [perform, bound] at done
  split at done
  · cases done
  rename_i taken
  have free : newFid = fid ∨ s.fids newFid = none := by tauto
  split at done
  · cases done
  split at done
  · rename_i j leads
    obtain ⟨-, rfl, rfl⟩ := done
    exact ⟨free, ⟨_, rfl, length_qids _⟩, .inl ⟨j, leads, rfl⟩⟩
  · rename_i nowhere
    obtain ⟨-, rfl, rfl⟩ := done
    exact ⟨free, ⟨_, rfl, length_qids _⟩, .inr ⟨nowhere, rfl⟩⟩

theorem Reaches.allowed {names : List Name} (reaches : s.Reaches fid newFid names i)
    (bound : s.fids fid = some ⟨rootIno, none⟩) : s.allowed (.walk fid newFid names) ≠ none := by
  have all := (Tree.length_trail (t := s.tree) (i := rootIno) names).mpr (by rw [reaches.leads]; rfl)
  have somewhere : ¬(names ≠ [] ∧ s.tree.trail rootIno names = []) := by
    rintro ⟨some, none⟩
    rw [none, length_nil] at all
    exact some (length_eq_zero_iff.mp all.symm)
  have untaken : ¬(newFid ≠ fid ∧ s.fids newFid ≠ none) := by
    have := reaches.free
    tauto
  have performed : s.perform s.choice.limit (.walk fid newFid names) = some (rWalk,
      toLe 2 names.length ++ ((s.tree.trail rootIno names).map s.qid).flatten, s.setFid newFid (some ⟨i, none⟩)) := by
    simp only [perform, bound, if_neg untaken, if_neg somewhere, reaches.leads, all]
  have fits := reaches.answered
  rw [allowed_of_perform reaches.may performed (by rw [length_append, toLe_length, length_qids, all]; omega)]
  simp

theorem length_opened : (s.opened i).length = 17 := by
  simp [opened, qid]

theorem perform_lopen (bound : s.fids fid = some ⟨i, none⟩)
    (done : s.perform limit (.lopen fid flags) = some (type, body, s')) :
    body.length = 17 ∧ (s.tree.node i = .dir ∧ flags % 4 = oRdonly ∧ s' = s.setFid fid (some ⟨i, some flags⟩) ∨
      ∃ contents, s.tree.contents i = some contents ∧ s' = s.openFile fid i flags) := by
  simp only [perform, bound] at done
  split at done
  · cases done
  · rename_i dir
    split_ifs at done with reads
    obtain ⟨-, rfl, rfl⟩ := done
    exact ⟨length_opened, .inl ⟨dir, reads, rfl⟩⟩
  · rename_i contents file
    obtain ⟨-, rfl, rfl⟩ := done
    exact ⟨length_opened, .inr ⟨contents, Tree.contents_eq.mpr file, rfl⟩⟩

/-- A file that the server does not refuse to open is opened. -/
theorem allowed_lopen {contents : List UInt8} (bound : s.fids fid = some ⟨i, none⟩) (may : s.choice.refuse = false)
    (room : 24 ≤ s.msize) (file : s.tree.contents i = some contents) :
    s.allowed (.lopen fid flags) = some (rLopen, s.opened i, s.openFile fid i flags) := by
  refine allowed_of_perform may ?_ (by rw [length_opened]; omega)
  simp only [perform, bound, Tree.contents_eq.mp file]

theorem Creates.allowed {name : Name} (creates : s.Creates i name) (bound : s.fids fid = some ⟨i, none⟩) :
    s.allowed (.lcreate fid name flags) ≠ none := by
  have room := creates.room
  have performed : ∃ j s', s.perform s.choice.limit (.lcreate fid name flags) = some (rLcreate, s.opened j, s') := by
    simp only [perform, bound, if_pos (And.intro creates.isDir creates.valid)]
    split
    · exact ⟨_, _, rfl⟩
    · rename_i j there
      obtain ⟨contents, file⟩ := isSome_iff_exists.mp (creates.file j there)
      rw [Tree.contents_eq.mp file]
      exact ⟨_, _, rfl⟩
  obtain ⟨_, _, performed⟩ := performed
  rw [allowed_of_perform creates.may performed (by rw [length_opened]; omega)]
  simp

end Answers

section OpenFile

variable {s : Server} {fid : UInt32} {i : Ino} {flags : Nat} {contents : List UInt8}

theorem fids_openFile : (s.openFile fid i flags).fids fid = some ⟨i, some flags⟩ := fids_setFid

theorem walk_openFile : (s.openFile fid i flags).tree.walk rootIno names = s.tree.walk rootIno names := by
  simp only [openFile]
  split <;> rfl

theorem contents_openFile (file : s.tree.contents i = some contents) :
    (s.openFile fid i flags).tree.contents i = some (if truncates flags then [] else contents) := by
  simp only [openFile]
  split
  · exact Tree.contents_store file []
  · exact file

end OpenFile

/-- A file that is created, or that was there and is truncated: its name leads to it, and other names lead where they
led. -/
theorem perform_lcreate {s s' : Server} {fid : UInt32} {i : Ino} {name : Name} {limit flags : Nat} {type : UInt8}
    {body : List UInt8} (bound : s.fids fid = some ⟨i, none⟩) (empties : truncates flags)
    (done : s.perform limit (.lcreate fid name flags) = some (type, body, s')) :
    body.length = 17 ∧ s'.Alike s ∧
      (s.tree.node i = .dir ∧ validName name ∧ ∀ j, s.tree.child i name = some j → (s.tree.contents j).isSome) ∧
      ∃ j, s'.fids fid = some ⟨j, some flags⟩ ∧ s'.tree.contents j = some [] ∧
      ∀ names, s.tree.walk rootIno names = some i → s'.tree.walk rootIno (names ++ [name]) = some j := by
  simp only [perform, bound] at done
  split_ifs at done with may
  obtain ⟨isDir, valid⟩ := may
  split at done
  · rename_i new
    obtain ⟨-, rfl, rfl⟩ := done
    refine ⟨length_opened, ⟨rfl, rfl, rfl⟩, ⟨isDir, valid, fun j there => nomatch new.symm.trans there⟩, s.tree.next,
      fids_openFile, ?_, ?_⟩
    · rw [contents_openFile (Tree.contents_create i name), if_pos empties]
    · intro names leads
      rw [walk_openFile, Tree.walk_append, Tree.walk_create new leads, bind_some, Tree.walk_singleton,
        Tree.child_create isDir]
  · rename_i j there
    split at done
    · rename_i contents file
      obtain ⟨-, rfl, rfl⟩ := done
      have contents := Tree.contents_eq.mpr file
      refine ⟨length_opened, ⟨rfl, rfl, rfl⟩, ⟨isDir, valid, fun j' same => ?_⟩, j, fids_openFile, ?_, ?_⟩
      · cases there.symm.trans same
        rw [contents]
        rfl
      · rw [contents_openFile contents, if_pos empties]
      · intro names leads
        rw [walk_openFile, Tree.walk_append, leads, bind_some, Tree.walk_singleton, there]
    · cases done

end Server

end HavyOs.P9
