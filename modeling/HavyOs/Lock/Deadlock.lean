import HavyOs.Lock.RwLock
import HavyOs.Lock.Programs
import Mathlib.Data.Fintype.Basic

/-!
# Deadlock freedom of the filesystem locks

Harts run entry points, one access to a lock word at a time. Every entry point takes the locks in
the order `NET_STATE`, `VFS_STATE`, `FS_STATE`, `BLK_DEV`, except `sys_fs_is_dir` on hart 0: it
lists the root while it holds read guards of `FS_STATE` and `BLK_DEV`, and the listing asks for a
write guard of `FS_STATE`, which it never gets.
-/

namespace HavyOs.Lock

open Lib Program List

/-- The guards: of an `RwLock`, for reading or writing, and of a `Spinlock`. -/
inductive GuardKind where
  | read
  | write
  | spin
deriving DecidableEq, Repr

/-- A live guard. -/
structure Guard where
  lock : LockName
  kind : GuardKind
deriving DecidableEq, Repr

/-- The word of a lock when a guard is dropped. -/
def GuardKind.release (word : UInt32) : GuardKind → UInt32
  | .read => (Phase.reading.next word false).1
  | .write => (Phase.writing.next word false).1
  | .spin => 0

/-- Where a hart is in a call that acquires a lock. -/
inductive Acquiring where
  | rw (phase : Phase)
  /-- At the swap of a `Spinlock`. -/
  | swap
deriving DecidableEq, Repr

def How.start : How → Acquiring
  | .read => .rw Call.read.start
  | .write => .rw Call.write.start
  | .tryWrite => .rw Call.tryWrite.start
  | .lock => .swap
  | .tryLock => .swap

/-- A hart: its guards, what is left of the entry point it runs, and where it is in the call at its head. -/
structure Hart where
  guards : List Guard
  program : Program
  call : Option Acquiring

/-- The words of the locks, and the harts. -/
structure System where
  words : LockName → UInt32
  harts : Nat → Hart

variable (s : System)

namespace System

def init : System := ⟨fun _ => 0, fun _ => ⟨[], .done, none⟩⟩

/-- An access of hart `h` to the word of a lock. -/
def update (h : Nat) (lock : LockName) (word : UInt32) (hart : Hart) : System :=
  ⟨Function.update s.words lock word, Function.update s.harts h hart⟩

/-- The next access of a hart; `fails` lets a weak exchange fail. -/
def advance (h : Nat) (fails : Bool) : System :=
  match (s.harts h).program with
  | .done => s
  | .release lock rest =>
    let kind := ((s.harts h).guards.find? fun guard => guard.lock == lock).map Guard.kind
    s.update h lock (kind.elim (s.words lock) (GuardKind.release (s.words lock)))
      ⟨(s.harts h).guards.eraseP fun guard => guard.lock == lock, rest, none⟩
  | .acquire how lock taken refused =>
    match (s.harts h).call with
    | none => s.update h lock (s.words lock) { s.harts h with call := some how.start }
    | some .swap =>
      -- the swap leaves the word locked in either case
      if s.words lock = 0 then s.update h lock 1 ⟨⟨lock, .spin⟩ :: (s.harts h).guards, taken, none⟩
      else if how.waits then s.update h lock 1 (s.harts h)
      else s.update h lock 1 ⟨(s.harts h).guards, refused, none⟩
    | some (.rw phase) =>
      let (word, next) := phase.next (s.words lock) fails
      match next with
      | .reading => s.update h lock word ⟨⟨lock, .read⟩ :: (s.harts h).guards, taken, none⟩
      | .writing => s.update h lock word ⟨⟨lock, .write⟩ :: (s.harts h).guards, taken, none⟩
      | .finished => s.update h lock word ⟨(s.harts h).guards, refused, none⟩
      | next => s.update h lock word { s.harts h with call := some (.rw next) }

end System

/-- A hart starts an entry point, or makes its next access. -/
inductive Action where
  | start (h : Nat) (entry : Entry) (f : Facts)
  | access (h : Nat) (fails : Bool)

/-- The entry points a hart runs: `dispatch_io` handles requests on hart 0 only. -/
def Entry.runsOn (h : Nat) : Entry → Prop
  | .handleRequest _ _ => h = 0
  | _ => True

/-- One step: an entry point starts on an idle hart. -/
def systemStep : Action → System → Prop
  | .start h entry f, s' =>
    entry.runsOn h ∧ (s.harts h).program = .done ∧ (s.harts h).guards = [] ∧
      s' = { s with harts := Function.update s.harts h ⟨[], entry.program h f, none⟩ }
  | .access h fails, s' => s' = s.advance h fails

/-! ## Waiting -/

/-- The guards that a call has to wait for. -/
def How.conflicts : How → GuardKind → Bool
  | .read, .read => false
  | _, _ => true

variable (hart : Hart) (lock : LockName)

/-- The hart is in a call that loops until it has the lock. -/
def Hart.WaitsAt (how : How) (call : Acquiring) : Prop :=
  how.waits ∧ hart.call = some call ∧ ∃ taken refused, hart.program = .acquire how lock taken refused

/-- The hart has set the writer bit and waits for the readers. -/
def Hart.Claims : Prop := hart.WaitsAt lock .write (.rw .claimed)

/-- Hart `h` waits for a lock of which `other` has a guard in a conflicting mode, or whose writer bit `other` has
claimed. -/
def WaitsFor (h other : Nat) : Prop :=
  ∃ lock how call, (s.harts h).WaitsAt lock how call ∧
    ((∃ guard ∈ (s.harts other).guards, guard.lock = lock ∧ how.conflicts guard.kind) ∨
      (call ≠ .rw .claimed ∧ (s.harts other).Claims lock))

/-! ## The order -/

/-- The place of a lock in the order. -/
def LockName.rank : LockName → Nat
  | .netState => 0
  | .vfsState => 1
  | .fsState => 2
  | .blkDev => 3

/-- The program takes the locks in the order, with those in `held`. -/
abbrev Ordered (held : List LockName) (program : Program) : Prop :=
    program.Ordered LockName.rank (fun how => how.waits) held

/-- A function that takes the locks in the order when those in `held` are held before and after it. -/
def Keeps (held : List LockName) (function : Program → Program) : Prop :=
  ∀ rest, Ordered held rest → Ordered held (function rest)

section Keeps

variable {held : List LockName}

theorem released {lock : LockName} {rest : Program} (next : Ordered held rest) :
    Ordered (lock :: held) (.release lock rest) := by
  change Ordered (List.erase (lock :: held) lock) rest
  rwa [erase_cons_head]

theorem keeps_id : Keeps held id := fun _ next => next

theorem keeps_ite {condition : Prop} [Decidable condition]
    {function other : Program → Program} (first : Keeps held function)
    (second : Keeps held other) : Keeps held fun rest => if condition then function rest else other rest := by
  intro rest next
  split
  · exact first rest next
  · exact second rest next

theorem keeps_fsBlk (below : ∀ lock ∈ held, lock.rank < 2) : Keeps held fsBlk := by
  refine fun rest next => ⟨fun _ => below, ⟨fun _ lock member => ?_, released (released next), trivial⟩, trivial⟩
  rcases mem_cons.mp member with rfl | member
  · decide
  · exact (below lock member).trans (by decide)

theorem keeps_tryFsBlk {again : Program → Program} (retries : Keeps held again) :
    Keeps held fun rest => tryWrite .fsState
      (tryWrite .blkDev (.release .blkDev (.release .fsState rest)) (.release .fsState (again rest))) (again rest) :=
  fun rest next => ⟨nofun, ⟨nofun, released (released next), released (retries rest next)⟩, retries rest next⟩

variable (f : Facts) (hart rounds : Nat) (op : Io.IoOp)

theorem keeps_writeFile : Keeps held (GlobalSfs.writeFile rounds) := by
  induction rounds with
  | zero => exact keeps_tryFsBlk keeps_id
  | succ rounds ih => exact keeps_tryFsBlk ih

theorem keeps_forward {method : Program → Program} (keeps : Keeps held method) (target : Target) :
    Keeps held (Vfs.forward method target) := by
  cases target with
  | sfs => exact keeps
  | other => exact keeps_id

theorem keeps_vfsSync (below : ∀ lock ∈ held, lock.rank < 2) (mounts : List Target) : Keeps held (Vfs.sync mounts) := by
  induction mounts with
  | nil => exact keeps_id
  | cons mount mounts ih => exact fun rest next => keeps_forward (keeps_fsBlk below) mount _ (ih rest next)

theorem keeps_withVfsOrLegacy (vfs : Bool) {method : Program → Program} (keeps : Keeps [.vfsState] method) :
    Keeps [] (FsProxy.withVfsOrLegacy vfs method) := by
  intro rest next
  refine ⟨nofun, ?_, trivial⟩
  cases vfs with
  | true => exact keeps _ (released next)
  | false => exact released (keeps_fsBlk (by simp) rest next)

theorem keeps_writeLocked {rest : Program} (next : Ordered [] rest) :
    Ordered [.vfsState] (FsProxy.writeLocked f rest) := by
  unfold FsProxy.writeLocked
  split
  · exact keeps_forward (keeps_writeFile _) _ _ (released next)
  · exact released (keeps_tryFsBlk keeps_id rest next)

theorem keeps_writeLoop : Keeps [] (FsProxy.writeLoop f rounds) := by
  induction rounds with
  | zero => exact fun rest next => ⟨nofun, keeps_writeLocked f next, next⟩
  | succ rounds ih => exact fun rest next => ⟨nofun, keeps_writeLocked f next, ih rest next⟩

theorem keeps_onHart {direct : Program → Program} (keeps : Keeps [] direct) :
    Keeps [] (FsProxy.onHart hart direct) := keeps_ite keeps keeps_id

theorem vfs_below : ∀ lock ∈ [LockName.vfsState], lock.rank < 2 := by decide

/-- `fs_read`, `fs_list` and `fs_exists` take the same locks. -/
theorem keeps_lookup (f : Facts) :
    Keeps [] (FsProxy.onHart hart (FsProxy.withVfsOrLegacy f.vfs (Vfs.forward fsBlk f.target))) :=
  keeps_onHart hart (keeps_withVfsOrLegacy f.vfs (keeps_forward (keeps_fsBlk vfs_below) f.target))

theorem keeps_fsSync (f : Facts) : Keeps [] (FsProxy.fsSync hart f) :=
  keeps_onHart hart (keeps_withVfsOrLegacy f.vfs (keeps_vfsSync vfs_below f.mounts))

theorem keeps_fsWrite (f : Facts) : Keeps [] (FsProxy.fsWrite hart f) :=
  keeps_onHart hart (keeps_writeLoop f f.rounds)

theorem keeps_free : Keeps [] fsBlk := keeps_fsBlk (by simp)

theorem keeps_read_both :
    Keeps [] fun rest => read .fsState (read .blkDev (.release .blkDev (.release .fsState rest))) :=
  fun _ next => ⟨nofun, ⟨by decide, released (released next), trivial⟩, trivial⟩

theorem keeps_sysFsIsDir {hart : Nat} {f : Facts} (allowed : ¬ (hart = 0 ∧ f.readable ∧ f.fs ∧ f.blk)) :
    Keeps [] (Syscall.sysFsIsDir hart f) := by
  intro rest next
  unfold Syscall.sysFsIsDir
  split
  · rename_i readable
    have same : (if f.fs ∧ f.blk then FsProxy.fsList hart f (.release .blkDev (.release .fsState rest))
        else .release .blkDev (.release .fsState rest)) = .release .blkDev (.release .fsState rest) := by
      split_ifs with ready
      · -- a secondary hart asks hart 0 and takes no lock
        exact if_neg fun first => allowed ⟨first, readable, ready⟩
      · rfl
    simp only [same]
    exact keeps_read_both rest next
  · exact next

theorem keeps_handleBlockRequest : Keeps [] (Handler.handleBlockRequest f op) := by
  intro rest next
  cases op with
  | read offset len => exact keeps_read_both rest next
  | flush => exact keeps_free rest next
  | status => exact ⟨nofun, released next, trivial⟩
  | fsRead path =>
    rw [Handler.handleBlockRequest]
    split
    · refine ⟨nofun, ?_, trivial⟩
      split
      · exact keeps_forward (keeps_fsBlk vfs_below) _ _ (released next)
      · exact released next
    · exact keeps_free rest next
  | fsWrite path data =>
    refine ⟨nofun, ?_, trivial⟩
    split
    · exact keeps_forward (keeps_writeFile _) _ _ (released next)
    · exact released (keeps_free rest next)
  | fsList path =>
    refine ⟨nofun, ?_, trivial⟩
    split
    · exact keeps_forward (keeps_fsBlk vfs_below) _ _ (released next)
    · exact keeps_fsBlk vfs_below _ (released next)
  | fsExists path => exact keeps_free rest next
  | fsSync => exact keeps_free rest next
  | _ => exact next

theorem keeps_handleNetworkRequest : Keeps [] (Handler.handleNetworkRequest op) := by
  intro rest next
  cases op with
  | status => exact ⟨nofun, released next, trivial⟩
  | netPoll timestampMs => exact ⟨nofun, released next, trivial⟩
  | _ => exact next

theorem keeps_httpdTick : Keeps [] (httpdTick f) := by
  intro rest next
  refine ⟨nofun, ?_, next⟩
  split
  · refine ⟨by decide, ?_, trivial⟩
    split
    · exact ⟨by decide, released (released (released next)), trivial⟩
    · exact released (released next)
  · exact released next

theorem keeps_flushLogs : Keeps [] (flushLogs f) := by
  intro rest next
  unfold flushLogs
  split
  · refine ⟨nofun, ⟨by decide, ?_, trivial⟩, trivial⟩
    split
    · -- the guard of `FS_STATE` goes first here
      exact keeps_free rest next
    · exact released (released next)
  · exact next

end Keeps

/-- The condition on an action: `sys_fs_is_dir` does not reach its listing on hart 0. -/
def Admits : Action → Prop
  | .start h .sysFsIsDir f => ¬ (h = 0 ∧ f.readable ∧ f.fs ∧ f.blk)
  | _ => True

theorem ordered_program {h : Nat} {entry : Entry} {f : Facts} (admitted : Admits (.start h entry f)) :
    Ordered [] (entry.program h f) := by
  have idle : Ordered [] .done := trivial
  cases entry with
  | fsRead => exact keeps_lookup h f _ idle
  | fsWrite => exact keeps_fsWrite h f _ idle
  | fsList => exact keeps_lookup h f _ idle
  | fsExists => exact keeps_lookup h f _ idle
  | fsSync => exact keeps_fsSync h f _ idle
  | sysFsExists => exact keeps_ite (keeps_lookup h f) keeps_id _ idle
  | sysFsRead => exact keeps_ite (keeps_lookup h f) keeps_id _ idle
  | sysFsWrite => exact keeps_ite (keeps_fsWrite h f) keeps_id _ idle
  | sysFsList => exact keeps_lookup h f _ idle
  | sysFsListDir => exact keeps_ite (keeps_lookup h f) keeps_id _ idle
  | sysFsStat => exact keeps_ite keeps_free keeps_id _ idle
  | sysFsRemove => exact idle
  | sysFsMkdir => exact keeps_ite keeps_free keeps_id _ idle
  | sysFsIsDir => exact keeps_sysFsIsDir admitted _ idle
  | handleRequest device op =>
    cases device with
    | mmc => exact keeps_handleBlockRequest f op _ idle
    | virtioBlock => exact keeps_handleBlockRequest f op _ idle
    | network => exact keeps_handleNetworkRequest op _ idle
    | virtioNet => exact keeps_handleNetworkRequest op _ idle
    | _ => exact idle
  | sfsWriteFile => exact keeps_writeFile f.sfsRounds _ idle
  | httpdTick => exact keeps_httpdTick f _ idle
  | flushLogs => exact keeps_flushLogs f _ idle
  | _ => exact keeps_free _ idle

/-! ## Runs -/

/-- Every hart takes the locks in the order from where it is. -/
def InOrder : Prop := ∀ h, Ordered ((s.harts h).guards.map Guard.lock) (s.harts h).program

theorem inOrder_init : InOrder .init := fun _ => trivial

theorem locks_eraseP : ∀ guards : List Guard,
    (guards.eraseP fun guard => guard.lock == lock).map Guard.lock = (guards.map Guard.lock).erase lock
  | [] => rfl
  | guard :: guards => by
    rw [eraseP_cons, map_cons, erase_cons]
    cases same : guard.lock == lock with
    | true => rfl
    | false =>
      change guard.lock :: _ = guard.lock :: _
      rw [locks_eraseP guards]

variable {s : System}

theorem InOrder.update (h : InOrder s) (i : Nat) (lock : LockName) (word : UInt32) {hart : Hart}
    (next : Ordered (hart.guards.map Guard.lock) hart.program) : InOrder (s.update i lock word hart) := by
  intro other
  change Ordered ((Function.update s.harts i hart other).guards.map Guard.lock)
    (Function.update s.harts i hart other).program
  by_cases same : other = i
  · rw [same, Function.update_self]
    exact next
  · rw [Function.update_of_ne same]
    exact h other

theorem InOrder.advance (h : InOrder s) (i : Nat) (fails : Bool) : InOrder (s.advance i fails) := by
  have current := h i
  unfold System.advance
  split
  · exact h
  · rename_i lock rest program
    rw [program] at current
    refine h.update i lock _ ?_
    rw [locks_eraseP]
    exact current
  · rename_i how lock taken refused program
    have whole := current
    rw [program] at current
    obtain ⟨-, taken, refused⟩ := current
    split
    · exact h.update i lock _ whole
    · split
      · exact h.update i lock _ taken
      · split
        · exact h.update i lock _ whole
        · exact h.update i lock _ refused
    · split
      split
      · exact h.update i lock _ taken
      · exact h.update i lock _ taken
      · exact h.update i lock _ refused
      · exact h.update i lock _ whole

theorem inOrder_step {action : Action} {s' : System} (h : InOrder s) (admitted : Admits action)
    (taken : systemStep s action s') : InOrder s' := by
  cases action with
  | start i entry f =>
    obtain ⟨-, -, -, rfl⟩ := taken
    have next : InOrder (s.update i .fsState (s.words .fsState) ⟨[], entry.program i f, none⟩) :=
      h.update i .fsState _ (ordered_program admitted)
    exact next
  | access i fails =>
    rw [show s' = _ from taken]
    exact h.advance i fails

/-- A hart that waits holds only locks below the one it waits for. -/
theorem InOrder.below (h : InOrder s) {i : Nat} {lock : LockName} {how : How} {call : Acquiring}
    (waits : (s.harts i).WaitsAt lock how call) : ∀ guard ∈ (s.harts i).guards, guard.lock.rank < lock.rank := by
  obtain ⟨blocks, -, _, _, program⟩ := waits
  have current := h i
  rw [program] at current
  exact fun guard member => current.1 blocks guard.lock (mem_map_of_mem member)

/-- How far a hart that waits is in the order; a writer that waits for the readers only is further than all who wait
for its bit. -/
def Hart.waitRank : Nat :=
  match hart.program, hart.call with
  | .acquire _ lock _ _, some call => 2 * lock.rank + if call = .rw .claimed then 1 else 0
  | _, _ => 0

theorem Hart.WaitsAt.waitRank {hart : Hart} {lock : LockName} {how : How} {call : Acquiring}
    (waits : hart.WaitsAt lock how call) : hart.waitRank = 2 * lock.rank + if call = .rw .claimed then 1 else 0 := by
  obtain ⟨-, inCall, _, _, program⟩ := waits
  rw [Hart.waitRank, program, inCall]

theorem waits_rise (h : InOrder s) (a b c : Nat) (first : WaitsFor s a b) (second : WaitsFor s b c) :
    (s.harts a).waitRank < (s.harts b).waitRank := by
  obtain ⟨_, _, _, waits, has⟩ := first
  rcases has with ⟨guard, member, same, -⟩ | ⟨unclaimed, claims⟩
  · obtain ⟨_, _, _, waits', -⟩ := second
    have below := h.below waits' guard member
    rw [same] at below
    rw [waits.waitRank, waits'.waitRank]
    split <;> omega
  · rw [waits.waitRank, claims.waitRank, if_neg unclaimed]
    exact Nat.lt_succ_self _

/-- **No deadlock.** For every number of harts: in a run without `sys_fs_is_dir` reaching its listing on hart 0, no
hart waits for a lock of which it has a guard in a conflicting mode, and no harts wait for one another in a cycle. -/
theorem no_deadlock {actions : List Action} {s : System}
    (run : Run (guarded (fun _ => Admits) systemStep) .init actions s) :
    (∀ h lock how call, (s.harts h).WaitsAt lock how call → ∀ guard ∈ (s.harts h).guards, guard.lock = lock →
      ¬ how.conflicts guard.kind) ∧
    ∀ h, ¬ Relation.TransGen (WaitsFor s) h h := by
  have h : InOrder s := run.invariant (fun _ _ _ h taken => inOrder_step h taken.1 taken.2) inOrder_init
  refine ⟨fun i lock how call waits guard member same => ?_,
    acyclic_of_rank (fun i => (s.harts i).waitRank) (waits_rise h)⟩
  have below := h.below waits guard member
  rw [same] at below
  exact absurd below (Nat.lt_irrefl _)

/-- Everything is set up, and paths lead to the mounted `GlobalSfs`. -/
def booted : Facts where
  readable := true
  fs := true
  blk := true
  vfs := true
  net := true
  target := .sfs
  mounts := [.sfs]
  rounds := 0
  sfsRounds := 0
  answers := true
  queued := true

/-- Hart 1 reads in `sys_fs_is_dir` while hart 0 lists a directory. -/
def besideReader : List Action :=
  [.start 1 .sysFsIsDir booted, .access 1 false, .access 1 false, .access 1 false, .start 0 .fsList booted,
    .access 0 false, .access 0 false, .access 0 false, .access 0 false, .access 0 false, .access 0 false,
    .access 0 false]

theorem no_deadlock_beside_reader : ∃ s, Run (guarded (fun _ => Admits) systemStep) .init besideReader s ∧
    WaitsFor s 0 1 ∧ ¬ Relation.TransGen (WaitsFor s) 0 0 := by
  have run : Run (guarded (fun _ => Admits) systemStep) .init besideReader _ :=
    .cons ⟨by simp [Admits], trivial, rfl, rfl, rfl⟩ (.cons ⟨trivial, rfl⟩ (.cons ⟨trivial, rfl⟩ (.cons ⟨trivial, rfl⟩
      (.cons ⟨trivial, trivial, rfl, rfl, rfl⟩ (.cons ⟨trivial, rfl⟩ (.cons ⟨trivial, rfl⟩ (.cons ⟨trivial, rfl⟩
      (.cons ⟨trivial, rfl⟩ (.cons ⟨trivial, rfl⟩ (.cons ⟨trivial, rfl⟩ (.cons ⟨trivial, rfl⟩ (.nil _))))))))))))
  refine ⟨_, run, ⟨.fsState, .write, .rw .claimed, ⟨rfl, rfl, _, _, rfl⟩, .inl ⟨⟨.fsState, .read⟩, ?_, rfl, rfl⟩⟩,
    (no_deadlock run).2 0⟩
  exact mem_cons_self

/-- `sys_fs_is_dir` on hart 0, up to the claim of the writer bit. -/
def isDirOnHart0 : List Action := .start 0 .sysFsIsDir booted :: List.replicate 13 (.access 0 false)

/-- Hart 0 holds a read guard of `FS_STATE` and waits, in its own listing, for the readers of `FS_STATE` to leave. -/
theorem waits_for_itself : ∃ s, Run systemStep .init isDirOnHart0 s ∧
    (s.harts 0).WaitsAt .fsState .write (.rw .claimed) ∧ ⟨.fsState, .read⟩ ∈ (s.harts 0).guards ∧ WaitsFor s 0 0 := by
  have run : Run systemStep .init isDirOnHart0 _ :=
    .cons ⟨trivial, rfl, rfl, rfl⟩ (.cons rfl (.cons rfl (.cons rfl (.cons rfl (.cons rfl (.cons rfl (.cons rfl
      (.cons rfl (.cons rfl (.cons rfl (.cons rfl (.cons rfl (.cons rfl (.nil _))))))))))))))
  refine ⟨_, run, ⟨rfl, rfl, _, _, rfl⟩, ?_, .fsState, .write, .rw .claimed, ⟨rfl, rfl, _, _, rfl⟩,
    .inl ⟨⟨.fsState, .read⟩, ?_, rfl, rfl⟩⟩
  · decide
  · decide

end HavyOs.Lock
