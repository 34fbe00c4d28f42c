import HavyOs.Lib.Outcome
import HavyOs.Lib.Slice

/-!
# The block device under the filesystem

`platform/d1_mmc.rs` as far as the filesystem sees it: 512-byte sectors, read
and written whole. What the controller answers to a command is not determined by
the program, so a device carries the verdicts of its future commands, `fails k`
for the `k`-th command issued since boot. A refused write leaves its sector as
it was.
-/

namespace HavyOs.Fs

open HavyOs.Lib

/-- A sector's contents, `[u8; 512]`. -/
abbrev Block := Vector UInt8 512

def zeroBlock : Block := Vector.replicate 512 0

structure BlockDev where
  disk : Nat → Block
  fails : Nat → Bool
  issued : Nat

namespace BlockDev

/-- No command of this device is ever refused. -/
def Reliable (dev : BlockDev) : Prop := ∀ k, dev.fails k = false

variable (sector : Nat)

def readBlock : EStateM String BlockDev Block := do
  let dev ← get
  set { dev with issued := dev.issued + 1 }
  if dev.fails dev.issued then throw "Timeout" else pure (dev.disk sector)

def writeBlock (data : Block) : EStateM String BlockDev Unit := do
  let dev ← get
  set { dev with issued := dev.issued + 1 }
  if dev.fails dev.issued then throw "Timeout"
  else set { dev with disk := Function.update dev.disk sector data, issued := dev.issued + 1 }

/-- The attempts of `D1Mmc::read_sector`. -/
def readAttempts : Nat → EStateM String BlockDev Block
  | 0 => throw "IO Error"
  | attempts + 1 => tryCatch (readBlock sector) fun _ => readAttempts attempts

/-- `D1Mmc::read_sector`: up to three attempts. -/
def readSector : EStateM String BlockDev Block := readAttempts sector 3

/-- `D1Mmc::write_sector`: one attempt, its error renamed. -/
def writeSector (data : Block) : EStateM String BlockDev Unit :=
  tryCatch (writeBlock sector data) fun _ => throw "IO Error"

/-- What every command leaves of the device: its verdicts, and here its sectors too. -/
structure Untouched (before after : BlockDev) : Prop where
  disk : after.disk = before.disk
  fails : after.fails = before.fails

theorem Untouched.trans {a b c : BlockDev} (h : Untouched a b) (k : Untouched b c) : Untouched a c :=
  ⟨k.disk.trans h.disk, k.fails.trans h.fails⟩

variable (sector : Nat)

theorem readBlock_spec (dev : BlockDev) :
    wp (readBlock sector) (fun b after => b = dev.disk sector ∧ Untouched dev after)
      (fun _ after => Untouched dev after ∧ ∃ k, dev.fails k = true) dev := by
  simp only [readBlock, wp_bind, wp_get]
  split
  · rename_i refused
    exact ⟨⟨rfl, rfl⟩, dev.issued, refused⟩
  · exact ⟨rfl, rfl, rfl⟩

theorem readAttempts_spec : ∀ (attempts : Nat) (dev : BlockDev), (∃ k, dev.fails k = true) ∨ attempts ≠ 0 →
    wp (readAttempts sector attempts) (fun b after => b = dev.disk sector ∧ Untouched dev after)
      (fun e after => e = "IO Error" ∧ Untouched dev after ∧ ∃ k, dev.fails k = true) dev := by
  intro attempts
  induction attempts with
  | zero =>
    intro dev cause
    rcases cause with cause | absurd
    · exact ⟨rfl, ⟨rfl, rfl⟩, cause⟩
    · exact (absurd rfl).elim
  | succ attempts ih =>
    intro dev _
    rw [readAttempts, wp_tryCatch]
    apply wp_mono (readBlock_spec sector dev)
    · exact fun _ _ done => done
    · rintro _ after ⟨kept, k, refused⟩
      apply wp_mono (ih after (Or.inl ⟨k, by rw [kept.fails]; exact refused⟩))
      · rintro b last ⟨rfl, rest⟩
        exact ⟨by rw [kept.disk], kept.trans rest⟩
      · rintro e last ⟨rfl, rest, _⟩
        exact ⟨rfl, kept.trans rest, k, refused⟩

/-- A read returns the sector, or fails without an effect when some command was refused. -/
theorem readSector_spec (dev : BlockDev) :
    wp (readSector sector) (fun b after => b = dev.disk sector ∧ Untouched dev after)
      (fun e after => e = "IO Error" ∧ Untouched dev after ∧ ∃ k, dev.fails k = true) dev :=
  readAttempts_spec sector 3 dev (Or.inr (by decide))

/-- A write replaces its sector, or fails without an effect when its command was refused. -/
theorem writeSector_spec (data : Block) (dev : BlockDev) :
    wp (writeSector sector data)
      (fun _ after => after.disk = Function.update dev.disk sector data ∧ after.fails = dev.fails)
      (fun e after => e = "IO Error" ∧ Untouched dev after ∧ ∃ k, dev.fails k = true) dev := by
  simp only [writeSector, wp_tryCatch, writeBlock, wp_bind, wp_get]
  split
  · rename_i refused
    exact ⟨rfl, ⟨rfl, rfl⟩, dev.issued, refused⟩
  · exact ⟨rfl, rfl⟩

end BlockDev

end HavyOs.Fs
