import HavyOs.Fs.Layout
import HavyOs.P9.Message
import HavyOs.P9.Queue

/-!
# Reading a directory

`readdir` of `virtio_p9.rs`. The reply holds the entries one after the other, each with a name of
its own length, and may end within one.
-/

namespace HavyOs.P9

open Lib List
open Fs (asBytes fromUtf8 fromUtf8_asBytes)

def tReaddir : UInt8 := 40
def rReaddir : UInt8 := 41

/-- What `readdir` returns of an entry. -/
structure DirEntry where
  name : String
  isDir : Bool

/-- The loop of `readdir`, on `data[i..]`; `none` is a read outside. -/
def entriesFrom (rest : List UInt8) : Option (List DirEntry) :=
  if 24 ≤ rest.length then
    rest.head?.bind fun qtype =>
      if (rest.drop 22).length < 2 then some []
      else (readLe 2 (rest.drop 22)).bind fun (nameLen, behind) =>
        if behind.length < nameLen then some []
        else (readBytes nameLen behind).bind fun (name, _) =>
          (entriesFrom (rest.drop (24 + nameLen))).map (⟨(fromUtf8 name).getD "", qtype &&& 0x80 != 0⟩ :: ·)
  else some []
termination_by rest.length

/-- What `readdir` makes of a response. -/
def readEntries (resp : List UInt8) : Option (List DirEntry) :=
  if 11 ≤ resp.length then
    (readLe 4 (resp.drop 7)).bind fun (dataLen, _) =>
      entriesFrom ((resp.take (min (11 + dataLen) resp.length)).drop 11)
  else some []

def readdir {δ : Type} (serve : δ → List UInt8 → Option (List UInt8) × δ) (msize tag : Nat) (fid : UInt32)
    (offset count : Nat)
    (schedule : Nat → List Beat) : EStateM String (Queue δ) (Option (List DirEntry)) := do
  let resp ← transact serve msize (message tReaddir tag (readBody fid offset count)) schedule
  pure (readEntries resp)

/-- An entry as a server has it: qid, offset, type and name. -/
structure Dirent where
  qtype : UInt8
  version : Nat
  path : Nat
  offset : Nat
  dtype : UInt8
  name : String
  short : (asBytes name).length < 65536

namespace Dirent

variable (d : Dirent)

/-- The qid, the offset and the type. -/
def front : List UInt8 := d.qtype :: (toLe 4 d.version ++ toLe 8 d.path ++ toLe 8 d.offset ++ [d.dtype])

def bytes : List UInt8 := d.front ++ text (asBytes d.name)

def entry : DirEntry := ⟨d.name, d.qtype &&& 0x80 != 0⟩

theorem length_front : d.front.length = 22 := by
  simp [front]

end Dirent

variable {rest : List UInt8}

theorem readLe_of_le {n : Nat} (room : n ≤ rest.length) : readLe n rest = some (fromLe (rest.take n), rest.drop n) :=
  reader_bind (if_pos room)

theorem entriesFrom_eq {qtype : UInt8} {nameLen : Nat} (enough : 24 ≤ rest.length) (head : rest.head? = some qtype)
    (len : fromLe ((rest.drop 22).take 2) = nameLen) : entriesFrom rest =
    if rest.length < 24 + nameLen then some []
    else (entriesFrom (rest.drop (24 + nameLen))).map
      (⟨(fromUtf8 ((rest.drop 24).take nameLen)).getD "", qtype &&& 0x80 != 0⟩ :: ·) := by
  have room : 2 ≤ (rest.drop 22).length := by rw [length_drop]; omega
  rw [entriesFrom, head, Option.bind_some, if_neg (Nat.not_lt.mpr room), readLe_of_le room, len, Option.bind_some,
    drop_drop]
  dsimp only
  rw [length_drop]
  split_ifs with behind cut cut
  · rfl
  · omega
  · omega
  · rw [readBytes, if_pos (by rw [length_drop]; omega)]
    rfl

theorem entriesFrom_total (rest : List UInt8) : ∃ entries, entriesFrom rest = some entries := by
  induction length : rest.length using Nat.strong_induction_on generalizing rest with
  | _ n ih =>
    by_cases enough : 24 ≤ rest.length
    · obtain ⟨qtype, tail, rfl⟩ := exists_cons_of_ne_nil (ne_nil_of_length_pos (by omega : 0 < rest.length))
      rw [entriesFrom_eq enough rfl rfl]
      split_ifs with cut
      · exact ⟨_, rfl⟩
      · have shorter : ((qtype :: tail).drop (24 + fromLe (((qtype :: tail).drop 22).take 2))).length < n := by
          rw [length_drop]
          omega
        obtain ⟨_, found⟩ := ih _ shorter _ rfl
        exact ⟨_, congrArg _ found⟩
    · exact ⟨[], by rw [entriesFrom, if_neg enough]⟩

namespace Dirent

variable (d : Dirent)

theorem length_bytes : d.bytes.length = 24 + (asBytes d.name).length := by
  simp [bytes, text, length_front]
  omega

/-- Where the front and the length of the name lie there, the name is what follows. -/
theorem entriesFrom_front (starts : rest.take 24 = d.front ++ toLe 2 (asBytes d.name).length) : entriesFrom rest =
    if rest.length < 24 + (asBytes d.name).length then some []
    else (entriesFrom (rest.drop (24 + (asBytes d.name).length))).map
      (⟨(fromUtf8 ((rest.drop 24).take (asBytes d.name).length)).getD "", d.qtype &&& 0x80 != 0⟩ :: ·) := by
  have length := congrArg List.length starts
  rw [length_take, length_append, length_front, toLe_length] at length
  refine entriesFrom_eq (by omega) ?_ ?_
  · have head := congrArg head? starts
    rwa [head?_take] at head
  · rw [take_drop, starts, ← d.length_front, drop_left, fromLe_toLe]
    exact Nat.mod_eq_of_lt d.short

theorem take_bytes : d.bytes.take 24 = d.front ++ toLe 2 (asBytes d.name).length := by
  rw [bytes, text, ← append_assoc]
  exact take_left' (by simp [length_front])

theorem drop_bytes (more : List UInt8) : (d.bytes ++ more).drop 24 = asBytes d.name ++ more := by
  rw [bytes, text, ← append_assoc, append_assoc]
  exact drop_left' (by simp [length_front])

theorem entriesFrom_bytes (more : List UInt8) :
    entriesFrom (d.bytes ++ more) = (entriesFrom more).map (d.entry :: ·) := by
  have length := d.length_bytes
  rw [d.entriesFrom_front (by rw [take_append_of_le_length (by omega), take_bytes]),
    if_neg (by rw [length_append]; omega),
    ← drop_drop, drop_bytes, drop_left, take_left, fromUtf8_asBytes]
  rfl

theorem entriesFrom_cut {k : Nat} (cut : k < d.bytes.length) : entriesFrom (d.bytes.take k) = some [] := by
  have length := d.length_bytes
  by_cases enough : 24 ≤ k
  · rw [d.entriesFrom_front (by rw [take_take, Nat.min_eq_left enough, take_bytes]),
      if_pos (by rw [length_take]; omega)]
  · rw [entriesFrom, if_neg (by rw [length_take]; omega)]

theorem entriesFrom_reply (dirents : List Dirent) {k : Nat} (cut : k < d.bytes.length) :
    entriesFrom (dirents.flatMap bytes ++ d.bytes.take k) = some (dirents.map entry) := by
  induction dirents with
  | nil => exact d.entriesFrom_cut cut
  | cons first dirents ih => rw [flatMap_cons, append_assoc, entriesFrom_bytes, ih, Option.map_some, map_cons]

end Dirent

theorem readEntries_total (resp : List UInt8) : ∃ entries, readEntries resp = some entries := by
  rw [readEntries]
  split_ifs with header
  · rw [readLe_of_le (by rw [length_drop]; omega)]
    exact entriesFrom_total _
  · exact ⟨[], rfl⟩

theorem readEntries_message {tag dataLen : Nat} {data : List UInt8} (small : dataLen < 2 ^ 32)
    (whole : data.length ≤ dataLen) :
    readEntries (message rReaddir tag (toLe 4 dataLen ++ data)) = entriesFrom data := by
  have length : (message rReaddir tag (toLe 4 dataLen ++ data)).length = 11 + data.length := by
    rw [length_message, length_append, toLe_length]
    omega
  rw [readEntries, if_pos (by omega), drop_message, readLe_of_lt small, Option.bind_some]
  dsimp only
  rw [Nat.min_eq_right (by omega), take_length, ← drop_drop (i := 4) (j := 7), drop_message,
    drop_left' (toLe_length ..)]

/-- **Directory entries.** The loop never reads outside a response and ends on every one. Of a reply that holds the
entries of a server, the last one perhaps cut, it returns the names and flags of those that are complete. -/
theorem readdir_decodes : (∀ resp, ∃ entries, readEntries resp = some entries) ∧
    ∀ (msize tag dataLen : Nat) (dirents : List Dirent) (last : Dirent) (k : Nat) (stale : List UInt8),
      let data := dirents.flatMap Dirent.bytes ++ last.bytes.take k
      k < last.bytes.length → data.length ≤ dataLen → dataLen < 2 ^ 32 → 11 + data.length ≤ msize → msize < 2 ^ 32 →
      let buf := message rReaddir tag (toLe 4 dataLen ++ data) ++ stale
      readEntries (buf.take (min (fromLe (buf.take 4)) msize)) = some (dirents.map Dirent.entry) := by
  refine ⟨readEntries_total, ?_⟩
  intro msize tag dataLen dirents last k stale data cut whole small fits bound
  have length : (toLe 4 dataLen ++ data).length = 4 + data.length := by rw [length_append, toLe_length]
  have short : 7 + (toLe 4 dataLen ++ data).length < 2 ^ 32 := by omega
  have size : fromLe ((message rReaddir tag (toLe 4 dataLen ++ data) ++ stale).take 4) =
      7 + (toLe 4 dataLen ++ data).length := by
    rw [take_append_of_le_length (by rw [length_message]; omega), size_message short]
  dsimp only
  rw [size, Nat.min_eq_left (by omega), take_left' length_message, readEntries_message small whole]
  exact last.entriesFrom_reply dirents cut

theorem short_letter : (asBytes "a").length < 65536 := by decide

/-- A directory and a file, and a third entry of which three bytes came, with an older reply behind it. -/
theorem readdir_decodes_cut :
    let folder : Dirent := ⟨0x80, 0, 1, 1, 4, "a", short_letter⟩
    let file : Dirent := ⟨0, 0, 2, 2, 8, "a", short_letter⟩
    let data := [folder, file].flatMap Dirent.bytes ++ file.bytes.take 3
    let buf := message rReaddir 1 (toLe 4 8000 ++ data) ++ [1, 2, 3]
    readEntries (buf.take (min (fromLe (buf.take 4)) defaultMsize)) = some [⟨"a", true⟩, ⟨"a", false⟩] :=
  readdir_decodes.2 defaultMsize 1 8000 _ _ 3 [1, 2, 3] (by decide) (by decide) (by decide) (by decide) (by decide)

end HavyOs.P9
