import HavyOs.Lib.Wire

/-!
# 9P messages

The messages of 9P2000.L that the driver sends, as `virtio_p9.rs` writes them, and how a server
reads them. A message has its size in front; the driver cuts a request at the negotiated size
without changing that field. A server takes a message whose size is not its length to be
malformed; of a `Twrite` it may take the bytes that came.
-/

namespace HavyOs.P9

open Lib List

/-! ## Constants -/

def tVersion : UInt8 := 100
def rVersion : UInt8 := 101
def tAttach : UInt8 := 104
def rAttach : UInt8 := 105
def tWalk : UInt8 := 110
def rWalk : UInt8 := 111
def tLopen : UInt8 := 12
def rLopen : UInt8 := 13
def tLcreate : UInt8 := 14
def rLcreate : UInt8 := 15
def tRead : UInt8 := 116
def rRead : UInt8 := 117
def tWrite : UInt8 := 118
def rWrite : UInt8 := 119
def tClunk : UInt8 := 120
def rClunk : UInt8 := 121

def oRdonly : Nat := 0
def oWronly : Nat := 1

/-- `O_WRONLY | O_CREAT | O_TRUNC`. -/
def createFlags : Nat := 0x241

/-! ## Writing -/

/-- `build_header`, the fields and `finalize_message`. -/
def message (msgType : UInt8) (tag : Nat) (body : List UInt8) : List UInt8 :=
  toLe 4 (7 + body.length) ++ msgType :: toLe 2 tag ++ body

variable (bytes : List UInt8)

/-- A string: `len[2]` and the bytes. -/
def text : List UInt8 := toLe 2 bytes.length ++ bytes

def protocolVersion : List UInt8 := [57, 80, 50, 48, 48, 48, 46, 76]

def versionBody (msize : Nat) : List UInt8 := toLe 4 msize ++ text protocolVersion

variable (fid : UInt32)

/-- The fields of `Tattach`: no `afid`, no names. -/
def attachBody : List UInt8 :=
  toLe 4 fid.toNat ++ toLe 4 0xFFFFFFFF ++ toLe 2 0 ++ toLe 2 0 ++ toLe 4 0

def walkBody (newFid : UInt32) (names : List (List UInt8)) : List UInt8 :=
  toLe 4 fid.toNat ++ toLe 4 newFid.toNat ++ toLe 2 names.length ++ (names.map text).flatten

def lopenBody (flags : Nat) : List UInt8 := toLe 4 fid.toNat ++ toLe 4 flags

/-- The fields of `Tlcreate`, with mode 0644 and group 0. -/
def lcreateBody (name : List UInt8) : List UInt8 :=
  toLe 4 fid.toNat ++ text name ++ toLe 4 createFlags ++ toLe 4 0o644 ++ toLe 4 0

def readBody (offset count : Nat) : List UInt8 := toLe 4 fid.toNat ++ toLe 8 offset ++ toLe 4 count

def writeBody (offset : Nat) (data : List UInt8) : List UInt8 :=
  toLe 4 fid.toNat ++ toLe 8 offset ++ toLe 4 data.length ++ data

def clunkBody : List UInt8 := toLe 4 fid.toNat

/-! ## Reading -/

/-- A request as a server understands it. -/
inductive Tmessage where
  | version (msize : Nat)
  | attach (fid : UInt32)
  | walk (fid newFid : UInt32) (names : List (List UInt8))
  | lopen (fid : UInt32) (flags : Nat)
  | lcreate (fid : UInt32) (name : List UInt8) (flags : Nat)
  | read (fid : UInt32) (offset count : Nat)
  /-- The data is what came, at most `count` bytes. -/
  | write (fid : UInt32) (offset : Nat) (data : List UInt8)
  | clunk (fid : UInt32)
deriving DecidableEq, Repr

def readText : Reader (List UInt8) := do
  let n ← readLe 2
  readBytes n

def readFid : Reader UInt32 := do
  let fid ← readLe 4
  pure (UInt32.ofNat fid)

def readFields (msgType : UInt8) : Reader Tmessage :=
  if msgType = tVersion then do
    let msize ← readLe 4
    let _ ← readText
    pure (.version msize)
  else if msgType = tAttach then do
    let fid ← readFid
    let _ ← readLe 4
    let _ ← readText
    let _ ← readText
    let _ ← readLe 4
    pure (.attach fid)
  else if msgType = tWalk then do
    let fid ← readFid
    let newFid ← readFid
    let n ← readLe 2
    let names ← readMany readText n
    pure (.walk fid newFid names)
  else if msgType = tLopen then do
    let fid ← readFid
    let flags ← readLe 4
    pure (.lopen fid flags)
  else if msgType = tLcreate then do
    let fid ← readFid
    let name ← readText
    let flags ← readLe 4
    let _ ← readLe 4
    let _ ← readLe 4
    pure (.lcreate fid name flags)
  else if msgType = tRead then do
    let fid ← readFid
    let offset ← readLe 8
    let count ← readLe 4
    pure (.read fid offset count)
  else if msgType = tClunk then do
    let fid ← readFid
    pure (.clunk fid)
  else failure

/-- The fields of a `Twrite` and the data that came. -/
def readWrite : Reader Tmessage := do
  let fid ← readFid
  let offset ← readLe 8
  let count ← readLe 4
  let data ← get
  pure (.write fid offset (data.take count))

def tagField : Nat := fromLe ((bytes.drop 5).take 2)

def decode : Option Tmessage :=
  let msgType := bytes.getD 4 0
  if msgType = tWrite then (readWrite (bytes.drop 7)).map Prod.fst
  else if fromLe (bytes.take 4) = bytes.length then
    match readFields msgType (bytes.drop 7) with
    | some (request, []) => some request
    | _ => none
  else none

/-! ## What is written is read back -/

section Header

variable {msgType : UInt8} {tag : Nat} {body : List UInt8}

@[simp] theorem length_message : (message msgType tag body).length = 7 + body.length := by
  simp only [message, length_append, length_cons, toLe_length]

theorem message_eq (msgType : UInt8) (tag : Nat) (body : List UInt8) :
    ∃ header, header.length = 7 ∧ message msgType tag body = header ++ body ∧ header.getD 4 0 = msgType ∧
      fromLe (header.take 4) = (7 + body.length) % 256 ^ 4 := by
  refine ⟨toLe 4 (7 + body.length) ++ msgType :: toLe 2 tag, by simp, by simp [message], ?_, ?_⟩
  · simp
  · have size : (toLe 4 (7 + body.length) ++ msgType :: toLe 2 tag).take 4 = toLe 4 (7 + body.length) := by
      rw [take_append_of_le_length (by simp), take_of_length_le (by simp)]
    rw [size, fromLe_toLe]

theorem drop_message : (message msgType tag body).drop 7 = body := by
  obtain ⟨_, seven, split, -, -⟩ := message_eq msgType tag body
  rw [split, ← seven, drop_left]

theorem type_message : (message msgType tag body).getD 4 0 = msgType := by
  obtain ⟨_, _, split, type, -⟩ := message_eq msgType tag body
  rw [split, ← type, getD_eq_getElem?_getD, getElem?_append_left (by omega), getD_eq_getElem?_getD]

theorem size_message (short : 7 + body.length < 2 ^ 32) :
    fromLe ((message msgType tag body).take 4) = 7 + body.length := by
  obtain ⟨_, _, split, -, size⟩ := message_eq msgType tag body
  rw [split, take_append_of_le_length (by omega), size]
  exact Nat.mod_eq_of_lt short

theorem decode_cut {msize : Nat} (other : msgType ≠ tWrite) (short : 7 + body.length < 2 ^ 32)
    (cut : msize < 7 + body.length) : decode ((message msgType tag body).take msize) = none := by
  have length : ((message msgType tag body).take msize).length = msize := by
    rw [length_take, length_message]
    omega
  rcases Nat.lt_or_ge 4 msize with long | _
  · have type : ((message msgType tag body).take msize).getD 4 0 = msgType := by
      rw [getD_eq_getElem?_getD, getElem?_take, if_pos long, ← getD_eq_getElem?_getD, type_message]
    have size : fromLe (((message msgType tag body).take msize).take 4) = 7 + body.length := by
      rw [take_take, Nat.min_eq_left (by omega), size_message short]
    simp only [decode]
    rw [type, if_neg other, if_neg (by omega)]
  · have type : ((message msgType tag body).take msize).getD 4 0 = 0 := by
      rw [getD_eq_getElem?_getD, getElem?_eq_none (by omega)]
      rfl
    simp only [decode]
    rw [type, if_neg (by decide)]
    split <;> rfl

/-- What a server makes of a request of which at most `msize` bytes come. -/
theorem decode_take {msize : Nat} {request : Tmessage} (other : msgType ≠ tWrite) (short : 7 + body.length < 2 ^ 32)
    (fields : 7 + body.length ≤ msize → readFields msgType body = some (request, [])) :
    decode ((message msgType tag body).take msize) =
      if 7 + body.length ≤ msize then some request else none := by
  split_ifs with fits
  · rw [take_of_length_le (by rw [length_message]; omega)]
    simp only [decode]
    rw [type_message, if_neg other, size_message short, length_message, if_pos rfl, drop_message, fields fits]
  · exact decode_cut other short (Nat.lt_of_not_le fits)

end Header

section Fields

variable {fid newFid : UInt32} {rest : List UInt8}

theorem readFid_append (fid : UInt32) (rest : List UInt8) : readFid (toLe 4 fid.toNat ++ rest) = some (fid, rest) := by
  have small : fid.toNat < 256 ^ 4 := fid.toNat_lt
  rw [readFid, reader_bind (readLe_of_lt small rest), UInt32.ofNat_toNat]
  rfl

theorem readText_append {bytes : List UInt8} (short : bytes.length < 65536) (rest : List UInt8) :
    readText (text bytes ++ rest) = some (bytes, rest) := by
  have small : bytes.length < 256 ^ 2 := short
  rw [text, append_assoc, readText, reader_bind (readLe_of_lt small _), readBytes_append]

theorem readFields_walk {names : List (List UInt8)} (few : names.length < 65536)
    (short : ∀ name ∈ names, name.length < 65536) :
    readFields tWalk (walkBody fid newFid names) = some (.walk fid newFid names, []) := by
  have small : names.length < 256 ^ 2 := few
  have all := readMany_append (fun name mem rest => readText_append (short name mem) rest) []
  rw [append_nil] at all
  simp only [walkBody, append_assoc]
  change (readFid >>= _) _ = _
  rw [reader_bind (readFid_append fid _), reader_bind (readFid_append newFid _), reader_bind (readLe_of_lt small _),
    reader_bind all]
  rfl

theorem readFields_lopen {flags : Nat} (small : flags < 2 ^ 32) :
    readFields tLopen (lopenBody fid flags) = some (.lopen fid flags, []) := by
  have field := readLe_of_lt (show flags < 256 ^ 4 from small) []
  rw [append_nil] at field
  change (readFid >>= _) _ = _
  rw [lopenBody, reader_bind (readFid_append fid _), reader_bind field]
  rfl

theorem readFields_lcreate {name : List UInt8} (short : name.length < 65536) :
    readFields tLcreate (lcreateBody fid name) = some (.lcreate fid name createFlags, []) := by
  simp only [lcreateBody, append_assoc]
  change (readFid >>= _) _ = _
  rw [reader_bind (readFid_append fid _), reader_bind (readText_append short _)]
  rfl

theorem readFields_read {offset count : Nat} (inFile : offset < 2 ^ 64) (small : count < 2 ^ 32) :
    readFields tRead (readBody fid offset count) = some (.read fid offset count, []) := by
  have far : offset < 256 ^ 8 := inFile
  have field := readLe_of_lt (show count < 256 ^ 4 from small) []
  rw [append_nil] at field
  simp only [readBody, append_assoc]
  change (readFid >>= _) _ = _
  rw [reader_bind (readFid_append fid _), reader_bind (readLe_of_lt far _), reader_bind field]
  rfl

theorem readFields_clunk : readFields tClunk (clunkBody fid) = some (.clunk fid, []) := by
  have field := readFid_append fid []
  rw [append_nil] at field
  change (readFid >>= _) _ = _
  rw [clunkBody, reader_bind field]
  rfl

/-! ### What a server makes of the driver's messages -/

theorem lengths_lt_walkBody (fid newFid : UInt32) (names : List (List UInt8)) :
    names.length ≤ (walkBody fid newFid names).length ∧
    ∀ name ∈ names, name.length ≤ (walkBody fid newFid names).length := by
  have all : names.length ≤ (names.map text).flatten.length ∧
      ∀ name ∈ names, name.length ≤ (names.map text).flatten.length := by
    induction names with
    | nil => simp
    | cons first names ih =>
      simp only [map_cons, flatten_cons, length_append, length_cons, forall_mem_cons, text, toLe_length]
      refine ⟨by omega, by omega, ?_⟩
      intro name mem
      have short := ih.2 name mem
      omega
  simp only [walkBody, length_append]
  refine ⟨by omega, ?_⟩
  intro name mem
  have short := all.2 name mem
  omega

variable {tag msize : Nat}

theorem decode_walk {names : List (List UInt8)} (short : 7 + (walkBody fid newFid names).length < 2 ^ 32)
    (small : msize < 65536) :
    decode ((message tWalk tag (walkBody fid newFid names)).take msize) =
      if 7 + (walkBody fid newFid names).length ≤ msize then some (.walk fid newFid names) else none := by
  obtain ⟨_, each⟩ := lengths_lt_walkBody fid newFid names
  refine decode_take (by decide) short fun whole => readFields_walk (by omega) ?_
  intro name mem
  have one := each name mem
  omega

theorem decode_lopen {flags : Nat} (small : flags < 2 ^ 32) :
    decode ((message tLopen tag (lopenBody fid flags)).take msize) =
      if 15 ≤ msize then some (.lopen fid flags) else none :=
  decode_take (by decide) (by simp [lopenBody]) fun _ => readFields_lopen small

theorem length_lcreateBody {name : List UInt8} : (lcreateBody fid name).length = 18 + name.length := by
  simp only [lcreateBody, text, length_append, toLe_length]
  omega

theorem decode_lcreate {name : List UInt8} (short : name.length < 2 ^ 31) (small : msize < 65536) :
    decode ((message tLcreate tag (lcreateBody fid name)).take msize) =
      if 7 + (lcreateBody fid name).length ≤ msize then some (.lcreate fid name createFlags) else none := by
  have length : (lcreateBody fid name).length = 18 + name.length := length_lcreateBody
  exact decode_take (by decide) (by omega) fun whole => readFields_lcreate (by omega)

theorem decode_read {offset count : Nat} (inFile : offset < 2 ^ 64) (small : count < 2 ^ 32) :
    decode ((message tRead tag (readBody fid offset count)).take msize) =
      if 23 ≤ msize then some (.read fid offset count) else none :=
  decode_take (by decide) (by simp [readBody]) fun _ => readFields_read inFile small

theorem decode_clunk :
    decode ((message tClunk tag (clunkBody fid)).take msize) = if 11 ≤ msize then some (.clunk fid) else none :=
  decode_take (by decide) (by simp [clunkBody]) fun _ => readFields_clunk

/-- Of a `Twrite` the server takes the data that came. -/
theorem decode_write {offset : Nat} {data : List UInt8} (inFile : offset < 2 ^ 64) (fields : 23 ≤ msize) :
    decode ((message tWrite tag (writeBody fid offset data)).take msize) =
      some (.write fid offset ((data.take (msize - 23)).take (data.length % 2 ^ 32))) := by
  obtain ⟨header, seven, split, type, -⟩ := message_eq tWrite tag (writeBody fid offset data)
  let before := toLe 4 fid.toNat ++ toLe 8 offset ++ toLe 4 data.length
  have sixteen : before.length = 16 := by simp [before]
  have came :
      (message tWrite tag (writeBody fid offset data)).take msize = header ++ (before ++ data.take (msize - 23)) := by
    have front : (header ++ before).length = 23 := by rw [length_append, seven, sixteen]
    rw [split, show writeBody fid offset data = before ++ data from rfl, ← append_assoc, take_append, front,
      take_of_length_le (by omega), append_assoc]
  have type' : (header ++ (before ++ data.take (msize - 23))).getD 4 0 = tWrite := by
    rw [← type, getD_eq_getElem?_getD, getElem?_append_left (by omega), getD_eq_getElem?_getD]
  have fields' : (header ++ (before ++ data.take (msize - 23))).drop 7 = before ++ data.take (msize - 23) := by
    rw [← seven, drop_left]
  have read : readWrite (before ++ data.take (msize - 23)) =
      some (.write fid offset ((data.take (msize - 23)).take (data.length % 2 ^ 32)), data.take (msize - 23)) := by
    simp only [before, append_assoc]
    rw [readWrite, reader_bind (readFid_append fid _), reader_bind (readLe_of_lt (show offset < 256 ^ 8 from inFile) _),
      reader_bind (readLe_append 4 _ _)]
    rfl
  simp only [decode]
  rw [came, type', fields', read]
  rfl

end Fields

end HavyOs.P9
