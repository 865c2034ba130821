import LibYaml.Fallible
import LibYaml.Reader.Decoding
import LibYaml.Scanner.Input

/-!
# The reader

Bytes come from the read handler into the raw buffer; decoded, and encoded in UTF-8, their characters
go to the buffer that the scanner looks at.  The buffer is the memory it is: what lies behind `last` is
what has been there before.
-/

namespace LibYaml

open Fallible

/-- A read handler with its data: it hands over bytes, for which there is room for so many, or answers
that it failed.  There are not more than `left` bytes to come. -/
class ReadHandler (σ : Type) where
  read : Nat → σ → Option Bytes × σ
  left : σ → Nat

/-- The part of `yaml_parser_t` that reading reads and writes.  Of the raw buffer `raw` is what has not
been decoded, `rawPassed` bytes behind its start; `pointer` and `last` count from the start of the
buffer's `memory`. -/
structure Reader (σ : Type) where
  handler : σ
  eof : Bool := false
  encoding : Encoding := .any
  offset : Nat := 0
  raw : Bytes := []
  rawPassed : Nat := 0
  memory : View
  pointer : Nat := 0
  last : Nat := 0
  unread : Nat := 0

/-- A count in 64 bits. -/
def wrapping (n : Nat) : Nat := n % 2 ^ 64

namespace Reader

def rawBufferSize : Nat := 16384

def bufferSize : Nat := rawBufferSize * 3

/-- `MAX_FILE_SIZE` -/
def maxFileSize : Nat := 2 ^ 63 - 1

abbrev ReadM (σ : Type) := EStateM Fault (Reader σ)

variable {σ : Type}

/-- `yaml_parser_set_reader_error` -/
def readerError {α : Type} (problem : String) (offset : Nat) (value : Int) : ReadM σ α :=
  throw (.reported (.reader problem offset value))

/-! ## The raw buffer -/

def updateRawBuffer [ReadHandler σ] : ReadM σ Unit := do
  let r ← get
  if (r.rawPassed = 0 && r.raw.length = rawBufferSize) || r.eof then return
  else
    match ReadHandler.read (rawBufferSize - r.raw.length) r.handler with
    | (none, handler) => do
      set { r with rawPassed := 0, handler := handler }
      readerError "input error" r.offset (-1)
    | (some piece, handler) => do
      -- a handler that hands over more writes behind the end
      if rawBufferSize - r.raw.length < piece.length then throw .undefined
      else set { r with
        rawPassed := 0
        handler := handler
        raw := r.raw ++ piece
        eof := piece.isEmpty }

def skipRaw (n : Nat) : ReadM σ Unit :=
  modify fun r => { r with raw := r.raw.drop n, rawPassed := r.rawPassed + n, offset := r.offset + n }

/-- Bytes for a byte order mark are read before it is looked for. -/
def awaitMark [ReadHandler σ] : ReadM σ (Round Unit Unit) := do
  let r ← get
  if !r.eof && r.raw.length < 3 then do
    updateRawBuffer
    return .again ()
  else return .leave ()

/-- The byte order mark that a text starts with, and the encoding it stands for. -/
def byteOrderMark (b : Bytes) : Encoding × Bytes :=
  if [0xFF, 0xFE].isPrefixOf b then (.utf16le, [0xFF, 0xFE])
  else if [0xFE, 0xFF].isPrefixOf b then (.utf16be, [0xFE, 0xFF])
  else if [0xEF, 0xBB, 0xBF].isPrefixOf b then (.utf8, [0xEF, 0xBB, 0xBF])
  else (.utf8, [])

def determineEncoding [ReadHandler σ] : ReadM σ Unit := do
  loop .outOfFuel (fun _ => awaitMark) 4 ()
  modify fun r => { r with encoding := (byteOrderMark r.raw).1 }
  let r ← get
  skipRaw (byteOrderMark r.raw).2.length

/-! ## The buffer -/

/-- The memory with `c` written to it. -/
def store (memory : View) (start : Nat) (c : Bytes) : View := fun k =>
  if start ≤ k ∧ k < start + c.length then c.getD (k - start) 0 else memory k

/-- A character joins the buffer. -/
def append (c : Bytes) : ReadM σ Unit := do
  let r ← get
  if bufferSize < r.last + c.length then throw .undefined
  else set { r with
    memory := store r.memory r.last c
    last := r.last + c.length
    unread := wrapping (r.unread + 1) }

/-- What is left in the buffer goes to its start. -/
def moved (r : Reader σ) : Reader σ :=
  if 0 < r.pointer && r.pointer < r.last then
    { r with
      memory := fun k => if k < r.last - r.pointer then r.memory (r.pointer + k) else r.memory k
      pointer := 0
      last := r.last - r.pointer }
  else if r.pointer = r.last then { r with pointer := 0, last := 0 }
  else r

/-- The characters that may stand in a text. -/
def isAllowed (value : Nat) : Bool :=
  value = 0x9 || value = 0xA || value = 0xD || (0x20 ≤ value && value ≤ 0x7E) || value = 0x85
    || (0xA0 ≤ value && value ≤ 0xD7FF) || (0xE000 ≤ value && value ≤ 0xFFFD)
    || (0x10000 ≤ value && value ≤ 0x10FFFF)

/-- A character goes from the raw buffer to the buffer. -/
def decodeCharacter : ReadM σ (Round Unit Unit) := do
  let r ← get
  if r.raw.isEmpty then return .leave ()
  else
    match decode r.encoding r.eof r.raw with
    | .incomplete => return .leave ()
    | .invalid problem k value => readerError problem (r.offset + k) value
    | .character value width => do
      if !isAllowed value then readerError "control characters are not allowed" r.offset value
      else do
        skipRaw width
        append (encodeOctets value)
        return .again ()

def decodeRaw : ReadM σ Unit := do
  let r ← get
  loop .outOfFuel (fun _ => decodeCharacter) (r.raw.length + 1) ()

def checkLength : ReadM σ Unit := do
  let r ← get
  if maxFileSize ≤ r.offset then readerError "input is too long" r.offset (-1) else return

/-- A round of the loop that fills the buffer up. -/
def fill [ReadHandler σ] (length : Nat) (first : Bool) : ReadM σ (Round Bool Unit) := do
  let r ← get
  if length ≤ r.unread then do
    checkLength
    return .leave ()
  else do
    onlyIf (!first || r.raw.isEmpty) updateRawBuffer
    decodeRaw
    let r ← get
    if r.eof then do
      append [0]
      checkLength
      return .leave ()
    else return .again false

def updateBuffer [ReadHandler σ] (length : Nat) : ReadM σ Unit := do
  checkLength
  let r ← get
  if r.eof && r.raw.isEmpty then return
  else if length ≤ r.unread then return
  else do
    onlyIf (r.encoding = .any) determineEncoding
    modify moved
    let r ← get
    loop .outOfFuel (fill length) (ReadHandler.left r.handler + 3) true

/-- `CACHE` -/
def cache [ReadHandler σ] (length : Nat) : ReadM σ Unit := do
  let r ← get
  if length ≤ r.unread then return else updateBuffer length

/-- The reader as `yaml_parser_initialize` leaves it, where the memory is what `malloc` has found, with
the handler and the encoding that have been set. -/
def init (handler : σ) (encoding : Encoding) (memory : View) : Reader σ :=
  { handler := handler, encoding := encoding, memory := memory }

/-- The pointer steps over a character of `k` bytes. -/
def advance (k : Nat) (r : Reader σ) : Reader σ :=
  { r with pointer := r.pointer + k, unread := wrapping (r.unread + (2 ^ 64 - 1)) }

/-- Once the input has ended, 1 until that is noted in the buffer. -/
def unended (r : Reader σ) : Nat := if r.eof && r.raw.isEmpty then 0 else 1

/-- What the scanner uses of the reader.  Faults that are not reported do not arise with a handler that
keeps to the room it is given. -/
instance [ReadHandler σ] : Input (Reader σ) where
  cache length r :=
    match cache length r with
    | .ok _ r' => .ok () r'
    | .error (.reported problem) r' => .error problem r'
    | .error _ r' => .error .memory r'
  view r := behind r.pointer r.memory
  advance := advance
  encoding r := r.encoding
  size r := r.unread + r.raw.length + ReadHandler.left r.handler + r.unended
  view_advance k r := by
    funext j
    show r.memory (r.pointer + k + j) = r.memory (r.pointer + (k + j))
    rw [Nat.add_assoc]

end Reader

/-! ## Handlers -/

/-- `yaml_string_read_handler`: the rest of the string. -/
structure StringInput where
  rest : Bytes

instance : ReadHandler StringInput where
  read size s := (some (s.rest.take size), ⟨s.rest.drop size⟩)
  left s := s.rest.length

/-- A handler that hands over given pieces, cut where there is no room for more. -/
structure Pieces where
  pieces : List Bytes

instance : ReadHandler Pieces where
  read size s :=
    match s.pieces with
    | [] => (some [], s)
    | piece :: pieces =>
      if piece.length ≤ size then (some piece, ⟨pieces⟩)
      else (some (piece.take size), ⟨piece.drop size :: pieces⟩)
  left s := s.pieces.flatten.length

end LibYaml
