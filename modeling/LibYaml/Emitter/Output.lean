import LibYaml.Characters
import LibYaml.Fallible

/-!
# The emitter's state and its output

Bytes go to a buffer, which `flush` hands to the write handler; `FLUSH` does so when the buffer has
no room for one more character.  A handler that fails leaves the call that was writing where it
stands: what the emitter had changed stays changed.

The stacks and the queue grow as far as they have to, and lines, columns and indents are unbounded.
-/

namespace LibYaml

/-- A write handler with its data: it takes the bytes or answers that it failed. -/
class WriteHandler (σ : Type) where
  write : Bytes → σ → Bool × σ

/-- A handler whose answers are given; when they run out it takes everything. -/
instance : WriteHandler (List Bool) where
  write _
    | [] => (true, [])
    | answer :: answers => (answer, answers)

/-- A handler that takes everything. -/
instance : WriteHandler Unit where
  write _ _ := (true, ())

inductive EmitterState
  | streamStart
  | firstDocumentStart | documentStart | documentContent | documentEnd
  | flowSequenceFirstItem | flowSequenceItem
  | flowMappingFirstKey | flowMappingKey | flowMappingSimpleValue | flowMappingValue
  | blockSequenceFirstItem | blockSequenceItem
  | blockMappingFirstKey | blockMappingKey | blockMappingSimpleValue | blockMappingValue
  | «end»
deriving DecidableEq, Repr

structure AnchorData where
  anchor : Option Bytes := none
  isAlias : Bool := false
deriving DecidableEq, Repr

structure TagData where
  handle : Option Bytes := none
  suffix : Option Bytes := none
deriving DecidableEq, Repr

structure ScalarData where
  value : Bytes := []
  multiline : Bool := false
  flowPlainAllowed : Bool := false
  blockPlainAllowed : Bool := false
  singleQuotedAllowed : Bool := false
  blockAllowed : Bool := false
  style : ScalarStyle := .any
deriving DecidableEq, Repr

/-- One call of the write handler: what lay in the buffer, the bytes handed over and the answer. -/
structure Flush where
  buffered : Bytes
  chunk : Bytes
  accepted : Bool
deriving DecidableEq, Repr

def outputBufferSize : Nat := 16384

def outputRawBufferSize : Nat := outputBufferSize * 2 + 2

/-- `yaml_emitter_t`: the top of a stack is the head of its list, save that the tag directives
stand in the order they are searched in.  The buffer is what lies before its pointer; one without a
capacity has no end.  No function reads `flushes`, the calls of the handler so far, the last one
first. -/
structure Emitter (σ : Type) where
  handler : σ
  buffer : Bytes := []
  capacity : Option Nat := some outputBufferSize
  rawBuffer : Bytes := []
  flushes : List Flush := []
  encoding : Encoding := .any
  canonical : Bool := false
  bestIndent : Int := 0
  bestWidth : Int := 0
  unicode : Bool := false
  lineBreak : Break := .any
  states : List EmitterState := []
  state : EmitterState := .streamStart
  events : List Event := []
  indents : List Int := []
  tagDirectives : List TagDirective := []
  indent : Int := 0
  flowLevel : Int := 0
  rootContext : Bool := false
  sequenceContext : Bool := false
  mappingContext : Bool := false
  simpleKeyContext : Bool := false
  line : Nat := 0
  column : Nat := 0
  whitespace : Bool := false
  indention : Bool := false
  openEnded : Nat := 0
  anchorData : AnchorData := {}
  tagData : TagData := {}
  scalarData : ScalarData := {}

namespace Emitter

open Fallible

variable {σ : Type}

abbrev EmitM (σ : Type) := EStateM Fault (Emitter σ)

def emitterError (problem : String) : EmitM σ Unit := throw (.reported (.emitter problem))

/-- The bytes of a 16-bit unit, the high one first or last. -/
def unitBytes (encoding : Encoding) (high low : Nat) : Bytes :=
  if encoding = .utf16le then [low.toUInt8, high.toUInt8] else [high.toUInt8, low.toUInt8]

/-- A character in UTF-16. -/
def recode (encoding : Encoding) (c : Bytes) : Bytes :=
  let value := codePoint c
  if value < 0x10000 then unitBytes encoding (value / 2 ^ 8) value
  else
    let value := value - 0x10000
    unitBytes encoding (0xD8 + value / 2 ^ 18) (value / 2 ^ 10)
      ++ unitBytes encoding (0xDC + value / 2 ^ 8 % 2 ^ 8) value

section Handler

variable [WriteHandler σ]

/-- `yaml_emitter_flush_impl`: after a failure the buffer counts as empty in UTF-8, but not in
UTF-16, where the pointer has moved on to its end. -/
def flush : EmitM σ Unit := fun s =>
  if s.buffer = [] then .ok () s
  else if s.encoding = .utf8 then
    match WriteHandler.write s.buffer s.handler with
    | (true, handler) => .ok () { s with
        handler := handler, buffer := [], flushes := ⟨s.buffer, s.buffer, true⟩ :: s.flushes }
    | (false, handler) => .error (.reported (.writer "write error")) { s with
        handler := handler, buffer := [], flushes := ⟨s.buffer, s.buffer, false⟩ :: s.flushes }
  else match characters s.buffer with
    | none => .error .outOfFuel s
    | some cs =>
      let raw := s.rawBuffer ++ cs.flatMap (recode s.encoding)
      match WriteHandler.write raw s.handler with
      | (true, handler) => .ok () { s with
          handler := handler, buffer := [], rawBuffer := []
          flushes := ⟨s.buffer, raw, true⟩ :: s.flushes }
      | (false, handler) => .error (.reported (.writer "write error")) { s with
          handler := handler, rawBuffer := raw, flushes := ⟨s.buffer, raw, false⟩ :: s.flushes }

/-- What has been handed over, in the order of the calls. -/
def handedOver (flushes : List Flush) : Bytes := flushes.reverse.flatMap Flush.chunk

/-- Whether the buffer takes one more character, or a break. -/
def hasRoom (s : Emitter σ) : Bool :=
  match s.capacity with
  | some capacity => s.buffer.length + 5 < capacity
  | none => true

/-- `FLUSH` -/
def flushIfFull : EmitM σ Unit := fun s => if hasRoom s then .ok () s else flush s

/-- `PUT` -/
def put (value : UInt8) : EmitM σ Unit := do
  flushIfFull
  modify fun s => { s with buffer := s.buffer ++ [value], column := s.column + 1 }

def breakBytes : Break → Bytes
  | .any => []
  | .cr => ascii ['\r']
  | .ln => ascii ['\n']
  | .crln => ascii ['\r', '\n']

/-- `PUT_BREAK` -/
def putBreak : EmitM σ Unit := do
  flushIfFull
  modify fun s => { s with
    buffer := s.buffer ++ breakBytes s.lineBreak, column := 0, line := s.line + 1 }

/-- `WRITE` -/
def write (c : Bytes) : EmitM σ Unit := do
  flushIfFull
  modify fun s => { s with buffer := s.buffer ++ c, column := s.column + 1 }

/-- Go on whether or not `x` reports a failure. -/
def ignoreFailure (x : EmitM σ Unit) : EmitM σ Unit := fun s =>
  match x s with
  | .error (.reported _) t => .ok () t
  | r => r

/-- `WRITE_BREAK` -/
def writeBreak (c : Bytes) : EmitM σ Unit := do
  flushIfFull
  if check (view c) '\n' then ignoreFailure putBreak
  else modify fun s => { s with buffer := s.buffer ++ c, column := 0, line := s.line + 1 }

def writeBom : EmitM σ Unit := do
  flushIfFull
  modify fun s => { s with buffer := s.buffer ++ [0xEF, 0xBB, 0xBF] }

def putSpaces : Nat → EmitM σ Unit
  | 0 => pure ()
  | n + 1 => do
    put (octet ' ')
    putSpaces n

/-- Fill the line with spaces up to a column. -/
def padTo (indent : Nat) : EmitM σ Unit := do
  let s ← get
  putSpaces (indent - s.column)

def writeIndent : EmitM σ Unit := do
  let s ← get
  let indent := s.indent.toNat
  onlyIf (!s.indention || indent < s.column || (s.column == indent && !s.whitespace)) putBreak
  padTo indent
  modify fun s => { s with whitespace := true, indention := true }

/-- A space where the last character written is not one. -/
def separate (needWhitespace : Bool) : EmitM σ Unit := do
  let s ← get
  onlyIf (needWhitespace && !s.whitespace) (put (octet ' '))

def writeIndicator (indicator : Bytes) (needWhitespace isWhitespace isIndention : Bool) :
    EmitM σ Unit := do
  separate needWhitespace
  indicator.forM fun b => write [b]
  modify fun s => { s with
    whitespace := isWhitespace, indention := s.indention && isIndention }

end Handler

end Emitter

end LibYaml
