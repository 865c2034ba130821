import LibYaml.Fallible
import LibYaml.Characters

/-!
# The scanner's state

What the scanner keeps of `yaml_parser_t`, and the macros it looks at its input and moves along it
with.  Where the characters come from is a parameter, `Input`: the reader is one.
-/

namespace LibYaml

/-- What the scanner uses of the input buffer: `cache n` is `CACHE` for `n` characters, `view` what
`buffer.pointer` sees, `advance` the step of the pointer over a character of so many bytes, which
takes one off `unread`, and `size` a bound on the steps to come. -/
class Input (ι : Type) where
  cache : Nat → EStateM Problem ι Unit
  view : ι → View
  advance : Nat → ι → ι
  encoding : ι → Encoding
  size : ι → Nat
  view_advance : ∀ k i, view (advance k i) = behind k (view i)

structure SimpleKey where
  possible : Bool
  required : Bool
  tokenNumber : Nat
  mark : Mark
deriving DecidableEq, Repr

def noSimpleKey : SimpleKey := ⟨false, false, 0, .zero⟩

/-- The part of `yaml_parser_t` that scanning reads and writes; `indents` and `simpleKeys` list
their top first, `tokens` its head. -/
structure Scanner (ι : Type) where
  input : ι
  error : Option Problem := none
  mark : Mark := .zero
  streamStartProduced : Bool := false
  streamEndProduced : Bool := false
  flowLevel : Nat := 0
  tokens : List Token := []
  tokensParsed : Nat := 0
  tokenAvailable : Bool := false
  indents : List Int := []
  indent : Int := 0
  simpleKeyAllowed : Bool := false
  simpleKeys : List SimpleKey := []

namespace Scanner

open Fallible

abbrev ScanM (ι : Type) := EStateM Fault (Scanner ι)

variable {ι α β : Type}

/-- `yaml_parser_set_scanner_error`. -/
def scannerError (context : Option String) (contextMark : Mark) (problem : String) : ScanM ι α :=
  fun s => .error (.reported (.scanner context contextMark problem s.mark)) s

def getMark : ScanM ι Mark := fun s => .ok s.mark s

def getIndent : ScanM ι Int := fun s => .ok s.indent s

/-- Whether the scanner is inside a flow collection. -/
def inFlow : ScanM ι Bool := fun s => .ok (s.flowLevel ≠ 0) s

section Input

variable [Input ι]

def cache (length : Nat) : ScanM ι Unit := fun s =>
  match Input.cache length s.input with
  | .ok _ input => .ok () { s with input := input }
  | .error problem input => .error (.reported problem) { s with input := input }

/-- What a macro reads off the buffer. -/
def look (f : View → α) : ScanM ι α := fun s => .ok (f (Input.view s.input)) s

/-- The step past a character of so many bytes. -/
def passOver (bytes : Nat) (s : Scanner ι) : Scanner ι :=
  { s with
    mark := ⟨s.mark.index + 1, s.mark.line, s.mark.column + 1⟩
    input := Input.advance bytes s.input }

/-- The step past a line break of so many bytes. -/
def passBreak (bytes : Nat) (s : Scanner ι) : Scanner ι :=
  { s with
    mark := ⟨s.mark.index + 1, s.mark.line + 1, 0⟩
    input := Input.advance bytes s.input }

/-- The step past a line break that is a CR and an LF. -/
def passCrlf (s : Scanner ι) : Scanner ι :=
  { s with
    mark := ⟨s.mark.index + 2, s.mark.line + 1, 0⟩
    input := Input.advance 1 (Input.advance 1 s.input) }

def skip : ScanM ι Unit := do
  let width ← look width
  modify (passOver width)

def skipLine : ScanM ι Unit := do
  if ← look isCrlf then modify passCrlf
  else if ← look isBreak then do
    let width ← look width
    modify (passBreak width)
  else pure ()

def read (string : Bytes) : ScanM ι Bytes := do
  let copied ← look character
  skip
  return string ++ copied

def readLine (string : Bytes) : ScanM ι Bytes := do
  if ← look isCrlf then do
    modify passCrlf
    return string ++ [0x0A]
  else if ← look (fun p => checkAt p '\r' 0 || checkAt p '\n' 0) then do
    modify (passBreak 1)
    return string ++ [0x0A]
  else if ← look (fun p => p 0 == 0xC2 && p 1 == 0x85) then do
    modify (passBreak 2)
    return string ++ [0x0A]
  else if ← look (fun p => p 0 == 0xE2 && p 1 == 0x80 && (p 2 == 0xA8 || p 2 == 0xA9)) then do
    let copied ← look fun p => [p 0, p 1, p 2]
    modify (passBreak 3)
    return string ++ copied
  else return string

/-! ## Loops -/

/-- A loop of the scanner.  Each of its rounds passes a character, so it has fewer of them than
`Input.size` allows. -/
def repeatedly (body : α → ScanM ι (Round α β)) (a : α) : ScanM ι β := do
  let s ← get
  loop .outOfFuel body (Input.size s.input + 1) a

def skipWhile (c : View → Bool) : ScanM ι Unit :=
  repeatedly (fun _ => do
    if ← look c then do
      skip
      cache 1
      return .again ()
    else return .leave ()) ()

def readWhile (c : View → Bool) (string : Bytes) : ScanM ι Bytes :=
  repeatedly (fun string => do
    if ← look c then do
      let string ← read string
      cache 1
      return .again string
    else return .leave string) string

/-- The comment and the line break behind a directive or a block scalar's header. -/
def scanLineEnd (context : String) (start : Mark) : ScanM ι Unit := do
  cache 1
  skipWhile isBlank
  onlyIf (← look (check · '#')) (skipWhile (!isBreakz ·))
  if ← look (!isBreakz ·) then
    scannerError (some context) start "did not find expected comment or line break"
  else if ← look isBreak then do
    cache 2
    skipLine
  else pure ()

end Input

end Scanner

end LibYaml
