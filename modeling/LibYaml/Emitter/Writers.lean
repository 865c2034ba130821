import LibYaml.Emitter.Analysis

/-!
# How the emitter writes anchors, tags and scalars

The loops are recursive in the characters left; `spaces` and `breaks` say whether the character
before was a space or a break.
-/

namespace LibYaml

namespace Emitter

open Fallible

variable {σ : Type} [WriteHandler σ]

/-- Note that the last character written is neither white space nor indentation. -/
def endText : EmitM σ Unit := modify fun s => { s with whitespace := false, indention := false }

def setIndention (indention : Bool) : EmitM σ Unit := modify fun s => { s with indention := indention }

def writeAnchor (value : Bytes) : EmitM σ Unit := do
  let cs ← charactersOf value
  cs.forM write
  endText

def writeTagHandle (value : Bytes) : EmitM σ Unit := do
  separate true
  let cs ← charactersOf value
  cs.forM write
  endText

/-- The digit of a number below 16. -/
def hexDigit (n : Nat) : UInt8 := if n < 10 then octet '0' + n.toUInt8 else octet 'A' - 10 + n.toUInt8

def putEscaped (value : UInt8) : EmitM σ Unit := do
  put (octet '%')
  put (hexDigit (value >>> 4).toNat)
  put (hexDigit (value &&& 0x0F).toNat)

def isTagCharacter (p : View) : Bool :=
  isAlpha p || [';', '/', '?', ':', '@', '&', '=', '+', '$', ',', '_', '.', '~', '*', '\'', '(',
    ')', '[', ']'].any (check p)

def writeTagCharacter (c : Bytes) : EmitM σ Unit :=
  if isTagCharacter (view c) then write c else c.forM putEscaped

def writeTagContent (value : Bytes) (needWhitespace : Bool) : EmitM σ Unit := do
  separate needWhitespace
  let cs ← charactersOf value
  cs.forM writeTagCharacter
  endText

/-- Whether the line is longer than it should be. -/
def tooWide (s : Emitter σ) : Bool := s.bestWidth < s.column

/-- A break of a flow scalar; the first of a run is written twice, as one alone is folded. -/
def writeFoldedBreak (c : Bytes) (breaks : Bool) : EmitM σ Unit := do
  onlyIf (!breaks && check (view c) '\n') putBreak
  writeBreak c
  setIndention true

/-- A space, or the indentation of a new line in its place. -/
def writeSpace (c : Bytes) (fold : Bool) : EmitM σ Unit := if fold then writeIndent else write c

def writePlainCharacters (allowBreaks : Bool) : List Bytes → Bool → Bool → EmitM σ Unit
  | [], _, _ => pure ()
  | c :: cs, spaces, breaks => do
    let s ← get
    if isSpace (view c) then do
      writeSpace c (allowBreaks && !spaces && tooWide s && !isSpace (view (cs.headD [])))
      writePlainCharacters allowBreaks cs true breaks
    else if isBreak (view c) then do
      writeFoldedBreak c breaks
      writePlainCharacters allowBreaks cs spaces true
    else do
      onlyIf breaks writeIndent
      write c
      setIndention false
      writePlainCharacters allowBreaks cs false false

def writePlainScalar (value : Bytes) (allowBreaks : Bool) : EmitM σ Unit := do
  let s ← get
  onlyIf (!s.whitespace && (value ≠ [] || s.flowLevel ≠ 0)) (put (octet ' '))
  let cs ← charactersOf value
  writePlainCharacters allowBreaks cs false false
  endText

/-- `start` says that `c` is the scalar's first character.  The closing indentation is written
where the last character was a break. -/
def writeSingleQuotedCharacters (allowBreaks : Bool) :
    List Bytes → Bool → Bool → Bool → EmitM σ Unit
  | [], _, _, breaks => onlyIf breaks writeIndent
  | c :: cs, start, spaces, breaks => do
    let s ← get
    if isSpace (view c) then do
      writeSpace c (allowBreaks && !spaces && tooWide s && !start && !cs.isEmpty
        && !isSpace (view (cs.headD [])))
      writeSingleQuotedCharacters allowBreaks cs false true breaks
    else if isBreak (view c) then do
      writeFoldedBreak c breaks
      writeSingleQuotedCharacters allowBreaks cs false spaces true
    else do
      onlyIf breaks writeIndent
      onlyIf (check (view c) '\'') (put (octet '\''))
      write c
      setIndention false
      writeSingleQuotedCharacters allowBreaks cs false false false

def writeSingleQuotedScalar (value : Bytes) (allowBreaks : Bool) : EmitM σ Unit := do
  writeIndicator (ascii ['\'']) true false false
  let cs ← charactersOf value
  writeSingleQuotedCharacters allowBreaks cs true false false
  writeIndicator (ascii ['\'']) false false false
  endText

/-- `width` hexadecimal digits, the most significant first. -/
def hexDigits (value : Nat) : Nat → Bytes
  | 0 => []
  | width + 1 => hexDigit (value / 16 ^ width % 16) :: hexDigits value width

/-- What stands behind the backslash for a character that is escaped. -/
def escapeCode (value : Nat) : Bytes :=
  match value with
  | 0 => ascii ['0']
  | 7 => ascii ['a']
  | 8 => ascii ['b']
  | 9 => ascii ['t']
  | 10 => ascii ['n']
  | 11 => ascii ['v']
  | 12 => ascii ['f']
  | 13 => ascii ['r']
  | 27 => ascii ['e']
  | 34 => ascii ['"']
  | 92 => ascii ['\\']
  | 133 => ascii ['N']
  | 160 => ascii ['_']
  | 8232 => ascii ['L']
  | 8233 => ascii ['P']
  | value =>
    if value ≤ 0xFF then octet 'x' :: hexDigits value 2
    else if value ≤ 0xFFFF then octet 'u' :: hexDigits value 4
    else octet 'U' :: hexDigits value 8

def needsEscape (unicode : Bool) (p : View) : Bool :=
  !isPrintable p || (!unicode && !isAscii p) || isBom p || isBreak p || check p '"' || check p '\\'

def writeDoubleQuotedCharacters (allowBreaks : Bool) : List Bytes → Bool → Bool → EmitM σ Unit
  | [], _, _ => pure ()
  | c :: cs, start, spaces => do
    let s ← get
    if needsEscape s.unicode (view c) then do
      put (octet '\\')
      (escapeCode (codePoint c)).forM put
      writeDoubleQuotedCharacters allowBreaks cs false false
    else if isSpace (view c) then do
      let fold := allowBreaks && !spaces && tooWide s && !start && !cs.isEmpty
      writeSpace c fold
      onlyIf (fold && isSpace (view (cs.headD []))) (put (octet '\\'))
      writeDoubleQuotedCharacters allowBreaks cs false true
    else do
      write c
      writeDoubleQuotedCharacters allowBreaks cs false false

def writeDoubleQuotedScalar (value : Bytes) (allowBreaks : Bool) : EmitM σ Unit := do
  writeIndicator (ascii ['"']) true false false
  let cs ← charactersOf value
  writeDoubleQuotedCharacters allowBreaks cs true false
  writeIndicator (ascii ['"']) false false false
  endText

/-- The chomping indicator of a block scalar and whether it leaves the document open: `backwards`
are the value's characters, the last first. -/
def chompHint (backwards : List Bytes) : Option Bytes × Bool :=
  match backwards with
  | [] => (some (ascii ['-']), false)
  | c :: rest =>
    if !isBreak (view c) then (some (ascii ['-']), false)
    else match rest with
      | [] => (some (ascii ['+']), true)
      | d :: _ => if isBreak (view d) then (some (ascii ['+']), true) else (none, false)

def writeBlockScalarHints (cs : List Bytes) : EmitM σ Unit := do
  let s ← get
  let p := view (cs.headD [])
  onlyIf (isSpace p || isBreak p)
    (writeIndicator [octet '0' + s.bestIndent.toNat.toUInt8] false false false)
  let hint := chompHint cs.reverse
  modify fun s => { s with openEnded := if hint.2 then 2 else 0 }
  match hint.1 with
  | some indicator => writeIndicator indicator false false false
  | none => pure ()

/-- The line with a block scalar's indicator. -/
def writeBlockScalarHeader (indicator : Bytes) (cs : List Bytes) : EmitM σ Unit := do
  writeIndicator indicator true false false
  writeBlockScalarHints cs
  putBreak
  modify fun s => { s with indention := true, whitespace := true }

def writeLiteralCharacters : List Bytes → Bool → EmitM σ Unit
  | [], _ => pure ()
  | c :: cs, breaks =>
    if isBreak (view c) then do
      writeBreak c
      setIndention true
      writeLiteralCharacters cs true
    else do
      onlyIf breaks writeIndent
      write c
      setIndention false
      writeLiteralCharacters cs false

def writeLiteralScalar (value : Bytes) : EmitM σ Unit := do
  let cs ← charactersOf value
  writeBlockScalarHeader (ascii ['|']) cs
  writeLiteralCharacters cs true

def writeFoldedCharacters : List Bytes → Bool → Bool → EmitM σ Unit
  | [], _, _ => pure ()
  | c :: cs, breaks, leadingSpaces =>
    if isBreak (view c) then do
      onlyIf (!breaks && !leadingSpaces && check (view c) '\n'
        && !isBlankz (view (((c :: cs).dropWhile fun d => isBreak (view d)).headD []))) putBreak
      writeBreak c
      setIndention true
      writeFoldedCharacters cs true leadingSpaces
    else do
      onlyIf breaks writeIndent
      let leadingSpaces := if breaks then isBlank (view c) else leadingSpaces
      let s ← get
      writeSpace c (!breaks && isSpace (view c) && !isSpace (view (cs.headD [])) && tooWide s)
      setIndention false
      writeFoldedCharacters cs false leadingSpaces

def writeFoldedScalar (value : Bytes) : EmitM σ Unit := do
  let cs ← charactersOf value
  writeBlockScalarHeader (ascii ['>']) cs
  writeFoldedCharacters cs true true

end Emitter

end LibYaml
