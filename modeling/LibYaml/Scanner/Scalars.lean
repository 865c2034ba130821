import LibYaml.Scanner.Input

/-!
# Scalars

Block scalars, quoted scalars and plain scalars.  The strings a scalar is folded with, and the flag
beside them, are one structure.
-/

namespace LibYaml

namespace Scanner

open Fallible

variable {ι : Type} [Input ι]

def isPlusMinus (p : View) : Bool := check p '+' || check p '-'

/-- What a column on its own starts a line of a document's end or start with. -/
def isDocumentIndicator (p : View) : Bool :=
  ((checkAt p '-' 0 && checkAt p '-' 1 && checkAt p '-' 2)
      || (checkAt p '.' 0 && checkAt p '.' 1 && checkAt p '.' 2))
    && isBlankzAt p 3

/-! ## Block scalars -/

inductive Chomping
  | strip | clip | keep
deriving DecidableEq, Repr

def scanChomping : ScanM ι Chomping := do
  let chomping ← look fun p => if check p '+' then Chomping.keep else .strip
  skip
  return chomping

def scanIncrement (start : Mark) : ScanM ι Int := do
  if ← look (check · '0') then
    scannerError (some "while scanning a block scalar") start
      "found an indentation indicator equal to 0"
  else do
    let increment ← look asDigit
    skip
    return (increment : Nat)

/-- The indicators of a block scalar's header, in either order. -/
def scanBlockScalarHeader (start : Mark) : ScanM ι (Chomping × Int) := do
  if ← look isPlusMinus then do
    let chomping ← scanChomping
    cache 1
    if ← look isDigit then do
      let increment ← scanIncrement start
      return (chomping, increment)
    else return (chomping, 0)
  else if ← look isDigit then do
    let increment ← scanIncrement start
    cache 1
    if ← look isPlusMinus then do
      let chomping ← scanChomping
      return (chomping, increment)
    else return (.clip, increment)
  else return (.clip, 0)

/-- Whether the column lies left of a block scalar's indentation, as far as that is known. -/
def leftOf (indent : Int) (mark : Mark) : Bool := indent = 0 || cInt mark.column < indent

def skipIndentation (indent : Int) : ScanM ι Unit :=
  repeatedly (fun _ => do
    let mark ← getMark
    if ← look (fun p => leftOf indent mark && isSpace p) then do
      skip
      cache 1
      return .again ()
    else return .leave ()) ()

/-- The indentation and the breaks before a line of a block scalar, and where the last one ends. -/
def scanBlockScalarBreaks (indent : Int) (breaks : Bytes) (start : Mark) :
    ScanM ι (Int × Bytes × Mark) := do
  let finish ← getMark
  let (maxIndent, breaks, finish) ← repeatedly (fun (maxIndent, breaks, finish) => do
    cache 1
    skipIndentation indent
    let mark ← getMark
    let maxIndent := max maxIndent (cInt mark.column)
    if ← look (fun p => leftOf indent mark && isTab p) then
      scannerError (some "while scanning a block scalar") start
        "found a tab character where an indentation space is expected"
    else if ← look (!isBreak ·) then return .leave (maxIndent, breaks, finish)
    else do
      cache 2
      let breaks ← readLine breaks
      let finish ← getMark
      return .again (maxIndent, breaks, finish)) ((0 : Int), breaks, finish)
  let outer ← getIndent
  return (if indent = 0 then max (max maxIndent (toCInt (outer + 1))) 1 else indent, breaks, finish)

structure BlockScalar where
  string : Bytes := []
  leadingBreak : Bytes := []
  trailingBreaks : Bytes
  leadingBlank : Bool := false
  indent : Int
  finish : Mark

/-- What the breaks before a line come to in the scalar's value. -/
def BlockScalar.fold (literal trailingBlank : Bool) (b : BlockScalar) : Bytes :=
  let string :=
    if !literal && b.leadingBreak.headD 0 == octet '\n' && !b.leadingBlank && !trailingBlank then
      if b.trailingBreaks.headD 0 == 0 then b.string ++ [octet ' '] else b.string
    else b.string ++ b.leadingBreak
  string ++ b.trailingBreaks

def BlockScalar.value (chomping : Chomping) (b : BlockScalar) : Bytes :=
  match chomping with
  | .strip => b.string
  | .clip => b.string ++ b.leadingBreak
  | .keep => b.string ++ b.leadingBreak ++ b.trailingBreaks

def scanBlockScalarLines (literal : Bool) (start : Mark) (b : BlockScalar) :
    ScanM ι BlockScalar :=
  repeatedly (fun (b : BlockScalar) => do
    let mark ← getMark
    if ← look (fun p => cInt mark.column = b.indent && !isZ p) then do
      let blank ← look isBlank
      let string ← readWhile (!isBreakz ·) (b.fold literal blank)
      cache 2
      let leadingBreak ← readLine []
      let (indent, trailingBreaks, finish) ← scanBlockScalarBreaks b.indent [] start
      return .again ⟨string, leadingBreak, trailingBreaks, blank, indent, finish⟩
    else return .leave b) b

def scanBlockScalar (literal : Bool) : ScanM ι Token := do
  let start ← getMark
  skip
  cache 1
  let (chomping, increment) ← scanBlockScalarHeader start
  scanLineEnd "while scanning a block scalar" start
  let outer ← getIndent
  let indent :=
    if increment = 0 then 0 else if 0 ≤ outer then toCInt (outer + increment) else increment
  let (indent, trailingBreaks, finish) ← scanBlockScalarBreaks indent [] start
  cache 1
  let b ← scanBlockScalarLines literal start
    { trailingBreaks := trailingBreaks, indent := indent, finish := finish }
  return ⟨.scalar (b.value chomping) (if literal then .literal else .folded), start, b.finish⟩

/-! ## Folding the lines of a flow scalar -/

structure Folding where
  string : Bytes := []
  leadingBreak : Bytes := []
  trailingBreaks : Bytes := []
  whitespaces : Bytes := []
  leadingBlanks : Bool := false

/-- The blanks and breaks met since the last character, brought into the scalar's value. -/
def Folding.fold (f : Folding) : Folding :=
  if f.leadingBlanks then
    if f.leadingBreak.headD 0 == octet '\n' then
      if f.trailingBreaks.headD 0 == 0 then
        { f with string := f.string ++ [octet ' '], leadingBreak := [] }
      else
        { f with
          string := f.string ++ f.trailingBreaks
          leadingBreak := []
          trailingBreaks := [] }
    else
      { f with
        string := f.string ++ f.leadingBreak ++ f.trailingBreaks
        leadingBreak := []
        trailingBreaks := [] }
  else { f with string := f.string ++ f.whitespaces, whitespaces := [] }

/-- The blanks and breaks between two runs of text; `violates` says which blanks are refused. -/
def scanBlanks (violates : Folding → Mark → View → Bool) (start : Mark) (f : Folding) :
    ScanM ι Folding :=
  repeatedly (fun (f : Folding) => do
    if ← look (fun p => isBlank p || isBreak p) then do
      let f ← (do
        if ← look isBlank then do
          let mark ← getMark
          if ← look (violates f mark) then
            scannerError (some "while scanning a plain scalar") start
              "found a tab character that violates indentation"
          else if f.leadingBlanks then do
            skip
            return f
          else do
            let whitespaces ← read f.whitespaces
            return { f with whitespaces := whitespaces }
        else do
          cache 2
          if f.leadingBlanks then do
            let trailingBreaks ← readLine f.trailingBreaks
            return { f with trailingBreaks := trailingBreaks }
          else do
            let leadingBreak ← readLine f.leadingBreak
            return { f with
              whitespaces := []
              leadingBreak := leadingBreak
              leadingBlanks := true })
      cache 1
      return .again f
    else return .leave f) f

/-! ## Quoted scalars -/

/-- What the character behind a backslash stands for: some bytes, or a code point of so many
hexadecimal digits. -/
def escape (b : UInt8) : Option (Bytes ⊕ Nat) :=
  if b = octet '0' then some (.inl [0])
  else if b = octet 'a' then some (.inl [0x07])
  else if b = octet 'b' then some (.inl [0x08])
  else if b = octet 't' ∨ b = octet '\t' then some (.inl [octet '\t'])
  else if b = octet 'n' then some (.inl [octet '\n'])
  else if b = octet 'v' then some (.inl [0x0B])
  else if b = octet 'f' then some (.inl [0x0C])
  else if b = octet 'r' then some (.inl [octet '\r'])
  else if b = octet 'e' then some (.inl [0x1B])
  else if b = octet ' ' then some (.inl [octet ' '])
  else if b = octet '"' then some (.inl [octet '"'])
  else if b = octet '/' then some (.inl [octet '/'])
  else if b = octet '\\' then some (.inl [octet '\\'])
  else if b = octet 'N' then some (.inl [0xC2, 0x85])
  else if b = octet '_' then some (.inl [0xC2, 0xA0])
  else if b = octet 'L' then some (.inl [0xE2, 0x80, 0xA8])
  else if b = octet 'P' then some (.inl [0xE2, 0x80, 0xA9])
  else if b = octet 'x' then some (.inr 2)
  else if b = octet 'u' then some (.inr 4)
  else if b = octet 'U' then some (.inr 8)
  else none

def quotedError (start : Mark) (problem : String) : ScanM ι Bytes :=
  scannerError (some "while parsing a quoted scalar") start problem

def areHex (length : Nat) (p : View) : Bool := (List.range length).all (isHexAt p ·)

def asHex (length : Nat) (p : View) : Nat :=
  (List.range length).foldl (fun value k => value * 16 + asHexAt p k) 0

def skips : Nat → ScanM ι Unit
  | 0 => pure ()
  | n + 1 => do
    skip
    skips n

/-- The code point behind `\x`, `\u` or `\U`. -/
def scanCodePoint (length : Nat) (start : Mark) (string : Bytes) : ScanM ι Bytes := do
  cache length
  if ← look (!areHex length ·) then quotedError start "did not find expected hexdecimal number"
  else do
    let value ← look (asHex length)
    if (0xD800 ≤ value && value ≤ 0xDFFF) || 0x10FFFF < value then
      quotedError start "found invalid Unicode character escape code"
    else do
      skips length
      return string ++ encodeOctets value

def scanEscape (start : Mark) (string : Bytes) : ScanM ι Bytes := do
  match escape (← look (· 1)) with
  | none => quotedError start "found unknown escape character"
  | some (.inl bytes) => do
    skip
    skip
    return string ++ bytes
  | some (.inr length) => do
    skip
    skip
    scanCodePoint length start string

def isQuote (single : Bool) (p : View) : Bool := check p (if single then '\'' else '"')

/-- The text of a quoted scalar up to a blank, a break or the closing quote, and whether an escaped
break ends it. -/
def scanFlowScalarText (single : Bool) (start : Mark) (string : Bytes) : ScanM ι (Bytes × Bool) :=
  repeatedly (fun string => do
    if ← look (!isBlankz ·) then
      if ← look (fun p => single && checkAt p '\'' 0 && checkAt p '\'' 1) then do
        skip
        skip
        cache 2
        return .again (string ++ [octet '\''])
      else if ← look (isQuote single) then return .leave (string, false)
      else if ← look (fun p => !single && check p '\\' && isBreakAt p 1) then do
        cache 3
        skip
        skipLine
        return .leave (string, true)
      else do
        let string ← (do
          if ← look (fun p => !single && check p '\\') then scanEscape start string
          else read string)
        cache 2
        return .again string
    else return .leave (string, false)) string

def scanFlowScalar (single : Bool) : ScanM ι Token := do
  let start ← getMark
  skip
  let string ← repeatedly (fun (f : Folding) => do
    cache 4
    let mark ← getMark
    if ← look (fun p => mark.column = 0 && isDocumentIndicator p) then
      scannerError (some "while scanning a quoted scalar") start
        "found unexpected document indicator"
    else if ← look isZ then
      scannerError (some "while scanning a quoted scalar") start "found unexpected end of stream"
    else do
      cache 2
      let (string, leadingBlanks) ← scanFlowScalarText single start f.string
      cache 1
      if ← look (isQuote single) then return .leave string
      else do
        cache 1
        let f ← scanBlanks (fun _ _ _ => false) start
          { f with string := string, leadingBlanks := leadingBlanks }
        return .again f.fold) {}
  skip
  let finish ← getMark
  return ⟨.scalar string (if single then .singleQuoted else .doubleQuoted), start, finish⟩

/-! ## Plain scalars -/

/-- A ':' in a flow collection that neither ends the text nor belongs to it. -/
def isStrayColon (flow : Bool) (p : View) : Bool :=
  flow && check p ':' && [',', '?', '[', ']', '{', '}'].any (checkAt p · 1)

def endsPlainText (flow : Bool) (p : View) : Bool :=
  (check p ':' && isBlankzAt p 1) || (flow && [',', '[', ']', '{', '}'].any (check p ·))

/-- The text of a plain scalar up to a blank, a break or an indicator, and where it ends. -/
def scanPlainScalarText (start : Mark) (f : Folding) (finish : Mark) : ScanM ι (Folding × Mark) :=
  repeatedly (fun ((f, finish) : Folding × Mark) => do
    let flow ← inFlow
    if ← look (!isBlankz ·) then
      if ← look (isStrayColon flow) then
        scannerError (some "while scanning a plain scalar") start "found unexpected ':'"
      else if ← look (endsPlainText flow) then return .leave (f, finish)
      else do
        let f :=
          if f.leadingBlanks || !f.whitespaces.isEmpty then { f.fold with leadingBlanks := false }
          else f
        let string ← read f.string
        let finish ← getMark
        cache 2
        return .again ({ f with string := string }, finish)
    else return .leave (f, finish)) (f, finish)

/-- A tab left of the indentation, on a line of its own. -/
def tabViolates (indent : Int) (f : Folding) (mark : Mark) (p : View) : Bool :=
  f.leadingBlanks && cInt mark.column < indent && isTab p

def scanPlainScalar : ScanM ι Token := do
  let start ← getMark
  let outer ← getIndent
  let indent := toCInt (outer + 1)
  let (f, finish) ← repeatedly (fun ((f, finish) : Folding × Mark) => do
    cache 4
    let mark ← getMark
    if ← look (fun p => (mark.column = 0 && isDocumentIndicator p) || check p '#') then
      return .leave (f, finish)
    else do
      let (f, finish) ← scanPlainScalarText start f finish
      if ← look (fun p => isBlank p || isBreak p) then do
        cache 1
        let f ← scanBlanks (tabViolates indent) start f
        let flow ← inFlow
        let mark ← getMark
        if !flow && cInt mark.column < indent then return .leave (f, finish)
        else return .again (f, finish)
      else return .leave (f, finish)) ({}, start)
  onlyIf f.leadingBlanks (modify fun s => { s with simpleKeyAllowed := true })
  return ⟨.scalar f.string .plain, start, finish⟩

end Scanner

end LibYaml
