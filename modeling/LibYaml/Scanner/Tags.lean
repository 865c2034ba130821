import LibYaml.Scanner.Input

/-!
# Directives, anchors and tags
-/

namespace LibYaml

namespace Scanner

open Fallible

variable {ι : Type} [Input ι]

/-! ## Tags -/

def isUriChar (uriChar : Bool) (p : View) : Bool :=
  isAlpha p || [';', '/', '?', ':', '@', '&', '=', '+', '$', '.', '%', '!', '~', '*', '\'', '(',
      ')'].any (check p ·)
    || (uriChar && [',', '[', ']'].any (check p ·))

/-- What a `%` starts: two hexadecimal digits behind it. -/
def isEscapedOctet (p : View) : Bool := check p '%' && isHexAt p 1 && isHexAt p 2

def escapedOctet (p : View) : UInt8 := (asHexAt p 1 * 16 + asHexAt p 2).toUInt8

def uriContext (directive : Bool) : String :=
  if directive then "while parsing a %TAG directive" else "while parsing a tag"

/-- How many octets are still to come, this one included: the first announces them. -/
def escapedWidth (directive : Bool) (start : Mark) (octet : UInt8) (width : Nat) : ScanM ι Nat :=
  if width = 0 then
    if octetWidth octet = 0 then
      scannerError (some (uriContext directive)) start "found an incorrect leading UTF-8 octet"
    else pure (octetWidth octet)
  else if octet &&& 0xC0 == 0x80 then pure width
  else scannerError (some (uriContext directive)) start "found an incorrect trailing UTF-8 octet"

def scanUriEscapes (directive : Bool) (start : Mark) (string : Bytes) : ScanM ι Bytes :=
  repeatedly (fun (width, string) => do
    cache 3
    if ← look (!isEscapedOctet ·) then
      scannerError (some (uriContext directive)) start "did not find URI escaped octet"
    else do
      let octet ← look escapedOctet
      let width ← escapedWidth directive start octet width
      skip
      skip
      skip
      if width = 1 then return .leave (string ++ [octet])
      else return .again (width - 1, string ++ [octet])) (0, string)

/-- The URI behind a handle: `head` is the handle where it turned out to belong to the URI. -/
def scanTagUri (uriChar directive : Bool) (head : Option Bytes) (start : Mark) :
    ScanM ι Bytes := do
  let head := cstr (head.getD [])
  cache 1
  let (length, string) ← repeatedly (fun (length, string) => do
    if ← look (isUriChar uriChar) then do
      let string ← (do
        if ← look (check · '%') then scanUriEscapes directive start string else read string)
      cache 1
      return .again (length + 1, string)
    else return .leave (length, string)) (head.length, head.tail)
  if length = 0 then
    scannerError (some (uriContext directive)) start "did not find expected tag URI"
  else return string

def scanTagHandle (directive : Bool) (start : Mark) : ScanM ι Bytes := do
  cache 1
  if ← look (!check · '!') then
    scannerError
      (some (if directive then "while scanning a tag directive" else "while scanning a tag"))
      start "did not find expected '!'"
  else do
    let string ← read []
    cache 1
    let string ← readWhile isAlpha string
    if ← look (check · '!') then read string
    else if directive && !(string.headD 0 == octet '!' && string.getD 1 0 == 0) then
      scannerError (some "while parsing a tag directive") start "did not find expected '!'"
    else return string

/-- Whether a handle is a named one, `!` at both of its ends. -/
def isNamedHandle (handle : Bytes) : Bool :=
  handle.headD 0 == octet '!' && handle.getD 1 0 != 0
    && (cstr handle).getLast? == some (octet '!')

/-- The handle and the suffix of a tag. -/
def scanTagParts (start : Mark) : ScanM ι (Bytes × Bytes) := do
  if ← look (checkAt · '<' 1) then do
    skip
    skip
    let suffix ← scanTagUri true false none start
    if ← look (!check · '>') then
      scannerError (some "while scanning a tag") start "did not find the expected '>'"
    else do
      skip
      return ([], suffix)
  else do
    let handle ← scanTagHandle false start
    if isNamedHandle handle then do
      let suffix ← scanTagUri false false none start
      return (handle, suffix)
    else do
      let suffix ← scanTagUri false false (some handle) start
      -- the lone "!" is a suffix without a handle
      if suffix.headD 0 == 0 then return (suffix, [octet '!']) else return ([octet '!'], suffix)

def scanTag : ScanM ι Token := do
  let start ← getMark
  cache 2
  let (handle, suffix) ← scanTagParts start
  cache 1
  let flow ← inFlow
  if ← look (fun p => !isBlankz p && (!flow || !check p ',')) then
    scannerError (some "while scanning a tag") start "did not find expected whitespace or line break"
  else do
    let finish ← getMark
    return ⟨.tag handle suffix, start, finish⟩

/-! ## Anchors -/

/-- What may stand behind an anchor. -/
def endsAnchor (p : View) : Bool :=
  isBlankz p || ['?', ':', ',', ']', '}', '%', '@', Char.ofNat 96].any (check p ·)

/-- Whether the count of an anchor's characters, kept in a `c_int`, is 0. -/
def countsNone (string : Bytes) : Bool := cInt string.length = 0

def scanAnchor (type : TokenType) : ScanM ι Token := do
  let start ← getMark
  skip
  cache 1
  let string ← readWhile isAlpha []
  let finish ← getMark
  if ← look (fun p => countsNone string || !endsAnchor p) then
    scannerError
      (some (if type = .anchor then "while scanning an anchor" else "while scanning an alias"))
      start "did not find expected alphabetic or numeric character"
  else return ⟨if type = .anchor then .anchor string else .alias string, start, finish⟩

/-! ## Directives -/

def scanDirectiveName (start : Mark) : ScanM ι Bytes := do
  cache 1
  let string ← readWhile isAlpha []
  if string.isEmpty then
    scannerError (some "while scanning a directive") start
      "could not find expected directive name"
  else if ← look (!isBlankz ·) then
    scannerError (some "while scanning a directive") start
      "found unexpected non-alphabetical character"
  else return string

def maxNumberLength : Nat := 9

def scanVersionDirectiveNumber (start : Mark) : ScanM ι Int := do
  cache 1
  let (length, value) ← repeatedly (fun (length, value) => do
    if ← look isDigit then
      if maxNumberLength < length + 1 then
        scannerError (some "while scanning a %YAML directive") start
          "found extremely long version number"
      else do
        let digit ← look asDigit
        skip
        cache 1
        return .again (length + 1, value * 10 + digit)
    else return .leave (length, value)) (0, 0)
  if length = 0 then
    scannerError (some "while scanning a %YAML directive") start
      "did not find expected version number"
  else return (value : Nat)

def scanVersionDirectiveValue (start : Mark) : ScanM ι (Int × Int) := do
  cache 1
  skipWhile isBlank
  let major ← scanVersionDirectiveNumber start
  if ← look (!check · '.') then
    scannerError (some "while scanning a %YAML directive") start
      "did not find expected digit or '.' character"
  else do
    skip
    let minor ← scanVersionDirectiveNumber start
    return (major, minor)

def scanTagDirectiveValue (start : Mark) : ScanM ι (Bytes × Bytes) := do
  cache 1
  skipWhile isBlank
  let handle ← scanTagHandle true start
  cache 1
  if ← look (!isBlank ·) then
    scannerError (some "while scanning a %TAG directive") start "did not find expected whitespace"
  else do
    skipWhile isBlank
    let suffix ← scanTagUri true true none start
    cache 1
    if ← look (!isBlankz ·) then
      scannerError (some "while scanning a %TAG directive") start
        "did not find expected whitespace or line break"
    else return (handle, suffix)

def scanDirectiveValue (name : Bytes) (start : Mark) : ScanM ι TokenData := do
  if cstr name = ascii ['Y', 'A', 'M', 'L'] then do
    let (major, minor) ← scanVersionDirectiveValue start
    return .versionDirective major minor
  else if cstr name = ascii ['T', 'A', 'G'] then do
    let (handle, suffix) ← scanTagDirectiveValue start
    return .tagDirective handle suffix
  else scannerError (some "while scanning a directive") start "found unknown directive name"

def scanDirective : ScanM ι Token := do
  let start ← getMark
  skip
  let name ← scanDirectiveName start
  let data ← scanDirectiveValue name start
  let finish ← getMark
  scanLineEnd "while scanning a directive" start
  return ⟨data, start, finish⟩

end Scanner

end LibYaml
