import LibYaml.Emitter.Output

/-!
# What the emitter finds out about an event

Before an event is emitted its anchor, tag and value are checked and noted in the emitter:
which directive abbreviates the tag, and which styles the value allows.
-/

namespace LibYaml

namespace Emitter

open Fallible

variable {σ : Type}

/-- The characters of a string, where its loops end. -/
def charactersOf (b : Bytes) : EmitM σ (List Bytes) :=
  match characters b with
  | some cs => pure cs
  | none => throw .outOfFuel

def analyzeVersionDirective (versionDirective : VersionDirective) : EmitM σ Unit :=
  if versionDirective.major ≠ 1 ∨ (versionDirective.minor ≠ 1 ∧ versionDirective.minor ≠ 2) then
    emitterError "incompatible %YAML directive"
  else pure ()

def analyzeTagDirective (tagDirective : TagDirective) : EmitM σ Unit :=
  let handle := cstr tagDirective.handle
  if handle = [] then emitterError "tag handle must not be empty"
  else if handle.head? ≠ some (octet '!') then emitterError "tag handle must start with '!'"
  else if handle.getLast? ≠ some (octet '!') then emitterError "tag handle must end with '!'"
  else if ¬handle.tail.dropLast.all isAlphaOctet then
    emitterError "tag handle must contain alphanumerical characters only"
  else if cstr tagDirective.prefixText = [] then emitterError "tag prefix must not be empty"
  else pure ()

def analyzeAnchor (anchor : Bytes) (isAlias : Bool) : EmitM σ Unit :=
  let anchor := cstr anchor
  if anchor = [] then
    emitterError (if isAlias then "alias value must not be empty"
      else "anchor value must not be empty")
  else if ¬anchor.all isAlphaOctet then
    emitterError (if isAlias then "alias value must contain alphanumerical characters only"
      else "anchor value must contain alphanumerical characters only")
  else modify fun s => { s with anchorData := { anchor := some anchor, isAlias := isAlias } }

/-- The directives' first whose prefix begins the tag and is not all of it. -/
def abbreviation (tagDirectives : List TagDirective) (tag : Bytes) : Option TagDirective :=
  tagDirectives.find? fun d =>
    let p := cstr d.prefixText
    p.length < tag.length && p.isPrefixOf tag

def analyzeTag (tag : Bytes) : EmitM σ Unit := do
  let tag := cstr tag
  let s ← get
  if tag = [] then emitterError "tag value must not be empty"
  else match abbreviation s.tagDirectives tag with
    | some d =>
      modify fun s => { s with
        tagData := { handle := some (cstr d.handle)
                     suffix := some (tag.drop (cstr d.prefixText).length) } }
    | none => modify fun s => { s with tagData := { s.tagData with suffix := some tag } }

/-- The locals of `yaml_emitter_analyze_scalar`. -/
structure ScalarFlags where
  blockIndicators : Bool := false
  flowIndicators : Bool := false
  lineBreaks : Bool := false
  specialCharacters : Bool := false
  leadingSpace : Bool := false
  leadingBreak : Bool := false
  trailingSpace : Bool := false
  trailingBreak : Bool := false
  breakSpace : Bool := false
  spaceBreak : Bool := false
  precededByWhitespace : Bool := true
  previousSpace : Bool := false
  previousBreak : Bool := false
deriving DecidableEq, Repr

/-- Whether the value's first character, or a later one, is an indicator in the flow and in the
block context. -/
def indicatorFlags (p : View) (start followedByWhitespace : Bool) (f : ScalarFlags) : ScalarFlags :=
  if start then
    let always := ['#', ',', '[', ']', '{', '}', '&', '*', '!', '|', '>', '\'', '"', '%', '@',
      (Char.ofNat 96)].any (check p)
    let keyed := check p '?' || check p ':'
    let dash := check p '-' && followedByWhitespace
    { f with
      flowIndicators := f.flowIndicators || always || keyed || dash
      blockIndicators := f.blockIndicators || always || (keyed && followedByWhitespace) || dash }
  else
    let flow := [',', '?', '[', ']', '{', '}'].any (check p)
    let colon := check p ':'
    let comment := check p '#' && f.precededByWhitespace
    { f with
      flowIndicators := f.flowIndicators || flow || colon || comment
      blockIndicators := f.blockIndicators || (colon && followedByWhitespace) || comment }

/-- What one character adds: `start` and `last` say whether it is the value's first and last. -/
def characterFlags (unicode : Bool) (p : View) (start last followedByWhitespace : Bool)
    (f : ScalarFlags) : ScalarFlags :=
  let f := indicatorFlags p start followedByWhitespace f
  let f := { f with
    specialCharacters := f.specialCharacters || !isPrintable p || (!isAscii p && !unicode)
    lineBreaks := f.lineBreaks || isBreak p }
  let f :=
    if isSpace p then { f with
      leadingSpace := f.leadingSpace || start
      trailingSpace := f.trailingSpace || last
      breakSpace := f.breakSpace || f.previousBreak
      previousSpace := true
      previousBreak := false }
    else if isBreak p then { f with
      leadingBreak := f.leadingBreak || start
      trailingBreak := f.trailingBreak || last
      spaceBreak := f.spaceBreak || f.previousSpace
      previousSpace := false
      previousBreak := true }
    else { f with previousSpace := false, previousBreak := false }
  { f with precededByWhitespace := isBlankz p }

def scanFlags (unicode : Bool) : List Bytes → Bool → ScalarFlags → ScalarFlags
  | [], _, f => f
  | c :: cs, start, f =>
    scanFlags unicode cs false
      (characterFlags unicode (view c) start cs.isEmpty (isBlankz (view (cs.headD []))) f)

/-- What the flags of a non-empty value allow. -/
def allowed (value : Bytes) (style : ScalarStyle) (f : ScalarFlags) : ScalarData :=
  let edge := f.leadingSpace || f.leadingBreak || f.trailingSpace || f.trailingBreak
  let special := f.spaceBreak || f.specialCharacters
  { value := value
    multiline := f.lineBreaks
    flowPlainAllowed :=
      !(edge || f.breakSpace || special || f.lineBreaks || f.flowIndicators)
    blockPlainAllowed :=
      !(edge || f.breakSpace || special || f.lineBreaks || f.blockIndicators)
    singleQuotedAllowed := !(f.breakSpace || special)
    blockAllowed := !(f.trailingSpace || special)
    style := style }

/-- Whether a value starts as a document indicator does. -/
def startsAsDocumentIndicator (p : View) : Bool :=
  (checkAt p '-' 0 && checkAt p '-' 1 && checkAt p '-' 2)
    || (checkAt p '.' 0 && checkAt p '.' 1 && checkAt p '.' 2)

/-- What an empty value allows. -/
def emptyAllowed (style : ScalarStyle) : ScalarData where
  value := []
  multiline := false
  flowPlainAllowed := false
  blockPlainAllowed := true
  singleQuotedAllowed := true
  blockAllowed := false
  style := style

def analyzeScalar (value : Bytes) : EmitM σ Unit :=
  if value = [] then modify fun s => { s with scalarData := emptyAllowed s.scalarData.style }
  else do
    let cs ← charactersOf value
    let indicator := startsAsDocumentIndicator (view value)
    modify fun s => { s with
      scalarData := allowed value s.scalarData.style
        (scanFlags s.unicode cs true
          { blockIndicators := indicator, flowIndicators := indicator }) }

/-- Check an anchor that is there. -/
def analyzeNodeAnchor : Option Bytes → EmitM σ Unit
  | some anchor => analyzeAnchor anchor false
  | none => pure ()

/-- Check a tag that is there and has to be written. -/
def analyzeNodeTag (implicit : Bool) : Option Bytes → EmitM σ Unit
  | some tag => do
    let s ← get
    onlyIf (s.canonical || !implicit) (analyzeTag tag)
  | none => pure ()

def analyzeEvent (event : Event) : EmitM σ Unit := do
  modify fun s => { s with
    anchorData := { s.anchorData with anchor := none }
    tagData := {}
    scalarData := { s.scalarData with value := [] } }
  match event.data with
  | .alias anchor => analyzeAnchor anchor true
  | .scalar anchor tag value plainImplicit quotedImplicit _ => do
    analyzeNodeAnchor anchor
    analyzeNodeTag (plainImplicit || quotedImplicit) tag
    analyzeScalar value
  | .sequenceStart anchor tag implicit _ => do
    analyzeNodeAnchor anchor
    analyzeNodeTag implicit tag
  | .mappingStart anchor tag implicit _ => do
    analyzeNodeAnchor anchor
    analyzeNodeTag implicit tag
  | _ => pure ()

end Emitter

end LibYaml
