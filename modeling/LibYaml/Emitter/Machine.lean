import LibYaml.Emitter.Writers

/-!
# The emitter

`emit` queues an event and then processes the queue as far as it can tell how to write its first
event.  A call that fails leaves that event at the head of the queue, and the next call starts with
it again.
-/

namespace LibYaml

namespace Emitter

open Fallible

variable {σ : Type}

/-- What the caller can set before the first event. -/
structure Settings where
  encoding : Encoding := .any
  canonical : Bool := false
  bestIndent : Int := 0
  bestWidth : Int := 0
  unicode : Bool := false
  lineBreak : Break := .any
deriving DecidableEq, Repr

/-- An emitter that has been initialized and set up. -/
def initial (settings : Settings) (handler : σ) : Emitter σ where
  handler := handler
  encoding := settings.encoding
  canonical := settings.canonical
  bestIndent := settings.bestIndent
  bestWidth := settings.bestWidth
  unicode := settings.unicode
  lineBreak := settings.lineBreak

/-- An event that comes from no text. -/
def plainEvent (data : EventData) : Event := ⟨data, .zero, .zero⟩

section Stacks

def setState (state : EmitterState) : EmitM σ Unit := modify fun s => { s with state := state }

def pushState (state : EmitterState) : EmitM σ Unit :=
  modify fun s => { s with states := state :: s.states }

/-- `emitter->state = POP(emitter, emitter->states)` -/
def popState : EmitM σ Unit := fun s =>
  match s.states with
  | [] => .error .undefined s
  | state :: states => .ok () { s with state := state, states := states }

/-- `emitter->indent = POP(emitter, emitter->indents)` -/
def popIndent : EmitM σ Unit := fun s =>
  match s.indents with
  | [] => .error .undefined s
  | indent :: indents => .ok () { s with indent := indent, indents := indents }

/-- The indent one level further in. -/
def deeper (indent bestIndent : Int) (flow indentless : Bool) : Int :=
  if indent < 0 then (if flow then bestIndent else 0)
  else if indentless then indent else indent + bestIndent

def increaseIndent (flow indentless : Bool) : EmitM σ Unit :=
  modify fun s => { s with
    indents := s.indent :: s.indents, indent := deeper s.indent s.bestIndent flow indentless }

def addFlowLevel (d : Int) : EmitM σ Unit := modify fun s => { s with flowLevel := s.flowLevel + d }

end Stacks

section Lookahead

/-- How an event changes the nesting `yaml_emitter_need_more_events` counts. -/
def nesting : EventType → Int
  | .streamStart | .documentStart | .sequenceStart | .mappingStart => 1
  | .streamEnd | .documentEnd | .sequenceEnd | .mappingEnd => -1
  | _ => 0

/-- Whether the nesting comes back to 0 behind some event. -/
def closes : Int → List Event → Bool
  | _, [] => false
  | level, e :: es =>
    let level := level + nesting e.type
    level == 0 || closes level es

/-- How many events have to follow an event in the queue before it is written. -/
def accumulate : EventType → Option Nat
  | .documentStart => some 1
  | .sequenceStart => some 2
  | .mappingStart => some 3
  | _ => none

def needMoreEvents : List Event → Bool
  | [] => true
  | e :: es =>
    match accumulate e.type with
    | none => false
    | some n => !(n < (e :: es).length) && !closes 0 (e :: es)

/-- `yaml_emitter_check_empty_document` -/
def checkEmptyDocument : Bool := false

def checkEmptySequence : List Event → Bool
  | e :: e' :: _ => e.type = .sequenceStart && e'.type = .sequenceEnd
  | _ => false

def checkEmptyMapping : List Event → Bool
  | e :: e' :: _ => e.type = .mappingStart && e'.type = .mappingEnd
  | _ => false

/-- The length of a text that may be missing. -/
def lengthOf (b : Option Bytes) : Nat := (b.getD []).length

/-- Whether the event at the head of the queue can be written as a simple key. -/
def checkSimpleKey (s : Emitter σ) : Bool :=
  let tag := lengthOf s.tagData.handle + lengthOf s.tagData.suffix
  let anchor := lengthOf s.anchorData.anchor
  match s.events.head?.map Event.type with
  | some .alias => anchor ≤ 128
  | some .scalar =>
    !s.scalarData.multiline && anchor + tag + s.scalarData.value.length ≤ 128
  | some .sequenceStart => checkEmptySequence s.events && anchor + tag ≤ 128
  | some .mappingStart => checkEmptyMapping s.events && anchor + tag ≤ 128
  | _ => false

end Lookahead

section Nodes

/-- Whether a scalar may be written plain. -/
def plainAllowed (s : Emitter σ) (noTag plainImplicit : Bool) : Bool :=
  (if s.flowLevel ≠ 0 then s.scalarData.flowPlainAllowed else s.scalarData.blockPlainAllowed)
    && !(s.scalarData.value == [] && (s.flowLevel ≠ 0 || s.simpleKeyContext))
    && !(noTag && !plainImplicit)

/-- The style a scalar is written in, for the style that its event asks for. -/
def chosenStyle (s : Emitter σ) (style : ScalarStyle) (noTag plainImplicit : Bool) : ScalarStyle :=
  let style := if style = .any then .plain else style
  let style := if s.canonical then .doubleQuoted else style
  let style := if s.simpleKeyContext && s.scalarData.multiline then .doubleQuoted else style
  let style :=
    if style = .plain && !plainAllowed s noTag plainImplicit then .singleQuoted else style
  let style :=
    if style = .singleQuoted && !s.scalarData.singleQuotedAllowed then .doubleQuoted else style
  if (style = .literal || style = .folded)
      && (!s.scalarData.blockAllowed || s.flowLevel ≠ 0 || s.simpleKeyContext) then .doubleQuoted
  else style

def selectScalarStyle (plainImplicit quotedImplicit : Bool) (style : ScalarStyle) :
    EmitM σ Unit := do
  let s ← get
  let noTag := s.tagData.handle.isNone && s.tagData.suffix.isNone
  if noTag && !plainImplicit && !quotedImplicit then
    emitterError "neither tag nor implicit flags are specified"
  else
    let style := chosenStyle s style noTag plainImplicit
    let forced := noTag && !quotedImplicit && style ≠ .plain
    modify fun s => { s with
      tagData := if forced then { s.tagData with handle := some (ascii ['!']) } else s.tagData
      scalarData := { s.scalarData with style := style } }

variable [WriteHandler σ]

def processAnchor : EmitM σ Unit := do
  let s ← get
  match s.anchorData.anchor with
  | none => pure ()
  | some anchor => do
    writeIndicator (ascii [if s.anchorData.isAlias then '*' else '&']) true false false
    writeAnchor anchor

def processTag : EmitM σ Unit := do
  let s ← get
  match s.tagData.handle, s.tagData.suffix with
  | none, none => pure ()
  | some handle, none => writeTagHandle handle
  | some handle, some suffix => do
    writeTagHandle handle
    writeTagContent suffix false
  | none, some suffix => do
    writeIndicator (ascii ['!', '<']) true false false
    writeTagContent suffix false
    writeIndicator (ascii ['>']) false false false

/-- A value in a style that has been chosen. -/
def writeScalar (style : ScalarStyle) (value : Bytes) (allowBreaks : Bool) : EmitM σ Unit :=
  match style with
  | .plain => writePlainScalar value allowBreaks
  | .singleQuoted => writeSingleQuotedScalar value allowBreaks
  | .doubleQuoted => writeDoubleQuotedScalar value allowBreaks
  | .literal => writeLiteralScalar value
  | .folded => writeFoldedScalar value
  | .any => throw .silent

def processScalar : EmitM σ Unit := do
  let s ← get
  writeScalar s.scalarData.style s.scalarData.value (!s.simpleKeyContext)

def emitAlias : EmitM σ Unit := do
  processAnchor
  let s ← get
  onlyIf s.simpleKeyContext (put (octet ' '))
  popState

def emitScalar (plainImplicit quotedImplicit : Bool) (style : ScalarStyle) : EmitM σ Unit := do
  selectScalarStyle plainImplicit quotedImplicit style
  processAnchor
  processTag
  increaseIndent true false
  processScalar
  popIndent
  popState

def emitSequenceStart (style : SequenceStyle) : EmitM σ Unit := do
  processAnchor
  processTag
  let s ← get
  if s.flowLevel ≠ 0 ∨ s.canonical ∨ style = .flow ∨ checkEmptySequence s.events then
    setState .flowSequenceFirstItem
  else setState .blockSequenceFirstItem

def emitMappingStart (style : MappingStyle) : EmitM σ Unit := do
  processAnchor
  processTag
  let s ← get
  if s.flowLevel ≠ 0 ∨ s.canonical ∨ style = .flow ∨ checkEmptyMapping s.events then
    setState .flowMappingFirstKey
  else setState .blockMappingFirstKey

def setContexts (root sequence mapping simpleKey : Bool) : EmitM σ Unit :=
  modify fun s => { s with
    rootContext := root, sequenceContext := sequence, mappingContext := mapping
    simpleKeyContext := simpleKey }

def emitNodeData (event : Event) : EmitM σ Unit :=
  match event.data with
  | .alias _ => emitAlias
  | .scalar _ _ _ plainImplicit quotedImplicit style =>
    emitScalar plainImplicit quotedImplicit style
  | .sequenceStart _ _ _ style => emitSequenceStart style
  | .mappingStart _ _ _ style => emitMappingStart style
  | _ => emitterError "expected SCALAR, SEQUENCE-START, MAPPING-START, or ALIAS"

def emitNode (event : Event) (root sequence mapping simpleKey : Bool) : EmitM σ Unit := do
  setContexts root sequence mapping simpleKey
  emitNodeData event

end Nodes

section Documents

variable [WriteHandler σ]

/-- The widths and the break the stream is written with, where the caller's do not fit. -/
def streamDefaults (s : Emitter σ) (encoding : Encoding) : Emitter σ :=
  let encoding := if s.encoding = .any then encoding else s.encoding
  let bestIndent := if s.bestIndent < 2 ∨ 9 < s.bestIndent then 2 else s.bestIndent
  let bestWidth := if 0 ≤ s.bestWidth ∧ s.bestWidth ≤ bestIndent * 2 then 80 else s.bestWidth
  { s with
    encoding := if encoding = .any then .utf8 else encoding
    bestIndent := bestIndent
    bestWidth := if bestWidth < 0 then 2147483647 else bestWidth
    lineBreak := if s.lineBreak = .any then .ln else s.lineBreak
    indent := -1
    line := 0
    column := 0
    whitespace := true
    indention := true }

def emitStreamStart (event : Event) : EmitM σ Unit := do
  modify fun s => { s with openEnded := 0 }
  match event.data with
  | .streamStart encoding => do
    modify fun s => streamDefaults s encoding
    let s ← get
    onlyIf (s.encoding ≠ .utf8) writeBom
    setState .firstDocumentStart
  | _ => emitterError "expected STREAM-START"

def defaultTagDirectives : List TagDirective :=
  [⟨ascii ['!'], ascii ['!']⟩,
    ⟨ascii ['!', '!'], ascii ['t', 'a', 'g', ':', 'y', 'a', 'm', 'l', '.', 'o', 'r', 'g', ',', '2',
      '0', '0', '2', ':']⟩]

def appendTagDirective (allowDuplicates : Bool) (value : TagDirective) : EmitM σ Unit := do
  let s ← get
  let copy : TagDirective := ⟨cstr value.handle, cstr value.prefixText⟩
  if s.tagDirectives.any fun d => copy.handle == cstr d.handle then
    if allowDuplicates then pure () else emitterError "duplicate %TAG directive"
  else modify fun s => { s with tagDirectives := s.tagDirectives ++ [copy] }

def declareTagDirective (value : TagDirective) : EmitM σ Unit := do
  analyzeTagDirective value
  appendTagDirective false value

/-- The check of a `%YAML` directive that is there. -/
def checkVersionDirective : Option VersionDirective → EmitM σ Unit
  | some versionDirective => analyzeVersionDirective versionDirective
  | none => pure ()

/-- The document marker that lets directives follow a document. -/
def writeDocumentEndMarker : EmitM σ Unit := writeIndicator (ascii ['.', '.', '.']) true false false

def writeVersionDirective (versionDirective : VersionDirective) : EmitM σ Unit := do
  writeIndicator (ascii ['%', 'Y', 'A', 'M', 'L']) true false false
  writeIndicator (ascii (if versionDirective.minor = 1 then ['1', '.', '1'] else ['1', '.', '2']))
    true false false
  writeIndent

def writeTagDirective (tagDirective : TagDirective) : EmitM σ Unit := do
  writeIndicator (ascii ['%', 'T', 'A', 'G']) true false false
  writeTagHandle (cstr tagDirective.handle)
  writeTagContent (cstr tagDirective.prefixText) true
  writeIndent

/-- The `%YAML` directive that is there. -/
def writeVersion : Option VersionDirective → EmitM σ Unit
  | some versionDirective => writeVersionDirective versionDirective
  | none => pure ()

def writeDocumentStartMarker : EmitM σ Unit := do
  writeIndent
  writeIndicator (ascii ['-', '-', '-']) true false false
  let s ← get
  onlyIf s.canonical writeIndent

def setOpenEnded (n : Nat) : EmitM σ Unit := modify fun s => { s with openEnded := n }

/-- A document start: everything of `yaml_emitter_emit_document_start` for such an event. -/
def startDocument (first : Bool) (versionDirective : Option VersionDirective)
    (tagDirectives : List TagDirective) (implicit : Bool) : EmitM σ Unit := do
  checkVersionDirective versionDirective
  tagDirectives.forM declareTagDirective
  defaultTagDirectives.forM (appendTagDirective true)
  let s ← get
  let directives := versionDirective.isSome || !tagDirectives.isEmpty
  onlyIf (directives && s.openEnded ≠ 0) do
    writeDocumentEndMarker
    writeIndent
  setOpenEnded 0
  writeVersion versionDirective
  tagDirectives.forM writeTagDirective
  onlyIf (!implicit || !first || s.canonical || directives || checkEmptyDocument)
    writeDocumentStartMarker
  setState .documentContent
  setOpenEnded 0

/-- The stream end: everything of `yaml_emitter_emit_document_start` for such an event. -/
def endStream : EmitM σ Unit := do
  let s ← get
  onlyIf (s.openEnded == 2) do
    writeDocumentEndMarker
    setOpenEnded 0
    writeIndent
  flush
  setState .end

def emitDocumentStart (event : Event) (first : Bool) : EmitM σ Unit :=
  match event.data with
  | .documentStart versionDirective tagDirectives implicit =>
    startDocument first versionDirective tagDirectives implicit
  | .streamEnd => endStream
  | _ => emitterError "expected DOCUMENT-START or STREAM-END"

def emitDocumentContent (event : Event) : EmitM σ Unit := do
  pushState .documentEnd
  emitNode event true false false false

/-- The marker behind a document that ends explicitly; one that does not is left open. -/
def closeDocument (implicit : Bool) : EmitM σ Unit :=
  if implicit then modify fun s => { s with openEnded := if s.openEnded = 0 then 1 else s.openEnded }
  else do
    writeDocumentEndMarker
    setOpenEnded 0
    writeIndent

def emitDocumentEnd (event : Event) : EmitM σ Unit :=
  match event.data with
  | .documentEnd implicit => do
    writeIndent
    closeDocument implicit
    flush
    modify fun s => { s with state := .documentStart, tagDirectives := [] }
  | _ => emitterError "expected DOCUMENT-END"

end Documents

section Collections

variable [WriteHandler σ]

/-- The opening bracket of a flow collection. -/
def openFlow (bracket : Char) : EmitM σ Unit := do
  writeIndicator (ascii [bracket]) true true false
  increaseIndent true false
  addFlowLevel 1

/-- The closing bracket of a flow collection. -/
def closeFlow (bracket : Char) (first : Bool) : EmitM σ Unit := do
  addFlowLevel (-1)
  popIndent
  let s ← get
  onlyIf (s.canonical && !first) do
    writeIndicator (ascii [',']) false false false
    writeIndent
  writeIndicator (ascii [bracket]) false false false
  popState

def breakLongLine : EmitM σ Unit := do
  let s ← get
  onlyIf (s.canonical || tooWide s) writeIndent

/-- What comes between two entries of a flow collection. -/
def separateEntries (first : Bool) : EmitM σ Unit := do
  onlyIf (!first) (writeIndicator (ascii [',']) false false false)
  breakLongLine

def emitFlowSequenceItem (event : Event) (first : Bool) : EmitM σ Unit := do
  onlyIf first (openFlow '[')
  if event.type = .sequenceEnd then closeFlow ']' first
  else do
    separateEntries first
    pushState .flowSequenceItem
    emitNode event false true false false

/-- A mapping's closing bracket: without an indent to return to the call fails. -/
def closeFlowMapping (first : Bool) : EmitM σ Unit := do
  let s ← get
  if s.indents = [] then throw .silent else closeFlow '}' first

def emitFlowMappingKey (event : Event) (first : Bool) : EmitM σ Unit := do
  onlyIf first (openFlow '{')
  if event.type = .mappingEnd then closeFlowMapping first
  else do
    separateEntries first
    let s ← get
    if !s.canonical && checkSimpleKey s then do
      pushState .flowMappingSimpleValue
      emitNode event false false true true
    else do
      writeIndicator (ascii ['?']) true false false
      pushState .flowMappingValue
      emitNode event false false true false

def writeFlowValueIndicator (simple : Bool) : EmitM σ Unit :=
  if simple then writeIndicator (ascii [':']) false false false
  else do
    breakLongLine
    writeIndicator (ascii [':']) true false false

def emitFlowMappingValue (event : Event) (simple : Bool) : EmitM σ Unit := do
  writeFlowValueIndicator simple
  pushState .flowMappingKey
  emitNode event false false true false

/-- The end of a block collection. -/
def closeBlock : EmitM σ Unit := do
  popIndent
  popState

def emitBlockSequenceItem (event : Event) (first : Bool) : EmitM σ Unit := do
  let s ← get
  onlyIf first (increaseIndent false (s.mappingContext && !s.indention))
  if event.type = .sequenceEnd then closeBlock
  else do
    writeIndent
    writeIndicator (ascii ['-']) true false true
    pushState .blockSequenceItem
    emitNode event false true false false

def emitBlockMappingKey (event : Event) (first : Bool) : EmitM σ Unit := do
  onlyIf first (increaseIndent false false)
  if event.type = .mappingEnd then closeBlock
  else do
    writeIndent
    let s ← get
    if checkSimpleKey s then do
      pushState .blockMappingSimpleValue
      emitNode event false false true true
    else do
      writeIndicator (ascii ['?']) true false true
      pushState .blockMappingValue
      emitNode event false false true false

def writeBlockValueIndicator (simple : Bool) : EmitM σ Unit :=
  if simple then writeIndicator (ascii [':']) false false false
  else do
    writeIndent
    writeIndicator (ascii [':']) true false true

def emitBlockMappingValue (event : Event) (simple : Bool) : EmitM σ Unit := do
  writeBlockValueIndicator simple
  pushState .blockMappingKey
  emitNode event false false true false

end Collections

section Emit

variable [WriteHandler σ]

def runState : EmitterState → Event → EmitM σ Unit
  | .streamStart, event => emitStreamStart event
  | .firstDocumentStart, event => emitDocumentStart event true
  | .documentStart, event => emitDocumentStart event false
  | .documentContent, event => emitDocumentContent event
  | .documentEnd, event => emitDocumentEnd event
  | .flowSequenceFirstItem, event => emitFlowSequenceItem event true
  | .flowSequenceItem, event => emitFlowSequenceItem event false
  | .flowMappingFirstKey, event => emitFlowMappingKey event true
  | .flowMappingKey, event => emitFlowMappingKey event false
  | .flowMappingSimpleValue, event => emitFlowMappingValue event true
  | .flowMappingValue, event => emitFlowMappingValue event false
  | .blockSequenceFirstItem, event => emitBlockSequenceItem event true
  | .blockSequenceItem, event => emitBlockSequenceItem event false
  | .blockMappingFirstKey, event => emitBlockMappingKey event true
  | .blockMappingKey, event => emitBlockMappingKey event false
  | .blockMappingSimpleValue, event => emitBlockMappingValue event true
  | .blockMappingValue, event => emitBlockMappingValue event false
  | .end, _ => emitterError "expected nothing after STREAM-END"

def stateMachine (event : Event) : EmitM σ Unit := do
  let s ← get
  runState s.state event

/-- Write the event at the head of the queue. -/
def processEvent (event : Event) : EmitM σ Unit := do
  analyzeEvent event
  stateMachine event
  modify fun s => { s with events := s.events.tail }

/-- The loop of `yaml_emitter_emit_impl`, for a queue of at most `n` events: each round takes one
event off. -/
def processEvents : Nat → EmitM σ Unit
  | 0 => pure ()
  | n + 1 => do
    let s ← get
    match s.events with
    | [] => pure ()
    | event :: _ =>
      if needMoreEvents s.events then pure ()
      else do
        processEvent event
        processEvents n

def emit (event : Event) : EmitM σ Unit := do
  modify fun s => { s with events := s.events ++ [event] }
  let s ← get
  processEvents s.events.length

/-- Whether a call that fails so comes back to its caller. -/
def returns : Fault → Bool
  | .reported _ | .silent => true
  | .undefined | .outOfFuel => false

/-- One call of `yaml_emitter_emit` after the other, whatever they answer. -/
def calls : List Event → EmitM σ Unit
  | [] => pure ()
  | e :: es => fun s => match emit e s with
    | .ok _ t => calls es t
    | .error fault t => if returns fault then calls es t else .error fault t

end Emit

end Emitter

end LibYaml
