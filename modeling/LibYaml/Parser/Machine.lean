import LibYaml.Types
import LibYaml.Fallible

/-!
# The parser's state machine

`yaml_parser_parse` turns tokens into events, one event a call.  Where the tokens come from is a
parameter, `TokenSource`: the scanner is one source, a fixed list of tokens another.
-/

namespace LibYaml

/-- What the parser uses of the token queue: `peek` is `peek_token`, which may have to fetch,
`head` the token at the head of the queue and `skip` the move past it. -/
class TokenSource (σ : Type) where
  peek : EStateM Fault σ Token
  head : σ → Option Token
  skip : σ → σ

/-- A list of tokens and what fetching fails with once they have all been taken. -/
structure TokenList where
  tokens : List Token
  failure : Problem
deriving DecidableEq, Repr

instance : TokenSource TokenList where
  peek s := match s.tokens with
    | [] => .error (.reported s.failure) s
    | t :: _ => .ok t s
  head s := s.tokens.head?
  skip s := { s with tokens := s.tokens.tail }

inductive ParserState
  | streamStart
  | implicitDocumentStart | documentStart | documentContent | documentEnd
  | blockNode | blockNodeOrIndentlessSequence | flowNode
  | blockSequenceFirstEntry | blockSequenceEntry | indentlessSequenceEntry
  | blockMappingFirstKey | blockMappingKey | blockMappingValue
  | flowSequenceFirstEntry | flowSequenceEntry
  | flowSequenceEntryMappingKey | flowSequenceEntryMappingValue | flowSequenceEntryMappingEnd
  | flowMappingFirstKey | flowMappingKey | flowMappingValue | flowMappingEmptyValue
  | end
deriving DecidableEq, Repr

/-- The part of `yaml_parser_t` that parsing reads and writes; stacks list their top first, except
`tagDirectives`, which is searched from its bottom. -/
structure Parser (σ : Type) where
  source : σ
  error : Option Problem := none
  streamEndProduced : Bool := false
  states : List ParserState := []
  state : ParserState := .streamStart
  marks : List Mark := []
  tagDirectives : List TagDirective := []

namespace Parser

variable {σ : Type}

abbrev ParseM (σ : Type) := EStateM Fault (Parser σ)

def withState (p : Parser σ) (state : ParserState) : Parser σ := { p with state := state }

def setState (state : ParserState) : ParseM σ Unit := modify (withState · state)

/-- `PUSH` on `parser.states`. -/
def pushState (state : ParserState) : ParseM σ Unit :=
  modify fun p => { p with states := state :: p.states }

/-- `parser.state = POP(parser.states)`; popping an empty stack reads outside it. -/
def popState : ParseM σ Unit := fun p =>
  match p.states with
  | [] => .error .undefined p
  | s :: rest => .ok () { p with state := s, states := rest }

def pushMark (mark : Mark) : ParseM σ Unit :=
  modify fun p => { p with marks := mark :: p.marks }

/-- `POP(parser.marks)`. -/
def popMark : ParseM σ Mark := fun p =>
  match p.marks with
  | [] => .error .undefined p
  | m :: rest => .ok m { p with marks := rest }

section Source

variable [TokenSource σ]

def peekToken : ParseM σ Token := fun p =>
  match TokenSource.peek p.source with
  | .ok token source => .ok token { p with source := source }
  | .error e source => .error e { p with source := source }

def skipToken : ParseM σ Unit := modify fun p =>
  { p with
    streamEndProduced := (TokenSource.head p.source).any (·.type = .streamEnd)
    source := TokenSource.skip p.source }

def parserError (problem : String) (problemMark : Mark) : Fault :=
  .reported (.parser none problem problemMark)

def parserErrorContext (context : String) (contextMark : Mark) (problem : String)
    (problemMark : Mark) : Fault :=
  .reported (.parser (some (context, contextMark)) problem problemMark)

/-- The event `yaml_parser_process_empty_scalar` delivers. -/
def emptyScalar (mark : Mark) : Event :=
  ⟨.scalar none none [] true false .plain, mark, mark⟩

def processEmptyScalar (mark : Mark) : ParseM σ Event := pure (emptyScalar mark)

/-! ## Directives -/

def bangTag : Bytes := [0x21]

def defaultTagDirectives : List TagDirective :=
  [⟨[0x21], [0x21]⟩,
   ⟨[0x21, 0x21], ascii ['t', 'a', 'g', ':', 'y', 'a', 'm', 'l', '.', 'o', 'r', 'g', ',',
      '2', '0', '0', '2', ':']⟩]

def appendTagDirective (value : TagDirective) (allowDuplicates : Bool) (mark : Mark) :
    ParseM σ Unit := fun p =>
  if p.tagDirectives.any (fun d => cstr value.handle = cstr d.handle) then
    if allowDuplicates then .ok () p
    else .error (parserError "found duplicate %TAG directive" mark) p
  else .ok () { p with
    tagDirectives := p.tagDirectives ++ [⟨cstr value.handle, cstr value.prefixText⟩] }

/-- Append the default directives, unless the document redefines them. -/
def appendDefaultTagDirectives (mark : Mark) : List TagDirective → ParseM σ Unit
  | [] => pure ()
  | d :: ds => do
    appendTagDirective d true mark
    appendDefaultTagDirectives mark ds

/-- The loop of `yaml_parser_process_directives` over the directive tokens. -/
def scanDirectives : Nat → Option VersionDirective → List TagDirective → Token →
    ParseM σ (Option VersionDirective × List TagDirective × Token)
  | 0, _, _, _ => throw .outOfFuel
  | fuel + 1, version, directives, token =>
    match token.data with
    | .versionDirective major minor =>
      if version.isSome then
        throw (parserError "found duplicate %YAML directive" token.startMark)
      else if major ≠ 1 ∨ (minor ≠ 1 ∧ minor ≠ 2) then
        throw (parserError "found incompatible YAML document" token.startMark)
      else do
        skipToken
        let next ← peekToken
        scanDirectives fuel (some ⟨major, minor⟩) directives next
    | .tagDirective handle prefixText => do
      appendTagDirective ⟨handle, prefixText⟩ false token.startMark
      skipToken
      let next ← peekToken
      scanDirectives fuel version (directives ++ [⟨handle, prefixText⟩]) next
    | _ => pure (version, directives, token)

def processDirectives (fuel : Nat) : ParseM σ (Option VersionDirective × List TagDirective) := do
  let token ← peekToken
  let (version, directives, last) ← scanDirectives fuel none [] token
  appendDefaultTagDirectives last.startMark defaultTagDirectives
  return (version, directives)

/-! ## Stream and documents -/

def parseStreamStart : ParseM σ Event := do
  let token ← peekToken
  match token.data with
  | .streamStart encoding => do
    setState .implicitDocumentStart
    skipToken
    return ⟨.streamStart encoding, token.startMark, token.startMark⟩
  | _ => throw (parserError "did not find expected <stream-start>" token.startMark)

/-- The loop that passes over extra document end markers. -/
def skipDocumentEnds : Nat → Token → ParseM σ Token
  | 0, _ => throw .outOfFuel
  | fuel + 1, token =>
    if token.type = .documentEnd then do
      skipToken
      let next ← peekToken
      skipDocumentEnds fuel next
    else pure token

/-- The branch of `yaml_parser_parse_document_start` for a document without a start marker. -/
def parseImplicitDocumentStart (fuel : Nat) (token : Token) : ParseM σ Event := do
  let _ ← processDirectives fuel
  pushState .documentEnd
  setState .blockNode
  return ⟨.documentStart none [] true, token.startMark, token.startMark⟩

/-- The branch for a document with a start marker. -/
def parseExplicitDocumentStart (fuel : Nat) (first : Token) : ParseM σ Event := do
  let (version, directives) ← processDirectives fuel
  let token ← peekToken
  if token.type = .documentStart then do
    pushState .documentEnd
    setState .documentContent
    skipToken
    return ⟨.documentStart version directives false, first.startMark, token.endMark⟩
  else throw (parserError "did not find expected <document start>" token.startMark)

def parseStreamEnd (token : Token) : ParseM σ Event := do
  setState .end
  skipToken
  return ⟨.streamEnd, token.startMark, token.endMark⟩

def parseDocumentStart (fuel : Nat) (implicit : Bool) : ParseM σ Event := do
  let first ← peekToken
  let token ← (if implicit then pure first else skipDocumentEnds fuel first)
  if implicit = true ∧ token.type ≠ .versionDirective ∧ token.type ≠ .tagDirective ∧
      token.type ≠ .documentStart ∧ token.type ≠ .streamEnd then
    parseImplicitDocumentStart fuel token
  else if token.type ≠ .streamEnd then
    parseExplicitDocumentStart fuel token
  else
    parseStreamEnd token

def parseDocumentEnd : ParseM σ Event := do
  let token ← peekToken
  if token.type = .documentEnd then do
    skipToken
    modify fun p => { p with tagDirectives := [], state := .documentStart }
    return ⟨.documentEnd false, token.startMark, token.endMark⟩
  else do
    modify fun p => { p with tagDirectives := [], state := .documentStart }
    return ⟨.documentEnd true, token.startMark, token.startMark⟩

/-! ## Nodes -/

/-- A node's properties, their marks, and the token that follows them. -/
structure Properties where
  anchor : Option Bytes
  tag : Option (Bytes × Bytes)
  startMark : Mark
  endMark : Mark
  tagMark : Mark
  token : Token

def parseProperties (token : Token) : ParseM σ Properties :=
  match token.data with
  | .anchor value => do
    skipToken
    let next ← peekToken
    match next.data with
    | .tag handle suffix => do
      skipToken
      let last ← peekToken
      return ⟨some value, some (handle, suffix), token.startMark, next.endMark, next.startMark,
        last⟩
    | _ => return ⟨some value, none, token.startMark, token.endMark, token.startMark, next⟩
  | .tag handle suffix => do
    skipToken
    let next ← peekToken
    match next.data with
    | .anchor value => do
      skipToken
      let last ← peekToken
      return ⟨some value, some (handle, suffix), token.startMark, next.endMark, token.startMark,
        last⟩
    | _ =>
      return ⟨none, some (handle, suffix), token.startMark, token.endMark, token.startMark, next⟩
  | _ => return ⟨none, none, token.startMark, token.startMark, token.startMark, token⟩

def resolveTag (props : Properties) : ParseM σ (Option Bytes) := fun p =>
  match props.tag with
  | none => .ok none p
  | some (handle, suffix) =>
    if cstr handle = [] then .ok (some suffix) p
    else
      match p.tagDirectives.find? (fun d => cstr d.handle = cstr handle) with
      | some d => .ok (some (cstr d.prefixText ++ cstr suffix)) p
      | none => .error (parserErrorContext "while parsing a node" props.startMark
          "found undefined tag handle" props.tagMark) p

/-- `plain_implicit` and `quoted_implicit` of a scalar token. -/
def scalarImplicit (style : ScalarStyle) (tag : Option Bytes) : Bool × Bool :=
  if (style = .plain ∧ tag.isNone) ∨ tag.any (fun t => cstr t = bangTag) then (true, false)
  else if tag.isNone then (false, true)
  else (false, false)

/-- What `yaml_parser_parse_node` does once properties and tag are known. -/
def parseContent (block indentlessSequence : Bool) (props : Properties) (tag : Option Bytes) :
    ParseM σ Event :=
  let implicit := tag.all fun t => cstr t = []
  let token := props.token
  if indentlessSequence = true ∧ token.type = .blockEntry then do
    setState .indentlessSequenceEntry
    return ⟨.sequenceStart props.anchor tag implicit .block, props.startMark, token.endMark⟩
  else
    match token.data with
    | .scalar value style => do
      popState
      skipToken
      return ⟨.scalar props.anchor tag value (scalarImplicit style tag).1
        (scalarImplicit style tag).2 style, props.startMark, token.endMark⟩
    | .flowSequenceStart => do
      setState .flowSequenceFirstEntry
      return ⟨.sequenceStart props.anchor tag implicit .flow, props.startMark, token.endMark⟩
    | .flowMappingStart => do
      setState .flowMappingFirstKey
      return ⟨.mappingStart props.anchor tag implicit .flow, props.startMark, token.endMark⟩
    | data =>
      if block = true ∧ data = .blockSequenceStart then do
        setState .blockSequenceFirstEntry
        return ⟨.sequenceStart props.anchor tag implicit .block, props.startMark, token.endMark⟩
      else if block = true ∧ data = .blockMappingStart then do
        setState .blockMappingFirstKey
        return ⟨.mappingStart props.anchor tag implicit .block, props.startMark, token.endMark⟩
      else if props.anchor.isSome ∨ tag.isSome then do
        popState
        return ⟨.scalar props.anchor tag [] implicit false .plain, props.startMark, props.endMark⟩
      else
        throw (parserErrorContext
          (if block then "while parsing a block node" else "while parsing a flow node")
          props.startMark "did not find expected node content" token.startMark)

def parseNode (block indentlessSequence : Bool) : ParseM σ Event := do
  let token ← peekToken
  match token.data with
  | .alias value => do
    popState
    skipToken
    return ⟨.alias value, token.startMark, token.endMark⟩
  | _ => do
    let props ← parseProperties token
    let tag ← resolveTag props
    parseContent block indentlessSequence props tag

def parseDocumentContent : ParseM σ Event := do
  let token ← peekToken
  if token.type ∈ [TokenType.versionDirective, .tagDirective, .documentStart, .documentEnd,
      .streamEnd] then do
    popState
    processEmptyScalar token.startMark
  else parseNode true false

/-! ## Collections -/

/-- What the first call in a collection does: keep the opening token's mark and skip it. -/
def openCollection (first : Bool) : ParseM σ Unit :=
  if first then do
    let token ← peekToken
    pushMark token.startMark
    skipToken
  else pure ()

/-- Close a collection at its end token: return to the enclosing state. -/
def closeCollection (token : Token) (data : EventData) : ParseM σ Event := do
  popState
  let _ ← popMark
  skipToken
  return ⟨data, token.startMark, token.endMark⟩

/-- Fail with the mark of the innermost open collection as the context. -/
def failCollection (context problem : String) (token : Token) : ParseM σ Event := do
  let mark ← popMark
  throw (parserErrorContext context mark problem token.startMark)

/-- An entry, a key or a value whose node may be missing: `token` introduces it, and a token of
one of the types `follow` behind it means that there is no node. -/
def parseOptionalNode (token : Token) (follow : List TokenType) (after : ParserState)
    (block indentlessSequence : Bool) : ParseM σ Event := do
  skipToken
  let next ← peekToken
  if next.type ∈ follow then do
    setState after
    processEmptyScalar token.endMark
  else do
    pushState after
    parseNode block indentlessSequence

def parseBlockSequenceEntry (first : Bool) : ParseM σ Event := do
  openCollection first
  let token ← peekToken
  if token.type = .blockEntry then
    parseOptionalNode token [.blockEntry, .blockEnd] .blockSequenceEntry true false
  else if token.type = .blockEnd then
    closeCollection token .sequenceEnd
  else
    failCollection "while parsing a block collection" "did not find expected '-' indicator" token

def parseIndentlessSequenceEntry : ParseM σ Event := do
  let token ← peekToken
  if token.type = .blockEntry then
    parseOptionalNode token [.blockEntry, .key, .value, .blockEnd] .indentlessSequenceEntry
      true false
  else do
    popState
    return ⟨.sequenceEnd, token.startMark, token.startMark⟩

def parseBlockMappingKey (first : Bool) : ParseM σ Event := do
  openCollection first
  let token ← peekToken
  if token.type = .key then
    parseOptionalNode token [.key, .value, .blockEnd] .blockMappingValue true true
  else if token.type = .blockEnd then
    closeCollection token .mappingEnd
  else
    failCollection "while parsing a block mapping" "did not find expected key" token

def parseBlockMappingValue : ParseM σ Event := do
  let token ← peekToken
  if token.type = .value then
    parseOptionalNode token [.key, .value, .blockEnd] .blockMappingKey true true
  else do
    setState .blockMappingKey
    processEmptyScalar token.startMark

/-- The separator before every entry of a flow collection but the first. -/
def flowSeparator (first : Bool) (context problem : String) (token : Token) :
    ParseM σ Token :=
  if first then pure token
  else if token.type = .flowEntry then do
    skipToken
    peekToken
  else do
    let mark ← popMark
    throw (parserErrorContext context mark problem token.startMark)

def parseFlowSequenceEntry (first : Bool) : ParseM σ Event := do
  openCollection first
  let token ← peekToken
  if token.type = .flowSequenceEnd then
    closeCollection token .sequenceEnd
  else do
    let entry ← flowSeparator first "while parsing a flow sequence"
      "did not find expected ',' or ']'" token
    if entry.type = .key then do
      setState .flowSequenceEntryMappingKey
      skipToken
      return ⟨.mappingStart none none true .flow, entry.startMark, entry.endMark⟩
    else if entry.type = .flowSequenceEnd then
      closeCollection entry .sequenceEnd
    else do
      pushState .flowSequenceEntry
      parseNode false false

def parseFlowSequenceEntryMappingKey : ParseM σ Event := do
  let token ← peekToken
  if token.type ≠ .value ∧ token.type ≠ .flowEntry ∧ token.type ≠ .flowSequenceEnd then do
    pushState .flowSequenceEntryMappingValue
    parseNode false false
  else do
    -- The token that shows the key's node to be missing is skipped, whatever it is.
    skipToken
    setState .flowSequenceEntryMappingValue
    processEmptyScalar token.endMark

/-- A value in a flow collection: an optional `VALUE` token, then an optional node. -/
def parseFlowValue (follow : List TokenType) (after : ParserState) : ParseM σ Event := do
  let token ← peekToken
  if token.type = .value then do
    skipToken
    let next ← peekToken
    if next.type ∈ follow then do
      setState after
      processEmptyScalar next.startMark
    else do
      pushState after
      parseNode false false
  else do
    setState after
    processEmptyScalar token.startMark

def parseFlowSequenceEntryMappingValue : ParseM σ Event :=
  parseFlowValue [.flowEntry, .flowSequenceEnd] .flowSequenceEntryMappingEnd

def parseFlowSequenceEntryMappingEnd : ParseM σ Event := do
  let token ← peekToken
  setState .flowSequenceEntry
  return ⟨.mappingEnd, token.startMark, token.startMark⟩

def parseFlowMappingKey (first : Bool) : ParseM σ Event := do
  openCollection first
  let token ← peekToken
  if token.type = .flowMappingEnd then
    closeCollection token .mappingEnd
  else do
    let entry ← flowSeparator first "while parsing a flow mapping"
      "did not find expected ',' or '\x7d'" token
    if entry.type = .key then do
      skipToken
      let next ← peekToken
      if next.type ∈ [TokenType.value, .flowEntry, .flowMappingEnd] then do
        setState .flowMappingValue
        processEmptyScalar next.startMark
      else do
        pushState .flowMappingValue
        parseNode false false
    else if entry.type = .flowMappingEnd then
      closeCollection entry .mappingEnd
    else do
      pushState .flowMappingEmptyValue
      parseNode false false

def parseFlowMappingValue (empty : Bool) : ParseM σ Event :=
  if empty then do
    let token ← peekToken
    setState .flowMappingKey
    processEmptyScalar token.startMark
  else
    parseFlowValue [.flowEntry, .flowMappingEnd] .flowMappingKey

/-! ## The state machine -/

def stateMachine (fuel : Nat) : ParseM σ Event := do
  let p ← get
  match p.state with
  | .streamStart => parseStreamStart
  | .implicitDocumentStart => parseDocumentStart fuel true
  | .documentStart => parseDocumentStart fuel false
  | .documentContent => parseDocumentContent
  | .documentEnd => parseDocumentEnd
  | .blockNode => parseNode true false
  | .blockNodeOrIndentlessSequence => parseNode true true
  | .flowNode => parseNode false false
  | .blockSequenceFirstEntry => parseBlockSequenceEntry true
  | .blockSequenceEntry => parseBlockSequenceEntry false
  | .indentlessSequenceEntry => parseIndentlessSequenceEntry
  | .blockMappingFirstKey => parseBlockMappingKey true
  | .blockMappingKey => parseBlockMappingKey false
  | .blockMappingValue => parseBlockMappingValue
  | .flowSequenceFirstEntry => parseFlowSequenceEntry true
  | .flowSequenceEntry => parseFlowSequenceEntry false
  | .flowSequenceEntryMappingKey => parseFlowSequenceEntryMappingKey
  | .flowSequenceEntryMappingValue => parseFlowSequenceEntryMappingValue
  | .flowSequenceEntryMappingEnd => parseFlowSequenceEntryMappingEnd
  | .flowMappingFirstKey => parseFlowMappingKey true
  | .flowMappingKey => parseFlowMappingKey false
  | .flowMappingValue => parseFlowMappingValue false
  | .flowMappingEmptyValue => parseFlowMappingValue true
  | .end => throw .silent

/-- `yaml_parser_parse`: nothing more is delivered after the end of the stream or an error. -/
def parse (fuel : Nat) (p : Parser σ) : EStateM.Result Fault (Parser σ) Event :=
  if p.streamEndProduced = true ∨ p.error.isSome = true ∨ p.state = .end then .ok Event.empty p
  else
    match stateMachine fuel p with
    | .ok e p' => .ok e p'
    | .error (.reported problem) p' =>
      .error (.reported problem) { p' with error := some problem }
    | .error fault p' => .error fault p'

/-- What `n` successive calls deliver, and the parser they leave. -/
def calls (fuel : Nat) : Nat → Parser σ → List (Except Fault Event) × Parser σ
  | 0, p => ([], p)
  | n + 1, p =>
    match parse fuel p with
    | .ok e p' => let (rs, q) := calls fuel n p'; (.ok e :: rs, q)
    | .error fault p' => let (rs, q) := calls fuel n p'; (.error fault :: rs, q)

end Source

/-- A freshly initialised parser over `source`. -/
def init (source : σ) : Parser σ := { source := source }

/-- The events a run delivered. -/
def events (rs : List (Except Fault Event)) : List Event :=
  rs.filterMap fun r => match r with
    | .ok e => if e.type = .noEvent then none else some e
    | .error _ => none

end Parser

end LibYaml
