import LibYaml.Scanner.Tags
import LibYaml.Scanner.Scalars
import LibYaml.Parser.Machine

/-!
# The scanner

Tokens are queued as they are found, and may have to wait there: a simple key is recognised only by
the ':' behind it, and then a KEY token goes in front of tokens already queued.
-/

namespace LibYaml

namespace Scanner

open Fallible

variable {ι : Type}

/-! ## Simple keys -/

/-- Whether the key can no longer be followed by its ':'. -/
def SimpleKey.isStale (mark : Mark) (key : SimpleKey) : Bool :=
  key.possible && (key.mark.line < mark.line || key.mark.index + 1024 < mark.index)

/-- The keys with the stale ones removed, from the bottom of the stack on, and the required one that
stops this. -/
def staleKeys (mark : Mark) : List SimpleKey → List SimpleKey × Option SimpleKey
  | [] => ([], none)
  | key :: below =>
    match staleKeys mark below with
    | (below, some missed) => (key :: below, some missed)
    | (below, none) =>
      if SimpleKey.isStale mark key then
        if key.required then (key :: below, some key)
        else ({ key with possible := false } :: below, none)
      else (key :: below, none)

def missingColon (key : SimpleKey) : ScanM ι Unit :=
  scannerError (some "while scanning a simple key") key.mark "could not find expected ':'"

def staleSimpleKeys : ScanM ι Unit := do
  let s ← get
  set { s with simpleKeys := (staleKeys s.mark s.simpleKeys).1 }
  match (staleKeys s.mark s.simpleKeys).2 with
  | none => pure ()
  | some key => missingColon key

/-- `simple_keys.top - 1`; below the first entry there is none. -/
def topSimpleKey : ScanM ι SimpleKey := fun s =>
  match s.simpleKeys with
  | [] => .error .undefined s
  | key :: _ => .ok key s

def setTopSimpleKey (key : SimpleKey) : ScanM ι Unit :=
  modify fun s => { s with simpleKeys := key :: s.simpleKeys.tail }

def removeSimpleKey : ScanM ι Unit := do
  let key ← topSimpleKey
  onlyIf (key.possible && key.required) (missingColon key)
  setTopSimpleKey { key with possible := false }

def saveSimpleKey : ScanM ι Unit := do
  let s ← get
  onlyIf s.simpleKeyAllowed do
    removeSimpleKey
    setTopSimpleKey
      ⟨true, s.flowLevel = 0 && s.indent = s.mark.column, s.tokensParsed + s.tokens.length, s.mark⟩

def allowSimpleKey (allowed : Bool) : ScanM ι Unit :=
  modify fun s => { s with simpleKeyAllowed := allowed }

/-! ## Tokens and indentation -/

/-- `ENQUEUE` on `parser.tokens`. -/
def enqueueToken (token : Token) : ScanM ι Unit :=
  modify fun s => { s with tokens := s.tokens ++ [token] }

/-- `QUEUE_INSERT` on `parser.tokens`, `number` tokens into the stream; outside the queue it writes
elsewhere. -/
def insertToken (number : Nat) (token : Token) : ScanM ι Unit := fun s =>
  if s.tokensParsed ≤ number ∧ number - s.tokensParsed ≤ s.tokens.length then
    .ok () { s with tokens := s.tokens.insertIdx (number - s.tokensParsed) token }
  else .error .undefined s

def maxInt : Nat := 2147483647

def increaseFlowLevel : ScanM ι Unit := do
  modify fun s => { s with simpleKeys := noSimpleKey :: s.simpleKeys }
  let s ← get
  if s.flowLevel = maxInt then throw (.reported .memory)
  else set { s with flowLevel := s.flowLevel + 1 }

def decreaseFlowLevel : ScanM ι Unit := fun s =>
  if s.flowLevel = 0 then .ok () s
  else
    match s.simpleKeys with
    | [] => .error .undefined { s with flowLevel := s.flowLevel - 1 }
    | _ :: below => .ok () { s with flowLevel := s.flowLevel - 1, simpleKeys := below }

/-- Outside flow collections, open a block at `column` when it lies deeper than the current one; its
token goes to the end of the queue, or where a simple key started. -/
def rollIndent (column : Nat) (number : Option Nat) (data : TokenData) (mark : Mark) :
    ScanM ι Unit := do
  let s ← get
  onlyIf (s.flowLevel = 0 && s.indent < (column : Int)) do
    set { s with indents := s.indent :: s.indents }
    if maxInt < column then throw (.reported .memory)
    else do
      modify fun s => { s with indent := column }
      match number with
      | none => enqueueToken ⟨data, mark, mark⟩
      | some number => insertToken number ⟨data, mark, mark⟩

/-- `parser.indent = POP(parser.indents)`; popping an empty stack reads outside it. -/
def popIndent : ScanM ι Unit := fun s =>
  match s.indents with
  | [] => .error .undefined s
  | indent :: below => .ok () { s with indent := indent, indents := below }

/-- Outside flow collections, close the blocks deeper than `column`. -/
def unrollIndent (column : Int) : ScanM ι Unit := do
  let s ← get
  onlyIf (s.flowLevel = 0)
    (loop .outOfFuel (fun _ => do
      let s ← get
      if column < s.indent then do
        enqueueToken ⟨.blockEnd, s.mark, s.mark⟩
        popIndent
        return .again ()
      else return .leave ()) (s.indents.length + 2) ())

/-! ## Fetching a token -/

def fetchStreamStart [Input ι] : ScanM ι Unit := do
  let s ← get
  set { s with
    indent := -1
    simpleKeys := noSimpleKey :: s.simpleKeys
    simpleKeyAllowed := true
    streamStartProduced := true }
  enqueueToken ⟨.streamStart (Input.encoding s.input), s.mark, s.mark⟩

def fetchStreamEnd : ScanM ι Unit := do
  modify fun s =>
    if s.mark.column = 0 then s else { s with mark := ⟨s.mark.index, s.mark.line + 1, 0⟩ }
  unrollIndent (-1)
  removeSimpleKey
  allowSimpleKey false
  let mark := (← get).mark
  enqueueToken ⟨.streamEnd, mark, mark⟩

section Input

variable [Input ι]

/-- Queue the token whose indicator is the next `n` characters. -/
def enqueueIndicator (n : Nat) (data : TokenData) : ScanM ι Unit := do
  let start ← getMark
  skips n
  let finish ← getMark
  enqueueToken ⟨data, start, finish⟩

def fetchDirective : ScanM ι Unit := do
  unrollIndent (-1)
  removeSimpleKey
  allowSimpleKey false
  let token ← scanDirective
  enqueueToken token

def fetchDocumentIndicator (data : TokenData) : ScanM ι Unit := do
  unrollIndent (-1)
  removeSimpleKey
  allowSimpleKey false
  enqueueIndicator 3 data

def fetchFlowCollectionStart (data : TokenData) : ScanM ι Unit := do
  saveSimpleKey
  increaseFlowLevel
  allowSimpleKey true
  enqueueIndicator 1 data

def fetchFlowCollectionEnd (data : TokenData) : ScanM ι Unit := do
  removeSimpleKey
  decreaseFlowLevel
  allowSimpleKey false
  enqueueIndicator 1 data

def fetchFlowEntry : ScanM ι Unit := do
  removeSimpleKey
  allowSimpleKey true
  enqueueIndicator 1 .flowEntry

/-- In the block context a block collection's indicator needs a place where a key could start, and
opens the collection if it is the first in it. -/
def startBlockCollection (problem : String) (data : TokenData) : ScanM ι Unit := do
  let s ← get
  onlyIf (s.flowLevel = 0) do
    onlyIf (!s.simpleKeyAllowed) (scannerError none s.mark problem)
    rollIndent s.mark.column none data s.mark

def fetchBlockEntry : ScanM ι Unit := do
  startBlockCollection "block sequence entries are not allowed in this context" .blockSequenceStart
  removeSimpleKey
  allowSimpleKey true
  enqueueIndicator 1 .blockEntry

def fetchKey : ScanM ι Unit := do
  startBlockCollection "mapping keys are not allowed in this context" .blockMappingStart
  removeSimpleKey
  let s ← get
  allowSimpleKey (s.flowLevel = 0)
  enqueueIndicator 1 .key

def fetchValue : ScanM ι Unit := do
  let key ← topSimpleKey
  if key.possible then do
    insertToken key.tokenNumber ⟨.key, key.mark, key.mark⟩
    rollIndent key.mark.column (some key.tokenNumber) .blockMappingStart key.mark
    setTopSimpleKey { key with possible := false }
    allowSimpleKey false
    enqueueIndicator 1 .value
  else do
    startBlockCollection "mapping values are not allowed in this context" .blockMappingStart
    let s ← get
    allowSimpleKey (s.flowLevel = 0)
    enqueueIndicator 1 .value

/-- Queue a token that may start a simple key. -/
def fetchNode (scan : ScanM ι Token) : ScanM ι Unit := do
  saveSimpleKey
  allowSimpleKey false
  let token ← scan
  enqueueToken token

def fetchAnchor (type : TokenType) : ScanM ι Unit := fetchNode (scanAnchor type)

def fetchTag : ScanM ι Unit := fetchNode scanTag

def fetchFlowScalar (single : Bool) : ScanM ι Unit := fetchNode (scanFlowScalar single)

def fetchPlainScalar : ScanM ι Unit := fetchNode scanPlainScalar

def fetchBlockScalar (literal : Bool) : ScanM ι Unit := do
  removeSimpleKey
  allowSimpleKey true
  let token ← scanBlockScalar literal
  enqueueToken token

/-! ## The next token -/

/-- Whether a tab may stand before a token. -/
def tabsSeparate : ScanM ι Bool := fun s => .ok (s.flowLevel ≠ 0 || !s.simpleKeyAllowed) s

/-- A byte order mark at the start of a line, then blanks and a comment. -/
def skipToText : ScanM ι Unit := do
  cache 1
  let mark ← getMark
  onlyIf (← look fun p => mark.column = 0 && isBom p) skip
  cache 1
  let tabs ← tabsSeparate
  skipWhile fun p => check p ' ' || (tabs && check p '\t')
  onlyIf (← look (check · '#')) (skipWhile (!isBreakz ·))

def scanToNextToken : ScanM ι Unit :=
  repeatedly (fun _ => do
    skipToText
    if ← look isBreak then do
      cache 2
      skipLine
      let flow ← inFlow
      onlyIf (!flow) (allowSimpleKey true)
      return .again ()
    else return .leave ()) ()

def isDocumentStart (p : View) : Bool :=
  checkAt p '-' 0 && checkAt p '-' 1 && checkAt p '-' 2 && isBlankzAt p 3

def isDocumentEnd (p : View) : Bool :=
  checkAt p '.' 0 && checkAt p '.' 1 && checkAt p '.' 2 && isBlankzAt p 3

/-- What cannot start a plain scalar, unless it is one of "-?:" before a character. -/
def isIndicator (p : View) : Bool :=
  isBlankz p || ['-', '?', ':', ',', '[', ']', '{', '}', '#', '&', '*', '!', '|', '>', '\'', '"',
    '%', '@', Char.ofNat 96].any (check p ·)

def startsPlainScalar (flow : Bool) (p : View) : Bool :=
  !isIndicator p || (check p '-' && !isBlankAt p 1)
    || (!flow && (check p '?' || check p ':') && !isBlankzAt p 1)

/-- The token that starts with the next character. -/
def fetchToken : ScanM ι Unit := do
  let flow ← inFlow
  let mark ← getMark
  let first : Bool := mark.column = 0
  if ← look isZ then fetchStreamEnd
  else if ← look (fun p => first && check p '%') then fetchDirective
  else if ← look (fun p => first && isDocumentStart p) then fetchDocumentIndicator .documentStart
  else if ← look (fun p => first && isDocumentEnd p) then fetchDocumentIndicator .documentEnd
  else if ← look (check · '[') then fetchFlowCollectionStart .flowSequenceStart
  else if ← look (check · '{') then fetchFlowCollectionStart .flowMappingStart
  else if ← look (check · ']') then fetchFlowCollectionEnd .flowSequenceEnd
  else if ← look (check · '}') then fetchFlowCollectionEnd .flowMappingEnd
  else if ← look (check · ',') then fetchFlowEntry
  else if ← look (fun p => check p '-' && isBlankzAt p 1) then fetchBlockEntry
  else if ← look (fun p => check p '?' && (flow || isBlankzAt p 1)) then fetchKey
  else if ← look (fun p => check p ':' && (flow || isBlankzAt p 1)) then fetchValue
  else if ← look (check · '*') then fetchAnchor .alias
  else if ← look (check · '&') then fetchAnchor .anchor
  else if ← look (check · '!') then fetchTag
  else if ← look (fun p => check p '|' && !flow) then fetchBlockScalar true
  else if ← look (fun p => check p '>' && !flow) then fetchBlockScalar false
  else if ← look (check · '\'') then fetchFlowScalar true
  else if ← look (check · '"') then fetchFlowScalar false
  else if ← look (startsPlainScalar flow) then fetchPlainScalar
  else
    scannerError (some "while scanning for the next token") mark
      "found character that cannot start any token"

def fetchNextToken : ScanM ι Unit := do
  cache 1
  let s ← get
  if s.streamStartProduced then do
    scanToNextToken
    staleSimpleKeys
    let s ← get
    unrollIndent s.mark.column
    cache 4
    fetchToken
  else fetchStreamStart

/-- Whether the head of the queue may still get a KEY token in front of it. -/
def needMoreTokens (s : Scanner ι) : Bool :=
  s.simpleKeys.any fun key => key.possible && key.tokenNumber = s.tokensParsed

def fetchMoreTokens : ScanM ι Unit := do
  let s ← get
  loop .outOfFuel (fun _ => do
    let s ← get
    if s.tokens.isEmpty then do
      fetchNextToken
      return .again ()
    else do
      staleSimpleKeys
      let s ← get
      if needMoreTokens s then do
        fetchNextToken
        return .again ()
      else return .leave ()) (Input.size s.input + 4) ()
  modify fun s => { s with tokenAvailable := true }

/-- `DEQUEUE` on `parser.tokens`; an empty queue reads outside it. -/
def dequeueToken : ScanM ι Token := fun s =>
  match s.tokens with
  | [] => .error .undefined s
  | token :: rest => .ok token { s with tokens := rest }

def emptyToken : Token := ⟨.noToken, .zero, .zero⟩

/-- The body of `yaml_parser_scan_impl` behind its checks. -/
def scanToken : ScanM ι Token := do
  let s ← get
  onlyIf (!s.tokenAvailable) fetchMoreTokens
  let token ← dequeueToken
  modify fun s => { s with
    tokenAvailable := false
    tokensParsed := s.tokensParsed + 1
    streamEndProduced := s.streamEndProduced || token.type = .streamEnd }
  return token

/-- `yaml_parser_scan`: nothing more is delivered after the end of the stream or an error. -/
def scan (s : Scanner ι) : EStateM.Result Fault (Scanner ι) Token :=
  if s.streamEndProduced = true ∨ s.error.isSome = true then .ok emptyToken s
  else
    match scanToken s with
    | .ok token s' => .ok token s'
    | .error (.reported problem) s' => .error (.reported problem) { s' with error := some problem }
    | .error fault s' => .error fault s'

/-- A freshly initialised scanner. -/
def init (input : ι) : Scanner ι := { input := input }

end Input

end Scanner

/-- The scanner as the parser uses it: `peek_token` gives up, without a word, where the queue has no
token. -/
instance {ι : Type} [Input ι] : TokenSource (Scanner ι) where
  peek s :=
    match Fallible.onlyIf (!s.tokenAvailable) Scanner.fetchMoreTokens s with
    | .ok _ t =>
      match t.tokens with
      | [] => .error .silent t
      | token :: _ => .ok token t
    | .error fault t => .error fault t
  head s := s.tokens.head?
  skip s := { s with
    tokenAvailable := false
    tokensParsed := s.tokensParsed + 1
    streamEndProduced := s.tokens.head?.any (·.type = .streamEnd)
    tokens := s.tokens.tail }

end LibYaml
