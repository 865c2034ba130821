import LibYaml.Document
import LibYaml.Fallible
import Mathlib.Data.List.Basic

/-!
# The loader

`yaml_parser_load` builds a document from the events of the parser: a node for each event that
starts one, in that order, and a stack of the collections that are still open.
-/

namespace LibYaml

/-- What the loader takes events from: `next` is `yaml_parser_parse`, and `setError` records a
problem in the parser. -/
class EventSource (σ : Type) where
  next : EStateM Fault σ Event
  setError : Problem → σ → σ
  streamStartProduced : σ → Bool
  streamEndProduced : σ → Bool

/-- A list of events, which deliver nothing once they have all been taken. -/
structure EventList where
  events : List Event
  streamStartProduced : Bool := false
  streamEndProduced : Bool := false

instance : EventSource EventList where
  next s := match s.events with
    | [] => .ok Event.empty s
    | e :: es => .ok e { s with
        events := es
        streamStartProduced := s.streamStartProduced || e.type = .streamStart
        streamEndProduced := s.streamEndProduced || e.type = .streamEnd }
  setError _ s := { s with events := [] }
  streamStartProduced s := s.streamStartProduced
  streamEndProduced s := s.streamEndProduced

/-- `yaml_alias_data_t` -/
structure AliasData where
  anchor : Bytes
  index : Nat
  mark : Mark
deriving DecidableEq, Repr

/-- The part of `yaml_parser_t` that loading reads and writes, with the open collections, innermost
first. -/
structure Loader (σ : Type) where
  source : σ
  aliases : List AliasData := []
  document : Document := {}
  ctx : List Nat := []

namespace Loader

variable {σ : Type}

abbrev LoadM (σ : Type) := EStateM Fault (Loader σ)

def composerError (problem : String) (problemMark : Mark) : Fault :=
  .reported (.composer none problem problemMark)

def composerErrorContext (context : String) (contextMark : Mark) (problem : String)
    (problemMark : Mark) : Fault :=
  .reported (.composer (some (context, contextMark)) problem problemMark)

def bangTag : Bytes := [0x21]

/-- The tag of a node whose event has `tag`. -/
def resolvedTag (tag : Option Bytes) (default : Bytes) : Bytes :=
  match tag with
  | none => default
  | some tag => if cstr tag = bangTag then default else tag

def checkStackLimit (length : Nat) : LoadM σ Unit :=
  if length < stackLimit then pure () else throw (.reported .memory)

/-- Append a node to the document; its index is returned. -/
def pushNode (node : Node) : LoadM σ Nat := fun s =>
  .ok (s.document.nodes.length + 1)
    { s with document := { s.document with nodes := s.document.nodes ++ [node] } }

def setNode (index : Nat) (node : Node) : LoadM σ Unit :=
  modify fun s =>
    { s with document := { s.document with nodes := s.document.nodes.set (index - 1) node } }

/-- The node at an index of the document; another index reads outside its nodes. -/
def getNode (index : Nat) : LoadM σ Node := fun s =>
  match s.document.node? index with
  | some node => .ok node s
  | none => .error .undefined s

def registerAnchor (index : Nat) : Option Bytes → LoadM σ Unit
  | none => pure ()
  | some anchor => do
    let node ← getNode index
    let s ← get
    match s.aliases.find? fun d => cstr d.anchor = cstr anchor with
    | some d => throw (composerErrorContext "found duplicate anchor; first occurrence" d.mark
        "second occurrence" node.startMark)
    | none =>
      modify fun s => { s with aliases := s.aliases ++ [⟨anchor, index, node.startMark⟩] }

/-- The pairs of a mapping once it has one more node: the value of the last pair if that has a key
only, the key of a new pair otherwise. -/
def addToPairs (pairs : List (Nat × Nat)) (index : Nat) : List (Nat × Nat) :=
  match pairs.getLast? with
  | some (key, value) =>
    if key ≠ 0 ∧ value = 0 then pairs.dropLast ++ [(key, index)] else pairs ++ [(index, 0)]
  | none => [(index, 0)]

/-- Whether the last pair of a mapping has a key only. -/
def awaitsValue (pairs : List (Nat × Nat)) : Bool :=
  pairs.getLast?.any fun pair => pair.1 ≠ 0 ∧ pair.2 = 0

theorem awaitsValue_append (pairs : List (Nat × Nat)) (pair : Nat × Nat) :
    awaitsValue (pairs ++ [pair]) = decide (pair.1 ≠ 0 ∧ pair.2 = 0) := by
  simp [awaitsValue]

theorem addToPairs_of_awaits {pairs : List (Nat × Nat)} (h : awaitsValue pairs = true) :
    ∃ rest key, pairs = rest ++ [(key, 0)] ∧ key ≠ 0 ∧
      ∀ index, addToPairs pairs index = rest ++ [(key, index)] := by
  rcases List.eq_nil_or_concat pairs with rfl | ⟨rest, ⟨key, value⟩, rfl⟩
  · simp [awaitsValue] at h
  · rw [List.concat_eq_append] at h ⊢
    rw [awaitsValue_append] at h
    obtain ⟨hk, rfl⟩ : key ≠ 0 ∧ value = 0 := by simpa using h
    exact ⟨rest, key, rfl, hk, fun index => by simp [addToPairs, hk]⟩

theorem addToPairs_of_not_awaits {pairs : List (Nat × Nat)} (h : awaitsValue pairs = false)
    (index : Nat) : addToPairs pairs index = pairs ++ [(index, 0)] := by
  rcases List.eq_nil_or_concat pairs with rfl | ⟨rest, ⟨key, value⟩, rfl⟩
  · rfl
  · rw [List.concat_eq_append] at h ⊢
    rw [awaitsValue_append] at h
    have : ¬(key ≠ 0 ∧ value = 0) := by simpa using h
    simp [addToPairs, this]

/-- Make the node at `index` a part of the innermost open collection. -/
def loadNodeAdd (index : Nat) : LoadM σ Unit := do
  let s ← get
  match s.ctx with
  | [] => pure ()
  | parentIndex :: _ => do
    let parent ← getNode parentIndex
    match parent.data with
    | .scalar _ _ => throw .silent
    | .sequence items style => do
      checkStackLimit items.length
      setNode parentIndex { parent with data := .sequence (items ++ [index]) style }
    | .mapping pairs style => do
      if awaitsValue pairs then pure () else checkStackLimit pairs.length
      setNode parentIndex { parent with data := .mapping (addToPairs pairs index) style }

def loadAlias (anchor : Bytes) (startMark : Mark) : LoadM σ Unit := do
  let s ← get
  match s.aliases.find? fun d => cstr d.anchor = cstr anchor with
  | some d => loadNodeAdd d.index
  | none => throw (composerError "found undefined alias" startMark)

/-- What a scalar, a sequence and a mapping have in common. -/
def addNode (anchor : Option Bytes) (node : Node) : LoadM σ Nat := do
  let s ← get
  checkStackLimit s.document.nodes.length
  let index ← pushNode node
  registerAnchor index anchor
  loadNodeAdd index
  return index

/-- Open a collection. -/
def pushContext (index : Nat) : LoadM σ Unit := do
  let s ← get
  checkStackLimit s.ctx.length
  modify fun s => { s with ctx := index :: s.ctx }

def loadScalar (event : Event) (anchor tag : Option Bytes) (value : Bytes) (style : ScalarStyle) :
    LoadM σ Unit := do
  let _ ← addNode anchor
    ⟨resolvedTag tag defaultScalarTag, .scalar value style, event.startMark, event.endMark⟩

def loadSequence (event : Event) (anchor tag : Option Bytes) (style : SequenceStyle) :
    LoadM σ Unit := do
  let index ← addNode anchor
    ⟨resolvedTag tag defaultSequenceTag, .sequence [] style, event.startMark, event.endMark⟩
  pushContext index

def loadMapping (event : Event) (anchor tag : Option Bytes) (style : MappingStyle) :
    LoadM σ Unit := do
  let index ← addNode anchor
    ⟨resolvedTag tag defaultMappingTag, .mapping [] style, event.startMark, event.endMark⟩
  pushContext index

def isSequence : NodeData → Bool
  | .sequence _ _ => true
  | _ => false

def isMapping : NodeData → Bool
  | .mapping _ _ => true
  | _ => false

/-- Close the innermost open collection, which must be of the right kind. -/
def closeContext (kind : NodeData → Bool) (endMark : Mark) : LoadM σ Unit := do
  let s ← get
  match s.ctx with
  | [] => throw .silent
  | index :: rest => do
    let node ← getNode index
    if kind node.data then do
      setNode index { node with endMark := endMark }
      modify fun s => { s with ctx := rest }
    else throw .silent

def loadSequenceEnd (event : Event) : LoadM σ Unit := closeContext isSequence event.endMark

def loadMappingEnd (event : Event) : LoadM σ Unit := closeContext isMapping event.endMark

/-- What one event adds to the document. -/
def loadEvent (event : Event) : LoadM σ Unit :=
  match event.data with
  | .alias anchor => loadAlias anchor event.startMark
  | .scalar anchor tag value _ _ style => loadScalar event anchor tag value style
  | .sequenceStart anchor tag _ style => loadSequence event anchor tag style
  | .sequenceEnd => loadSequenceEnd event
  | .mappingStart anchor tag _ style => loadMapping event anchor tag style
  | .mappingEnd => loadMappingEnd event
  | _ => throw .silent

section Source

variable [EventSource σ]

def next : LoadM σ Event := fun s =>
  match EventSource.next s.source with
  | .ok event source => .ok event { s with source := source }
  | .error fault source => .error fault { s with source := source }

def loadNodes : Nat → LoadM σ Unit
  | 0 => throw .outOfFuel
  | fuel + 1 => do
    let event ← next
    match event.data with
    | .documentEnd implicit =>
      modify fun s =>
        { s with document := { s.document with endImplicit := implicit, endMark := event.endMark } }
    | _ => do
      loadEvent event
      loadNodes fuel

def loadDocument (fuel : Nat) (event : Event) : LoadM σ Unit := do
  match event.data with
  | .documentStart version directives implicit => modify fun s => { s with
      document := { s.document with
        versionDirective := version, tagDirectives := directives, startImplicit := implicit,
        startMark := event.startMark }
      ctx := [] }
  | .noEvent => modify fun s => { s with ctx := [] }
  -- The event's data is read as that of the start of a document, whatever it is.
  | _ => throw .undefined
  loadNodes fuel

/-- What `yaml_parser_load` does before it cleans up. -/
def loadStream (fuel : Nat) : LoadM σ Unit := do
  modify fun s => { s with document := {} }
  let s ← get
  if EventSource.streamStartProduced s.source then pure () else do
    let _ ← next
  let s ← get
  if EventSource.streamEndProduced s.source then pure ()
  else do
    let event ← next
    if event.type = .streamEnd then pure ()
    else do
      modify fun s => { s with aliases := [] }
      loadDocument fuel event
      modify fun s => { s with aliases := [] }

/-- The problem is recorded where it is met; nothing looks at it before the call returns. -/
def recordError (fault : Fault) (s : Loader σ) : Loader σ :=
  match fault with
  | .reported problem => { s with source := EventSource.setError problem s.source }
  | _ => s

/-- `yaml_parser_load`: when it fails, the document is deleted. -/
def load (fuel : Nat) : LoadM σ Unit := fun s =>
  match loadStream fuel s with
  | .ok _ s' => .ok () s'
  | .error fault s' => .error fault { recordError fault s' with document := {}, aliases := [] }

end Source

end Loader

end LibYaml
