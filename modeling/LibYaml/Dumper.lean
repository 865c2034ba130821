import LibYaml.Document
import LibYaml.Fallible
import Mathlib.Data.Nat.Digits.Defs

/-!
# The dumper

`yaml_emitter_dump` turns a document into events: it counts the references to each node it can
reach, gives those with more than one an anchor, and delivers each node where it first comes to it
and an alias wherever it comes to it again.
-/

namespace LibYaml

/-- What the dumper delivers events to: `emit` is `yaml_emitter_emit`. -/
class EventSink (σ : Type) where
  emit : Event → EStateM Fault σ Unit

instance : EventSink (List Event) where
  emit e s := .ok () (s ++ [e])

/-- `yaml_anchors_t`; the counters have no bound here. -/
structure Anchors where
  references : Nat := 0
  anchor : Nat := 0
  serialized : Bool := false
deriving DecidableEq, Repr

structure Dumper (σ : Type) where
  sink : σ
  opened : Bool := false
  closed : Bool := false
  anchors : List Anchors := []
  lastAnchorId : Nat := 0
  document : Option Document := none

namespace Dumper

open Fallible

variable {σ : Type}

abbrev DumpM (σ : Type) := EStateM Fault (Dumper σ)

/-- The node at an index of the document and what is known about it; another index reads outside
both arrays. -/
def lookup (index : Nat) : DumpM σ (Node × Anchors) := fun s =>
  match s.document.bind (·.node? index), s.anchors[index - 1]? with
  | some node, some a => .ok (node, a) s
  | _, _ => .error .undefined s

def setAnchors (index : Nat) (a : Anchors) : DumpM σ Unit :=
  modify fun s => { s with anchors := s.anchors.set (index - 1) a }

/-- Count a reference; the second gives the node an anchor. -/
def reference (index : Nat) (a : Anchors) : DumpM σ Unit := fun s =>
  if a.references + 1 = 2 then
    .ok () { s with
      lastAnchorId := s.lastAnchorId + 1
      anchors := s.anchors.set (index - 1)
        { a with references := a.references + 1, anchor := s.lastAnchorId + 1 } }
  else
    .ok () { s with
      anchors := s.anchors.set (index - 1) { a with references := a.references + 1 } }

def anchorNode : Nat → Nat → DumpM σ Unit
  | 0, _ => throw .outOfFuel
  | fuel + 1, index => do
    let s ← get
    if s.document.isNone ∨ index = 0 then pure ()
    else do
      let (node, a) ← lookup index
      reference index a
      if a.references + 1 = 1 then
        match node.data with
        | .scalar _ _ => pure ()
        | .sequence items _ => items.forM (anchorNode fuel)
        | .mapping pairs _ => pairs.forM fun pair => do
          anchorNode fuel pair.1
          anchorNode fuel pair.2
      else pure ()

/-- The digit of a number below 10. -/
def digit (n : Nat) : UInt8 := 0x30 + n.toUInt8

/-- `format!("id{anchor_id:03}")` -/
def generateAnchor (anchorId : Nat) : Bytes :=
  let digits := Nat.digits 10 anchorId
  [0x69, 0x64] ++ (digits ++ List.replicate (3 - digits.length) 0).reverse.map digit

/-- The anchor of a node whose anchor id is `anchorId`. -/
def anchorText (anchorId : Nat) : Option Bytes :=
  if anchorId ≠ 0 then some (generateAnchor anchorId) else none

section Sink

variable [EventSink σ]

def emit (data : EventData) : DumpM σ Unit := fun s =>
  match EventSink.emit ⟨data, .zero, .zero⟩ s.sink with
  | .ok _ sink => .ok () { s with sink := sink }
  | .error fault sink => .error fault { s with sink := sink }

def dumpAlias : Option Bytes → DumpM σ Unit
  | some anchor => emit (.alias anchor)
  | none => throw .undefined

def dumpScalar (node : Node) (value : Bytes) (style : ScalarStyle) (anchor : Option Bytes) :
    DumpM σ Unit :=
  let implicit := cstr node.tag = defaultScalarTag
  emit (.scalar anchor (some node.tag) value implicit implicit style)

/-- A sequence, whose items are dumped with `dumpChild`. -/
def dumpSequence (dumpChild : Nat → DumpM σ Unit) (node : Node) (items : List Nat)
    (style : SequenceStyle) (anchor : Option Bytes) : DumpM σ Unit := do
  emit (.sequenceStart anchor (some node.tag) (cstr node.tag = defaultSequenceTag) style)
  items.forM dumpChild
  emit .sequenceEnd

def dumpMapping (dumpChild : Nat → DumpM σ Unit) (node : Node) (pairs : List (Nat × Nat))
    (style : MappingStyle) (anchor : Option Bytes) : DumpM σ Unit := do
  emit (.mappingStart anchor (some node.tag) (cstr node.tag = defaultMappingTag) style)
  pairs.forM fun pair => do
    dumpChild pair.1
    dumpChild pair.2
  emit .mappingEnd

def dumpNode : Nat → Nat → DumpM σ Unit
  | 0, _ => throw .outOfFuel
  | fuel + 1, index => do
    let (node, a) ← lookup index
    let anchor := anchorText a.anchor
    if a.serialized then dumpAlias anchor
    else do
      setAnchors index { a with serialized := true }
      match node.data with
      | .scalar value style => dumpScalar node value style anchor
      | .sequence items style => dumpSequence (dumpNode fuel) node items style anchor
      | .mapping pairs style => dumpMapping (dumpNode fuel) node pairs style anchor

/-- `yaml_emitter_open` -/
def openStream : DumpM σ Unit := do
  let s ← get
  if s.opened then throw .silent
  else do
    emit (.streamStart .any)
    modify fun s => { s with opened := true }

/-- `yaml_emitter_close` -/
def closeStream : DumpM σ Unit := do
  let s ← get
  if ¬s.opened then throw .silent
  else if s.closed then pure ()
  else do
    emit .streamEnd
    modify fun s => { s with closed := true }

/-- `yaml_emitter_delete_document_and_anchors` -/
def deleteDocumentAndAnchors (s : Dumper σ) : Dumper σ :=
  { s with document := none, anchors := [], lastAnchorId := 0 }

/-- What `yaml_emitter_dump` does before it cleans up. -/
def dumpDocument (fuel : Nat) (document : Document) : DumpM σ Unit := do
  modify fun s => { s with document := some document }
  let s ← get
  if s.opened then pure () else openStream
  if document.nodes = [] then closeStream
  else do
    modify fun s => { s with anchors := List.replicate document.nodes.length {} }
    emit (.documentStart document.versionDirective document.tagDirectives document.startImplicit)
    anchorNode fuel 1
    dumpNode fuel 1
    emit (.documentEnd document.endImplicit)

/-- `yaml_emitter_dump`: however it ends, the document is deleted. -/
def dump (fuel : Nat) (document : Document) : DumpM σ Unit := fun s =>
  match dumpDocument fuel document s with
  | .ok _ s' => .ok () (deleteDocumentAndAnchors s')
  | .error fault s' => .error fault (deleteDocumentAndAnchors s')

end Sink

end Dumper

end LibYaml
