import LibYaml.Document
import LibYaml.Fallible
import LibYaml.Reader.Decoding

/-!
# Building a document

The calls that build a document by hand.  They take integers for indices, as the C interface does,
and any of them may fail: an argument is refused, a stack cannot grow, or memory runs out.  Which
allocations succeed is a part of the state.
-/

namespace LibYaml

/-- A document and whether the next allocations succeed, in order; those not listed do. -/
structure Building where
  document : Document := {}
  allocations : List Bool := []

namespace Building

open Fallible

/-- A call that fails returns 0 and records nothing. -/
abbrev BuildM := EStateM Unit Building

def allocate : BuildM Unit := fun s =>
  match s.allocations with
  | [] => .ok () s
  | true :: rest => .ok () { s with allocations := rest }
  | false :: rest => .error () { s with allocations := rest }

/-- `size_of::<yaml_node_t>()` -/
def nodeSize : Nat := 96

def itemSize : Nat := 4

def pairSize : Nat := 8

def tagDirectiveSize : Nat := 16

/-- Whether a stack has no room behind that many entries: its capacity is 16 at first and doubles,
and entries are never taken off. -/
def isFull (length : Nat) : Bool := length = 16 * 2 ^ (length / 16).log2

/-- What `PUSH` does before it writes: a stack of half the largest `c_int` bytes grows no more. -/
def makeRoom (length size : Nat) : BuildM Unit :=
  if isFull length then
    if (2 ^ 31 - 1) / 2 ≤ length * size then throw () else allocate
  else pure ()

def duplicateUtf8CString (input : Bytes) : BuildM Bytes := do
  if checkUtf8 (cstr input) then do
    allocate
    return cstr input
  else throw ()

/-- A negative length is cast to one that cannot be allocated. -/
def duplicateScalarValue (value : Bytes) (length : Int) : BuildM Bytes := do
  if 0 ≤ length ∧ checkUtf8 (value.take length.toNat) then do
    allocate
    return value.take length.toNat
  else throw ()

def lookupNode (d : Document) (index : Int) : Option Node :=
  if index ≤ 0 then none
  else if (d.nodes.length : Int) < index then none
  else d.nodes[index.toNat - 1]?

/-- The loop over the tag directives; a null handle or prefix is refused. -/
def copyTagDirectives : List (Option Bytes × Option Bytes) → List TagDirective →
    BuildM (List TagDirective)
  | [], copied => pure copied
  | (some handle, some prefixText) :: rest, copied => do
    let handleCopy ← duplicateUtf8CString handle
    let prefixCopy ← duplicateUtf8CString prefixText
    makeRoom copied.length tagDirectiveSize
    copyTagDirectives rest (copied ++ [⟨handleCopy, prefixCopy⟩])
  | _ :: _, _ => throw ()

/-- `yaml_document_initialize`; `tagDirectives` are those from the start pointer to the end pointer,
`none` where it is null. -/
def initializeDocument (version : Option VersionDirective)
    (tagDirectives : Option (List (Option Bytes × Option Bytes))) (endIsNull : Bool)
    (startImplicit endImplicit : Bool) : BuildM Int := do
  if tagDirectives.isNone ≠ endIsNull then throw ()
  else do
    allocate
    onlyIf version.isSome allocate
    onlyIf (tagDirectives.getD [] ≠ []) allocate
    let copied ← copyTagDirectives (tagDirectives.getD []) []
    modify fun s => { s with document := {
      versionDirective := version
      tagDirectives := copied
      startImplicit := startImplicit
      endImplicit := endImplicit } }
    return 1

/-- `PUSH` on `document.nodes`; the count of nodes is returned. -/
def pushNode (node : Node) : BuildM Int := do
  let s ← get
  makeRoom s.document.nodes.length nodeSize
  modify fun s => { s with document := { s.document with nodes := s.document.nodes ++ [node] } }
  return cInt (s.document.nodes.length + 1)

/-- `yaml_document_add_scalar`: a negative length is that of a C string. -/
def addScalar (tag value : Option Bytes) (length : Int) (style : ScalarStyle) : BuildM Int := do
  match value with
  | none => throw ()
  | some value => do
    let tagCopy ← duplicateUtf8CString (tag.getD defaultScalarTag)
    let length := if length < 0 then cInt (cstr value).length else length
    let valueCopy ← duplicateScalarValue value length
    pushNode ⟨tagCopy, .scalar valueCopy style, .zero, .zero⟩

/-- `yaml_document_add_sequence` -/
def addSequence (tag : Option Bytes) (style : SequenceStyle) : BuildM Int := do
  let tagCopy ← duplicateUtf8CString (tag.getD defaultSequenceTag)
  allocate
  pushNode ⟨tagCopy, .sequence [] style, .zero, .zero⟩

/-- `yaml_document_add_mapping` -/
def addMapping (tag : Option Bytes) (style : MappingStyle) : BuildM Int := do
  let tagCopy ← duplicateUtf8CString (tag.getD defaultMappingTag)
  allocate
  pushNode ⟨tagCopy, .mapping [] style, .zero, .zero⟩

/-- The data of a node that `lookup_node` has found. -/
def setData (index : Int) (data : NodeData) : BuildM Unit := modify fun s =>
  { s with document := { s.document with
      nodes := s.document.nodes.modify (index.toNat - 1) fun node => { node with data := data } } }

/-- `yaml_document_append_sequence_item` -/
def appendSequenceItem (sequence item : Int) : BuildM Int := do
  let s ← get
  match (lookupNode s.document sequence).map Node.data with
  | some (.sequence items style) =>
    if (lookupNode s.document item).isNone then throw ()
    else do
      makeRoom items.length itemSize
      setData sequence (.sequence (items ++ [item.toNat]) style)
      return 1
  | _ => throw ()

/-- `yaml_document_append_mapping_pair` -/
def appendMappingPair (mapping key value : Int) : BuildM Int := do
  let s ← get
  match (lookupNode s.document mapping).map Node.data with
  | some (.mapping pairs style) =>
    if (lookupNode s.document key).isNone ∨ (lookupNode s.document value).isNone then throw ()
    else do
      makeRoom pairs.length pairSize
      setData mapping (.mapping (pairs ++ [(key.toNat, value.toNat)]) style)
      return 1
  | _ => throw ()

inductive Call
  | initializeDocument (version : Option VersionDirective)
      (tagDirectives : Option (List (Option Bytes × Option Bytes))) (endIsNull : Bool)
      (startImplicit endImplicit : Bool)
  | addScalar (tag value : Option Bytes) (length : Int) (style : ScalarStyle)
  | addSequence (tag : Option Bytes) (style : SequenceStyle)
  | addMapping (tag : Option Bytes) (style : MappingStyle)
  | appendSequenceItem (sequence item : Int)
  | appendMappingPair (mapping key value : Int)

def perform : Call → BuildM Int
  | .initializeDocument version tagDirectives endIsNull startImplicit endImplicit =>
    Building.initializeDocument version tagDirectives endIsNull startImplicit endImplicit
  | .addScalar tag value length style => Building.addScalar tag value length style
  | .addSequence tag style => Building.addSequence tag style
  | .addMapping tag style => Building.addMapping tag style
  | .appendSequenceItem sequence item => Building.appendSequenceItem sequence item
  | .appendMappingPair mapping key value => Building.appendMappingPair mapping key value

/-- The document and the memory after a call, whatever became of it. -/
def after (c : Call) (s : Building) : Building :=
  match perform c s with
  | .ok _ t => t
  | .error _ t => t

end Building

end LibYaml
