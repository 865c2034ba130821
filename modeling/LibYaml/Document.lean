import LibYaml.Types

/-!
# Documents

`yaml_document_t`: a list of nodes that refer to each other by their position, which counts from 1.
The first node is the root.  A document may share nodes and have cycles.
-/

namespace LibYaml

inductive NodeData
  | scalar (value : Bytes) (style : ScalarStyle)
  | sequence (items : List Nat) (style : SequenceStyle)
  | mapping (pairs : List (Nat × Nat)) (style : MappingStyle)
deriving DecidableEq, Repr

structure Node where
  tag : Bytes
  data : NodeData
  startMark : Mark
  endMark : Mark
deriving DecidableEq, Repr

structure Document where
  nodes : List Node := []
  versionDirective : Option VersionDirective := none
  tagDirectives : List TagDirective := []
  startImplicit : Bool := false
  endImplicit : Bool := false
  startMark : Mark := .zero
  endMark : Mark := .zero
deriving DecidableEq, Repr

def tagPrefix : Bytes := ascii ['t', 'a', 'g', ':', 'y', 'a', 'm', 'l', '.', 'o', 'r', 'g', ',',
  '2', '0', '0', '2', ':']

def defaultScalarTag : Bytes := tagPrefix ++ ascii ['s', 't', 'r']

def defaultSequenceTag : Bytes := tagPrefix ++ ascii ['s', 'e', 'q']

def defaultMappingTag : Bytes := tagPrefix ++ ascii ['m', 'a', 'p']

/-- The entries of a stack that an index can count, `STACK_LIMIT_SIZE`. -/
def stackLimit : Nat := 2 ^ 31 - 2

namespace NodeData

/-- What a node refers to, in order. -/
def children : NodeData → List Nat
  | .scalar _ _ => []
  | .sequence items _ => items
  | .mapping pairs _ => pairs.flatMap fun p => [p.1, p.2]

end NodeData

namespace Document

/-- The node at a position. -/
def node? (d : Document) (index : Nat) : Option Node :=
  if index = 0 then none else d.nodes[index - 1]?

def children (d : Document) (index : Nat) : List Nat :=
  ((d.node? index).map fun n => n.data.children).getD []

/-- The index of a node. -/
def Has (d : Document) (i : Nat) : Prop := 0 < i ∧ i ≤ d.nodes.length

theorem Has.node {d : Document} {i : Nat} (h : d.Has i) :
    ∃ node, d.node? i = some node ∧ node ∈ d.nodes := by
  obtain ⟨hpos, hle⟩ := h
  have hlt : i - 1 < d.nodes.length := by omega
  refine ⟨d.nodes[i - 1], ?_, List.getElem_mem hlt⟩
  rw [node?, if_neg (by omega), List.getElem?_eq_getElem hlt]

/-- The nodes refer to nodes. -/
def Closed (d : Document) : Prop := ∀ node ∈ d.nodes, ∀ i ∈ node.data.children, d.Has i

theorem Closed.has_of_mem {d : Document} (h : d.Closed) {i j : Nat} (hi : d.Has i)
    (hj : j ∈ d.children i) : d.Has j := by
  obtain ⟨node, hn, hm⟩ := hi.node
  exact h node hm j (by simpa [Document.children, hn] using hj)

/-- The nodes refer to nodes, none is tagged `!`, and every stack is one that the library can
have filled. -/
structure Valid (d : Document) : Prop where
  children : ∀ node ∈ d.nodes, ∀ i ∈ node.data.children, d.Has i
  tag : ∀ node ∈ d.nodes, cstr node.tag ≠ [0x21]
  nodes_le : d.nodes.length ≤ stackLimit
  items_le : ∀ node ∈ d.nodes, ∀ items style, node.data = .sequence items style →
    items.length ≤ stackLimit
  pairs_le : ∀ node ∈ d.nodes, ∀ pairs style, node.data = .mapping pairs style →
    pairs.length ≤ stackLimit

theorem Valid.closed {d : Document} (h : d.Valid) : d.Closed := h.children

end Document

end LibYaml
