import LibYaml.Types
import Mathlib.Data.List.Count

/-!
# The token grammar

The grammar in the header of `parser.c`, over the types of the tokens, with the entries of a
block mapping read as `KEY node? (VALUE node?)?`.  It has one more parameter, how a single pair of a
flow sequence is read when its key has no node: as `documented`, as the `code` reads it, which
takes the token behind the `KEY` for a part of the pair, or only where the two agree (`common`).
-/

namespace LibYaml

namespace TokenGrammar

/-- `block_node`, `block_node_or_indentless_sequence` and `flow_node`. -/
inductive NodeKind
  | block | blockOrIndentless | flow
deriving DecidableEq

inductive FlowKind
  | sequence | mapping
deriving DecidableEq

namespace FlowKind

def opening : FlowKind → TokenType
  | .sequence => .flowSequenceStart
  | .mapping => .flowMappingStart

def closing : FlowKind → TokenType
  | .sequence => .flowSequenceEnd
  | .mapping => .flowMappingEnd

end FlowKind

inductive Reading
  | documented | code | common
deriving DecidableEq

/-- `properties ::= TAG ANCHOR? | ANCHOR TAG?` -/
inductive Properties : List TokenType → Prop
  | tag : Properties [.tag]
  | tagAnchor : Properties [.tag, .anchor]
  | anchor : Properties [.anchor]
  | anchorTag : Properties [.anchor, .tag]

mutual

inductive Node (r : Reading) : NodeKind → List TokenType → Prop
  | alias (k : NodeKind) : Node r k [.alias]
  | properties (k : NodeKind) {p : List TokenType} : Properties p → Node r k p
  | content {k : NodeKind} {w : List TokenType} : Content r k w → Node r k w
  | propertiesContent {k : NodeKind} {p w : List TokenType} : Properties p → Content r k w →
      Node r k (p ++ w)

/-- `block_content` or `flow_content`, or an `indentless_sequence` where one is allowed. -/
inductive Content (r : Reading) : NodeKind → List TokenType → Prop
  | scalar (k : NodeKind) : Content r k [.scalar]
  | flow (k : NodeKind) {s : FlowKind} {w : List TokenType} : FlowEntries r s w →
      Content r k (s.opening :: w ++ [s.closing])
  | blockSequence {k : NodeKind} {w : List TokenType} : k ≠ .flow → BlockEntries r w →
      Content r k (.blockSequenceStart :: w ++ [.blockEnd])
  | blockMapping {k : NodeKind} {w : List TokenType} : k ≠ .flow → BlockPairs r w →
      Content r k (.blockMappingStart :: w ++ [.blockEnd])
  | indentless {u v : List TokenType} : OptNode r .block u → BlockEntries r v →
      Content r .blockOrIndentless (.blockEntry :: u ++ v)

/-- `(BLOCK-ENTRY block_node?)*` -/
inductive BlockEntries (r : Reading) : List TokenType → Prop
  | nil : BlockEntries r []
  | cons {u v : List TokenType} : OptNode r .block u → BlockEntries r v →
      BlockEntries r (.blockEntry :: u ++ v)

/-- `(KEY block_node_or_indentless_sequence? (VALUE block_node_or_indentless_sequence?)?)*` -/
inductive BlockPairs (r : Reading) : List TokenType → Prop
  | nil : BlockPairs r []
  | cons {u v w : List TokenType} : OptNode r .blockOrIndentless u →
      OptValue r .blockOrIndentless v → BlockPairs r w → BlockPairs r (.key :: u ++ v ++ w)

/-- `node?` -/
inductive OptNode (r : Reading) : NodeKind → List TokenType → Prop
  | none (k : NodeKind) : OptNode r k []
  | some {k : NodeKind} {w : List TokenType} : Node r k w → OptNode r k w

/-- `(VALUE node?)?` -/
inductive OptValue (r : Reading) : NodeKind → List TokenType → Prop
  | none (k : NodeKind) : OptValue r k []
  | some {k : NodeKind} {w : List TokenType} : OptNode r k w → OptValue r k (.value :: w)

/-- `(entry FLOW-ENTRY)* entry?` -/
inductive FlowEntries (r : Reading) : FlowKind → List TokenType → Prop
  | nil (s : FlowKind) : FlowEntries r s []
  | last {s : FlowKind} {u : List TokenType} : FlowEntry r s u → FlowEntries r s u
  | cons {s : FlowKind} {u v : List TokenType} : FlowEntry r s u → FlowEntries r s v →
      FlowEntries r s (u ++ .flowEntry :: v)
  /-- A bare key before the last separator, which the code takes for a part of the pair. -/
  | keyEntry : r = .common → FlowEntries r .sequence [.key, .flowEntry]

/-- `flow_node | KEY flow_node? (VALUE flow_node?)?` -/
inductive FlowEntry (r : Reading) : FlowKind → List TokenType → Prop
  | node {s : FlowKind} {w : List TokenType} : Node r .flow w → FlowEntry r s w
  | pair {s : FlowKind} {u v : List TokenType} : Node r .flow u → OptValue r .flow v →
      FlowEntry r s (.key :: u ++ v)
  | bare {s : FlowKind} {v : List TokenType} : s = .mapping ∨ r = .documented →
      OptValue r .flow v → FlowEntry r s (.key :: v)
  /-- The code skips the token `x` that shows the key to have no node. -/
  | swallow {x : TokenType} {v : List TokenType} : r = .code →
      x ∈ [TokenType.value, .flowEntry, .flowSequenceEnd] → OptValue r .flow v →
      FlowEntry r .sequence (.key :: x :: v)
  /-- A value without a node: whichever way the pair is read, it is the same. -/
  | value : r = .common → FlowEntry r .sequence [.key, .value]

end

/-- `explicit_document* ` with `explicit_document ::= DIRECTIVE* DOCUMENT-START block_node?
DOCUMENT-END*` -/
inductive Documents (r : Reading) : List TokenType → Prop
  | nil : Documents r []
  | cons {ds u v : List TokenType} (n : Nat) :
      (∀ t ∈ ds, t = .versionDirective ∨ t = .tagDirective) → OptNode r .block u →
      Documents r v →
      Documents r (ds ++ .documentStart :: u ++ List.replicate n .documentEnd ++ v)

/-- `STREAM-START implicit_document? explicit_document* STREAM-END` with `implicit_document ::=
block_node DOCUMENT-END*` -/
inductive Stream (r : Reading) : List TokenType → Prop
  | explicit {v : List TokenType} : Documents r v →
      Stream r (.streamStart :: v ++ [.streamEnd])
  | implicit {u v : List TokenType} (n : Nat) : Node r .block u → Documents r v →
      Stream r (.streamStart :: u ++ List.replicate n .documentEnd ++ v ++ [.streamEnd])

end TokenGrammar

end LibYaml
