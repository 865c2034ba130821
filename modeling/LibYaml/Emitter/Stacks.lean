import LibYaml.Emitter.Frames

/-!
# The emitter's stacks
-/

namespace LibYaml

namespace Emitter

open Fallible

variable {σ : Type}

/-! ## The shape of a collection's states -/

section Shape

/-- Inside a collection, past its first entry's start: an indent is there to be popped. -/
def pastFirst : EmitterState → Bool
  | .flowSequenceItem | .flowMappingKey | .flowMappingSimpleValue | .flowMappingValue
  | .blockSequenceItem | .blockMappingKey | .blockMappingSimpleValue | .blockMappingValue => true
  | _ => false

/-- At the first entry of a collection. -/
def atFirst : EmitterState → Bool
  | .flowSequenceFirstItem | .flowMappingFirstKey
  | .blockSequenceFirstItem | .blockMappingFirstKey => true
  | _ => false

/-- In a flow collection. -/
def isFlow : EmitterState → Bool
  | .flowSequenceFirstItem | .flowSequenceItem | .flowMappingFirstKey | .flowMappingKey
  | .flowMappingSimpleValue | .flowMappingValue => true
  | _ => false

/-- Inside a flow collection, past its first entry's start: a flow level is there to be left. -/
def inFlow (state : EmitterState) : Bool := pastFirst state && isFlow state

/-- How a node is to be written and which state follows it. -/
structure Slot where
  next : EmitterState
  sequence : Bool
  mapping : Bool
  simpleKey : Bool

/-- The event that ends the collection a state is in, where it may end. -/
def endEvent : EmitterState → Option EventType
  | .flowSequenceFirstItem | .flowSequenceItem
  | .blockSequenceFirstItem | .blockSequenceItem => some .sequenceEnd
  | .flowMappingFirstKey | .flowMappingKey
  | .blockMappingFirstKey | .blockMappingKey => some .mappingEnd
  | _ => none

variable [WriteHandler σ]

/-- What a collection's first state does before it looks at the event. -/
def opening : EmitterState → EmitM σ Unit
  | .flowSequenceFirstItem => openFlow '['
  | .flowMappingFirstKey => openFlow '{'
  | .blockSequenceFirstItem => do
    let s ← get
    increaseIndent false (s.mappingContext && !s.indention)
  | .blockMappingFirstKey => increaseIndent false false
  | _ => pure ()

def closing : EmitterState → EmitM σ Unit
  | .flowSequenceFirstItem => closeFlow ']' true
  | .flowSequenceItem => closeFlow ']' false
  | .flowMappingFirstKey => closeFlowMapping true
  | .flowMappingKey => closeFlowMapping false
  | _ => closeBlock

def flowKeySlot (first : Bool) : EmitM σ Slot := do
  separateEntries first
  let s ← get
  if !s.canonical && checkSimpleKey s then pure ⟨.flowMappingSimpleValue, false, true, true⟩
  else do
    writeIndicator (ascii ['?']) true false false
    pure ⟨.flowMappingValue, false, true, false⟩

def blockItemSlot : EmitM σ Slot := do
  writeIndent
  writeIndicator (ascii ['-']) true false true
  pure ⟨.blockSequenceItem, true, false, false⟩

def blockKeySlot : EmitM σ Slot := do
  writeIndent
  let s ← get
  if checkSimpleKey s then pure ⟨.blockMappingSimpleValue, false, true, true⟩
  else do
    writeIndicator (ascii ['?']) true false true
    pure ⟨.blockMappingValue, false, true, false⟩

/-- What a collection's state writes before a node. -/
def slot : EmitterState → EmitM σ Slot
  | .flowSequenceFirstItem => do
    separateEntries true
    pure ⟨.flowSequenceItem, true, false, false⟩
  | .flowSequenceItem => do
    separateEntries false
    pure ⟨.flowSequenceItem, true, false, false⟩
  | .flowMappingFirstKey => flowKeySlot true
  | .flowMappingKey => flowKeySlot false
  | .flowMappingSimpleValue => do
    writeFlowValueIndicator true
    pure ⟨.flowMappingKey, false, true, false⟩
  | .flowMappingValue => do
    writeFlowValueIndicator false
    pure ⟨.flowMappingKey, false, true, false⟩
  | .blockSequenceFirstItem | .blockSequenceItem => blockItemSlot
  | .blockMappingFirstKey | .blockMappingKey => blockKeySlot
  | .blockMappingSimpleValue => do
    writeBlockValueIndicator true
    pure ⟨.blockMappingKey, false, true, false⟩
  | _ => do
    writeBlockValueIndicator false
    pure ⟨.blockMappingKey, false, true, false⟩

/-- A node in its slot. -/
def place (event : Event) (slot : Slot) : EmitM σ Unit := do
  pushState slot.next
  emitNode event false slot.sequence slot.mapping slot.simpleKey

end Shape

/-! ## What the parts of a step do to the stacks -/

section Parts

variable [WriteHandler σ] {k : Stacks} {td : TagData} {sty : ScalarStyle} {state : EmitterState}
  {states : List EmitterState} {d : Nat} {f : Int} {es : List Event}

/-- The stacks inside a collection that has just been opened. -/
def Stacks.opened (k : Stacks) (flow : Bool) : Stacks :=
  { k with depth := k.depth + 1, flowLevel := k.flowLevel + if flow then 1 else 0 }

def Stacks.pushed (k : Stacks) (state : EmitterState) : Stacks :=
  { k with states := state :: k.states }

omit [WriteHandler σ] in
theorem popState_spec {next : EmitterState} :
    Holds (stacksOf · = ⟨state, next :: states, d, f, es⟩) (popState : EmitM σ Unit)
      (fun _ s => stacksOf s = ⟨next, states, d, f, es⟩) (fun _ _ => False) := by
  intro s hs
  have h : s.states = next :: states := congrArg Stacks.states hs
  simp only [stacksOf, Stacks.mk.injEq] at hs
  simp [popState, h, stacksOf, hs]

/-- A slot that continues the collection of a state. -/
def Continues (state : EmitterState) (slot : Slot) : Prop :=
  pastFirst slot.next = true ∧ isFlow slot.next = isFlow state

theorem keeps_breakLongLine : Keeps core Unwritten (breakLongLine : EmitM σ Unit) :=
  .bind .get fun _ => .onlyIf keeps_writeIndent

end Parts

/-! ## Nodes -/

section Nodes

variable [WriteHandler σ] {k : Stacks} {td : TagData} {sty : ScalarStyle}
  {state next : EmitterState} {states : List EmitterState} {d : Nat} {f : Int} {es : List Event}
  {event : Event} {s t : Emitter σ} {fault : Fault}

def NoTag (td : TagData) : Prop := td.handle = none ∧ td.suffix = none

/-- The event is written in no slot: it is no node, or a scalar with neither a tag nor an implicit
flag. -/
def Refused (td : TagData) (event : Event) : Prop :=
  match event.data with
  | .alias _ | .sequenceStart _ _ _ _ | .mappingStart _ _ _ _ => False
  | .scalar _ _ _ plainImplicit quotedImplicit _ =>
    NoTag td ∧ plainImplicit = false ∧ quotedImplicit = false
  | _ => True

/-- The stacks behind a node that goes before `next`: it is written, or its collection is open. -/
def Entered (next : EmitterState) (k : Stacks) (k' : Stacks) : Prop :=
  k' = { k with state := next } ∨ ∃ first, atFirst first = true ∧ k' = { k.pushed next with state := first }

end Nodes

end Emitter

end LibYaml
