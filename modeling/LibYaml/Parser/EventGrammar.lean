import LibYaml.Parser.Machine

/-!
# The event grammar

`Stream` is the grammar of complete event sequences.  `Rest state states` is the language of what
may still follow when the machine is in `state` with `states` below it: every call that delivers
an event takes its type off the front of that language (`stateMachine_spec`), and the number of
marks is that of the collections the stack has open.
-/

namespace LibYaml

namespace EventGrammar

mutual

inductive Node : List EventType → Prop
  | alias : Node [.alias]
  | scalar : Node [.scalar]
  | sequence {w : List EventType} : Nodes w → Node (.sequenceStart :: w ++ [.sequenceEnd])
  | mapping {w : List EventType} : Pairs w → Node (.mappingStart :: w ++ [.mappingEnd])

inductive Nodes : List EventType → Prop
  | nil : Nodes []
  | cons {u v : List EventType} : Node u → Nodes v → Nodes (u ++ v)

inductive Pairs : List EventType → Prop
  | nil : Pairs []
  | cons {u v w : List EventType} : Node u → Node v → Pairs w → Pairs (u ++ v ++ w)

end

inductive Documents : List EventType → Prop
  | nil : Documents []
  | cons {u v : List EventType} : Node u → Documents v →
      Documents (.documentStart :: u ++ .documentEnd :: v)

inductive Stream : List EventType → Prop
  | intro {w : List EventType} : Documents w → Stream (.streamStart :: w ++ [.streamEnd])

/-- A node, then what `K` allows. -/
def NodeThen (K : List EventType → Prop) (w : List EventType) : Prop :=
  ∃ u v, Node u ∧ K v ∧ w = u ++ v

/-- The rest of a sequence, then what `K` allows. -/
def SequenceRest (K : List EventType → Prop) (w : List EventType) : Prop :=
  ∃ u v, Nodes u ∧ K v ∧ w = u ++ .sequenceEnd :: v

/-- The rest of a mapping from one of its keys on, then what `K` allows. -/
def MappingRest (K : List EventType → Prop) (w : List EventType) : Prop :=
  ∃ u v, Pairs u ∧ K v ∧ w = u ++ .mappingEnd :: v

/-- The rest of a stream between two documents. -/
def StreamRest (w : List EventType) : Prop :=
  ∃ u, Documents u ∧ w = u ++ [.streamEnd]

/-- The end of the mapping of a single pair, then the rest of the sequence around it. -/
def PairRest (K : List EventType → Prop) (w : List EventType) : Prop :=
  ∃ v, SequenceRest K v ∧ w = .mappingEnd :: v

/-- What may follow in `state`, when what follows it below is `K`. -/
def After (state : ParserState) (K : List EventType → Prop) : List EventType → Prop :=
  match state with
  | .streamStart => Stream
  | .implicitDocumentStart | .documentStart => StreamRest
  | .documentEnd => fun w => ∃ v, StreamRest v ∧ w = .documentEnd :: v
  | .documentContent | .blockNode | .blockNodeOrIndentlessSequence | .flowNode => NodeThen K
  | .blockSequenceFirstEntry | .blockSequenceEntry | .indentlessSequenceEntry
  | .flowSequenceFirstEntry | .flowSequenceEntry => SequenceRest K
  | .blockMappingFirstKey | .blockMappingKey | .flowMappingFirstKey | .flowMappingKey =>
    MappingRest K
  | .blockMappingValue | .flowMappingValue | .flowMappingEmptyValue => NodeThen (MappingRest K)
  | .flowSequenceEntryMappingKey => NodeThen (NodeThen (PairRest K))
  | .flowSequenceEntryMappingValue => NodeThen (PairRest K)
  | .flowSequenceEntryMappingEnd => PairRest K
  | .end => fun w => w = []

/-- What may follow once the machine pops the stack. -/
def Follows : List ParserState → List EventType → Prop
  | [] => fun _ => False
  | s :: rest => After s (Follows rest)

section Closure

variable {K : List EventType → Prop} {w : List EventType}

theorem nodeThen_alias (h : K w) : NodeThen K (.alias :: w) := ⟨[.alias], w, .alias, h, rfl⟩

theorem nodeThen_scalar (h : K w) : NodeThen K (.scalar :: w) := ⟨[.scalar], w, .scalar, h, rfl⟩

theorem nodeThen_sequenceStart (h : SequenceRest K w) : NodeThen K (.sequenceStart :: w) := by
  obtain ⟨u, v, hu, hv, rfl⟩ := h
  exact ⟨_, v, .sequence hu, hv, by simp⟩

theorem nodeThen_mappingStart (h : MappingRest K w) : NodeThen K (.mappingStart :: w) := by
  obtain ⟨u, v, hu, hv, rfl⟩ := h
  exact ⟨_, v, .mapping hu, hv, by simp⟩

theorem sequenceRest_end (h : K w) : SequenceRest K (.sequenceEnd :: w) := ⟨[], w, .nil, h, rfl⟩

theorem mappingRest_end (h : K w) : MappingRest K (.mappingEnd :: w) := ⟨[], w, .nil, h, rfl⟩

theorem sequenceRest_node (h : NodeThen (SequenceRest K) w) : SequenceRest K w := by
  obtain ⟨a, -, ha, ⟨u, v, hu, hv, rfl⟩, rfl⟩ := h
  exact ⟨a ++ u, v, .cons ha hu, hv, by simp⟩

theorem mappingRest_pair (h : NodeThen (NodeThen (MappingRest K)) w) : MappingRest K w := by
  obtain ⟨a, -, ha, ⟨b, -, hb, ⟨u, v, hu, hv, rfl⟩, rfl⟩, rfl⟩ := h
  exact ⟨a ++ b ++ u, v, .cons ha hb hu, hv, by simp⟩

/-- A single pair in a sequence is one of its nodes. -/
theorem sequenceRest_pair (h : NodeThen (NodeThen (PairRest K)) w) :
    SequenceRest K (.mappingStart :: w) := by
  obtain ⟨a, -, ha, ⟨b, -, hb, ⟨-, ⟨u, v, hu, hv, rfl⟩, rfl⟩, rfl⟩, rfl⟩ := h
  have hp : Pairs (a ++ b ++ []) := .cons ha hb .nil
  exact ⟨_, v, .cons (.mapping hp) hu, hv, by simp⟩

theorem streamRest_document {v : List EventType}
    (h : NodeThen (fun w => ∃ v, StreamRest v ∧ w = .documentEnd :: v) v) :
    StreamRest (.documentStart :: v) := by
  obtain ⟨a, -, ha, ⟨-, ⟨u, hu, rfl⟩, rfl⟩, rfl⟩ := h
  exact ⟨_, .cons ha hu, by simp⟩

end Closure

section Inversion

variable {K : List EventType → Prop} {e : EventType} {w : List EventType}

theorem nodeThen_cons (h : NodeThen K (e :: w)) :
    (e = .alias ∨ e = .scalar) ∧ K w ∨ e = .sequenceStart ∧ SequenceRest K w ∨
      e = .mappingStart ∧ MappingRest K w := by
  obtain ⟨u, v, hu, hv, he⟩ := h
  cases hu with
  | «alias» =>
    obtain ⟨rfl, rfl⟩ := List.cons.inj he
    exact Or.inl ⟨Or.inl rfl, hv⟩
  | scalar =>
    obtain ⟨rfl, rfl⟩ := List.cons.inj he
    exact Or.inl ⟨Or.inr rfl, hv⟩
  | sequence hu =>
    obtain ⟨rfl, rfl⟩ := List.cons.inj he
    exact Or.inr (Or.inl ⟨rfl, _, v, hu, hv, by simp⟩)
  | mapping hu =>
    obtain ⟨rfl, rfl⟩ := List.cons.inj he
    exact Or.inr (Or.inr ⟨rfl, _, v, hu, hv, by simp⟩)

theorem sequenceRest_cons (h : SequenceRest K (e :: w)) :
    e = .sequenceEnd ∧ K w ∨ NodeThen (SequenceRest K) (e :: w) := by
  obtain ⟨u, v, hu, hv, he⟩ := h
  cases hu with
  | nil =>
    obtain ⟨rfl, rfl⟩ := List.cons.inj he
    exact Or.inl ⟨rfl, hv⟩
  | cons ha hb => exact Or.inr ⟨_, _, ha, ⟨_, v, hb, hv, rfl⟩, by simp [he]⟩

theorem mappingRest_cons (h : MappingRest K (e :: w)) :
    e = .mappingEnd ∧ K w ∨ NodeThen (NodeThen (MappingRest K)) (e :: w) := by
  obtain ⟨u, v, hu, hv, he⟩ := h
  cases hu with
  | nil =>
    obtain ⟨rfl, rfl⟩ := List.cons.inj he
    exact Or.inl ⟨rfl, hv⟩
  | cons ha hb hc =>
    exact Or.inr ⟨_, _, ha, ⟨_, _, hb, ⟨_, v, hc, hv, rfl⟩, rfl⟩, by simp [he]⟩

theorem streamRest_cons (h : StreamRest (e :: w)) :
    e = .streamEnd ∧ w = [] ∨
      e = .documentStart ∧ NodeThen (fun w => ∃ v, StreamRest v ∧ w = .documentEnd :: v) w := by
  obtain ⟨u, hu, he⟩ := h
  cases hu with
  | nil =>
    obtain ⟨rfl, rfl⟩ := List.cons.inj he
    exact Or.inl ⟨rfl, rfl⟩
  | cons ha hb =>
    obtain ⟨rfl, rfl⟩ := List.cons.inj he
    exact Or.inr ⟨rfl, _, _, ha, ⟨_, ⟨_, hb, rfl⟩, rfl⟩, by simp⟩

theorem stream_cons (h : Stream (e :: w)) : e = .streamStart ∧ StreamRest w := by
  generalize he : e :: w = w' at h
  obtain ⟨hu⟩ := h
  obtain ⟨rfl, rfl⟩ := List.cons.inj he
  exact ⟨rfl, _, hu, rfl⟩

end Inversion

/-- Nothing follows the end of the stream. -/
theorem after_streamEnd {state : ParserState} {K : List EventType → Prop} {w : List EventType}
    (h : After state K (.streamEnd :: w)) : w = [] := by
  have hnode {K : List EventType → Prop} (h : NodeThen K (.streamEnd :: w)) : w = [] := by
    rcases nodeThen_cons h with ⟨h | h, -⟩ | ⟨h, -⟩ | ⟨h, -⟩ <;> cases h
  have hseq {K : List EventType → Prop} (h : SequenceRest K (.streamEnd :: w)) : w = [] := by
    rcases sequenceRest_cons h with ⟨h, -⟩ | h
    · cases h
    · exact hnode h
  have hmap {K : List EventType → Prop} (h : MappingRest K (.streamEnd :: w)) : w = [] := by
    rcases mappingRest_cons h with ⟨h, -⟩ | h
    · cases h
    · exact hnode h
  have hrest (h : StreamRest (.streamEnd :: w)) : w = [] := by
    rcases streamRest_cons h with ⟨-, h⟩ | ⟨h, -⟩
    · exact h
    · cases h
  cases state with
  | streamStart => cases (stream_cons h).1
  | implicitDocumentStart | documentStart => exact hrest h
  | documentEnd =>
    obtain ⟨v, -, hv⟩ := h
    cases (List.cons.inj hv).1
  | documentContent | blockNode | blockNodeOrIndentlessSequence | flowNode => exact hnode h
  | blockSequenceFirstEntry | blockSequenceEntry | indentlessSequenceEntry
  | flowSequenceFirstEntry | flowSequenceEntry => exact hseq h
  | blockMappingFirstKey | blockMappingKey | flowMappingFirstKey | flowMappingKey => exact hmap h
  | blockMappingValue | flowMappingValue | flowMappingEmptyValue => exact hnode h
  | flowSequenceEntryMappingKey | flowSequenceEntryMappingValue => exact hnode h
  | flowSequenceEntryMappingEnd =>
    obtain ⟨v, -, hv⟩ := h
    cases (List.cons.inj hv).1
  | «end» => cases h

/-- Nothing is a word only at the end. -/
theorem after_nil {state : ParserState} {K : List EventType → Prop} (h : After state K []) : state = .end := by
  have hnode {K : List EventType → Prop} (h : NodeThen K []) : state = .end := by
    obtain ⟨u, v, hu, -, he⟩ := h
    rw [(List.append_eq_nil_iff.mp he.symm).1] at hu
    cases hu
  have htail {K : List EventType → Prop} {P : List EventType → Prop} {e : EventType}
      (h : ∃ u v, P u ∧ K v ∧ [] = u ++ e :: v) : state = .end := by
    obtain ⟨u, v, -, -, he⟩ := h
    cases (List.append_eq_nil_iff.mp he.symm).2
  cases state with
  | streamStart =>
    generalize hw : ([] : List EventType) = w at h
    obtain ⟨-⟩ := h
    cases hw
  | implicitDocumentStart | documentStart =>
    obtain ⟨u, -, he⟩ := h
    cases (List.append_eq_nil_iff.mp he.symm).2
  | documentEnd | flowSequenceEntryMappingEnd =>
    obtain ⟨v, -, he⟩ := h
    cases he
  | documentContent | blockNode | blockNodeOrIndentlessSequence | flowNode => exact hnode h
  | blockSequenceFirstEntry | blockSequenceEntry | indentlessSequenceEntry
  | flowSequenceFirstEntry | flowSequenceEntry => exact htail h
  | blockMappingFirstKey | blockMappingKey | flowMappingFirstKey | flowMappingKey => exact htail h
  | blockMappingValue | flowMappingValue | flowMappingEmptyValue => exact hnode h
  | flowSequenceEntryMappingKey | flowSequenceEntryMappingValue => exact hnode h
  | «end» => rfl

/-- Something may follow, whatever the state. -/
theorem exists_after (state : ParserState) {K : List EventType → Prop} (hK : ∃ w, K w) :
    ∃ w, After state K w := by
  obtain ⟨k, hk⟩ := hK
  have hs : StreamRest [.streamEnd] := ⟨[], .nil, rfl⟩
  have hseq : SequenceRest K (.sequenceEnd :: k) := sequenceRest_end hk
  have hmap : MappingRest K (.mappingEnd :: k) := mappingRest_end hk
  have hpair : PairRest K (.mappingEnd :: .sequenceEnd :: k) := ⟨_, hseq, rfl⟩
  cases state with
  | streamStart => exact ⟨_, .intro .nil⟩
  | implicitDocumentStart | documentStart => exact ⟨_, hs⟩
  | documentEnd => exact ⟨_, _, hs, rfl⟩
  | documentContent | blockNode | blockNodeOrIndentlessSequence | flowNode =>
    exact ⟨_, nodeThen_scalar hk⟩
  | blockSequenceFirstEntry | blockSequenceEntry | indentlessSequenceEntry
  | flowSequenceFirstEntry | flowSequenceEntry => exact ⟨_, hseq⟩
  | blockMappingFirstKey | blockMappingKey | flowMappingFirstKey | flowMappingKey =>
    exact ⟨_, hmap⟩
  | blockMappingValue | flowMappingValue | flowMappingEmptyValue => exact ⟨_, nodeThen_scalar hmap⟩
  | flowSequenceEntryMappingKey => exact ⟨_, nodeThen_scalar (nodeThen_scalar hpair)⟩
  | flowSequenceEntryMappingValue => exact ⟨_, nodeThen_scalar hpair⟩
  | flowSequenceEntryMappingEnd => exact ⟨_, hpair⟩
  | «end» => exact ⟨[], rfl⟩

mutual

theorem Node.streamEnd_notMem : ∀ {w : List EventType}, Node w → .streamEnd ∉ w
  | _, .alias => by simp
  | _, .scalar => by simp
  | _, .sequence h => by simpa using h.streamEnd_notMem
  | _, .mapping h => by simpa using h.streamEnd_notMem

theorem Nodes.streamEnd_notMem : ∀ {w : List EventType}, Nodes w → .streamEnd ∉ w
  | _, .nil => by simp
  | _, .cons hu hv => by simp [hu.streamEnd_notMem, hv.streamEnd_notMem]

theorem Pairs.streamEnd_notMem : ∀ {w : List EventType}, Pairs w → .streamEnd ∉ w
  | _, .nil => by simp
  | _, .cons hu hv hw => by
    simp [hu.streamEnd_notMem, hv.streamEnd_notMem, hw.streamEnd_notMem]

end

theorem Documents.streamEnd_notMem {w : List EventType} (h : Documents w) : .streamEnd ∉ w := by
  induction h with
  | nil => simp
  | cons hu _ ih => simp [hu.streamEnd_notMem, ih]

/-- A complete word ends with the end of the stream, and no proper prefix of it does. -/
theorem Stream.eq_nil_iff {u v : List EventType} (h : Stream (u ++ v)) :
    v = [] ↔ u.getLast? = some .streamEnd := by
  generalize hw : u ++ v = w at h
  obtain ⟨hd⟩ := h
  constructor
  · rintro rfl
    rw [List.append_nil] at hw
    rw [hw, List.getLast?_append]
    rfl
  · intro hu
    obtain ⟨u', rfl⟩ := List.getLast?_eq_some_iff.mp hu
    rcases List.eq_nil_or_concat v with rfl | ⟨v', x, rfl⟩
    · rfl
    · rw [List.concat_eq_append, ← List.append_assoc] at hw
      have hin := (List.append_inj' hw rfl).1
      refine absurd ?_ hd.streamEnd_notMem
      cases u' with
      | nil => simp at hin
      | cons a u' =>
        simp only [List.cons_append, List.append_assoc, List.nil_append, List.cons.injEq] at hin
        simp [← hin.2]

end EventGrammar

end LibYaml
