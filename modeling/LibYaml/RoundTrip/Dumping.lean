import LibYaml.RoundTrip.Anchoring
import LibYaml.Parser.EventGrammar

/-!
# The events of a dump

The second pass takes the same walk as the first and delivers what `dataAt` says at each of its
steps (`dumpNode_walk`): a node where it enters it, an alias where it comes to it again.  The
events of a walk are grammatical (`nodes_of_walk`).
-/

namespace LibYaml

namespace Dumper

open Fallible DepthFirst

variable {σ : Type} {d : Document} {s : Dumper (List Event)} {seen seen' as : List Nat} {i : Nat}
  {A : Nat → Nat}

def startData (node : Node) (anchor : Option Bytes) : EventData :=
  match node.data with
  | .scalar value style =>
    .scalar anchor (some node.tag) value (cstr node.tag = defaultScalarTag)
      (cstr node.tag = defaultScalarTag) style
  | .sequence _ style =>
    .sequenceStart anchor (some node.tag) (cstr node.tag = defaultSequenceTag) style
  | .mapping _ style =>
    .mappingStart anchor (some node.tag) (cstr node.tag = defaultMappingTag) style

def endData (node : Node) : List EventData :=
  match node.data with
  | .scalar _ _ => []
  | .sequence _ _ => [.sequenceEnd]
  | .mapping _ _ => [.mappingEnd]

/-- What is delivered at a step of a walk, when the nodes have the anchor ids `A`. -/
def dataAt (d : Document) (A : Nat → Nat) : Step Nat → List EventData
  | .enter i => ((d.node? i).map fun node => startData node (anchorText (A i))).toList
  | .again i => [.alias (generateAnchor (A i))]
  | .leave i => ((d.node? i).map endData).getD []

/-- The dumper's events have no place in a text. -/
def unplaced (data : EventData) : Event := ⟨data, .zero, .zero⟩

def emitted (s : Dumper (List Event)) (datas : List EventData) : Dumper (List Event) :=
  { s with sink := s.sink ++ datas.map unplaced }

def marked (s : Dumper σ) (i : Nat) : Dumper σ :=
  { s with anchors := s.anchors.set (i - 1) { anchorsAt s i with serialized := true } }

theorem emit_ok (data : EventData) : emit data s = .ok () (emitted s [data]) := rfl

@[simp] theorem emitted_nil : emitted s [] = s := by simp [emitted]

@[simp] theorem emitted_emitted (us vs : List EventData) :
    emitted (emitted s us) vs = emitted s (us ++ vs) := by simp [emitted]

/-- The nodes `seen` have been delivered, and the nodes have the anchor ids `A`. -/
structure Serializing (d : Document) (A : Nat → Nat) (seen : List Nat) (s : Dumper σ) : Prop where
  document : s.document = some d
  length : s.anchors.length = d.nodes.length
  anchor : ∀ i, d.Has i → (anchorsAt s i).anchor = A i
  serialized : ∀ i, d.Has i → ((anchorsAt s i).serialized = true ↔ i ∈ seen)

theorem Serializing.emitted (h : Serializing d A seen s) (datas : List EventData) :
    Serializing d A seen (emitted s datas) :=
  ⟨h.document, h.length, h.anchor, h.serialized⟩

theorem Serializing.marked {s : Dumper σ} (h : Serializing d A seen s) (hi : d.Has i) :
    Serializing d A (seen ++ [i]) (marked s i) := by
  have hlt : i - 1 < s.anchors.length := by
    have := h.length
    have := hi.1
    have := hi.2
    omega
  have hat (j : Nat) (hj : d.Has j) : anchorsAt (Dumper.marked s i) j =
      if j = i then { anchorsAt s i with serialized := true } else anchorsAt s j := by
    have hij : j - 1 = i - 1 ↔ j = i := by
      have := hi.1
      have := hj.1
      omega
    by_cases he : j = i
    · simp [Dumper.marked, anchorsAt, he, hlt]
    · have : ¬i - 1 = j - 1 := fun h => he (hij.mp h.symm)
      simp [Dumper.marked, anchorsAt, he, this]
  refine ⟨h.document, by simp [Dumper.marked, h.length], fun j hj => ?_, fun j hj => ?_⟩
  · rw [hat j hj]
    split
    · rename_i he
      rw [← h.anchor j hj, he]
    · exact h.anchor j hj
  · rw [hat j hj]
    by_cases he : j = i
    · simp [he]
    · simp [he, h.serialized j hj]

theorem lookup_serializing {s : Dumper σ} (h : Serializing d A seen s) (hi : d.Has i) {node : Node}
    (hn : d.node? i = some node) : lookup i s = .ok (node, anchorsAt s i) s :=
  lookup_ok h.document h.length hi hn

theorem dumpNode_again (fuel : Nat) (h : Serializing d A seen s) (hi : d.Has i) (hs : i ∈ seen)
    (ha : A i ≠ 0) :
    dumpNode (fuel + 1) i s = .ok () (emitted s (dataAt d A (.again i))) := by
  obtain ⟨node, hn, -⟩ := hi.node
  rw [dumpNode, bind_of_ok (lookup_serializing h hi hn)]
  have htext : anchorText (A i) = some (generateAnchor (A i)) := if_pos ha
  simp only [h.anchor i hi, (h.serialized i hi).mpr hs, htext, ↓reduceIte]
  rfl

theorem dumpNode_enter {fuel : Nat} (h : Serializing d A seen s) (hi : d.Has i) (hs : i ∉ seen)
    {s' : Dumper (List Event)}
    (hok : (d.children i).forM (dumpNode fuel) (emitted (marked s i) (dataAt d A (.enter i))) =
      .ok () s') :
    dumpNode (fuel + 1) i s = .ok () (emitted s' (dataAt d A (.leave i))) := by
  obtain ⟨node, hn, -⟩ := hi.node
  have hser : (anchorsAt s i).serialized = false := by
    rw [← Bool.not_eq_true, h.serialized i hi]
    exact hs
  have hset : setAnchors i ⟨(anchorsAt s i).references, A i, true⟩ s = .ok () (marked s i) := by
    rw [← h.anchor i hi]
    rfl
  have hstart : dataAt d A (.enter i) = [startData node (anchorText (A i))] := by
    simp [dataAt, hn]
  have hend : dataAt d A (.leave i) = endData node := by simp [dataAt, hn]
  have hchildren : d.children i = node.data.children := by simp [Document.children, hn]
  rw [hstart, hchildren] at hok
  rw [hend, dumpNode, bind_of_ok (lookup_serializing h hi hn)]
  simp only [h.anchor i hi, hser, Bool.false_eq_true, ↓reduceIte]
  rw [bind_of_ok hset]
  cases hd : node.data with
  | scalar value style =>
    rw [hd] at hok
    simp only [startData, hd] at hok
    obtain rfl := (EStateM.Result.ok.inj hok).2
    simp only [endData, hd, emitted_nil]
    rfl
  | sequence items style =>
    rw [hd] at hok
    simp only [startData, hd, NodeData.children] at hok
    simp only [dumpSequence, endData, hd]
    rw [bind_of_ok (emit_ok _)]
    change ((items.forM (dumpNode fuel)) >>= fun _ => emit .sequenceEnd) _ = _
    rw [bind_of_ok hok]
    rfl
  | mapping pairs style =>
    rw [hd] at hok
    simp only [startData, hd, NodeData.children] at hok
    simp only [dumpMapping, endData, hd]
    rw [bind_of_ok (emit_ok _), forM_pairs]
    rw [bind_of_ok hok]
    rfl

/-- The second pass delivers the events of a walk. -/
theorem dumpNode_walk (hv : d.Closed) {t : List (Step Nat)} (h : Walk d.children seen as t seen') :
    ∀ (fuel : Nat) {s : Dumper (List Event)}, Serializing d A seen s → (∀ i ∈ as, d.Has i) →
      (∀ i, .again i ∈ t → A i ≠ 0) → seen'.length < seen.length + fuel →
      ∃ s', as.forM (dumpNode fuel) s = .ok () s' ∧ Serializing d A seen' s' ∧
        s'.sink = s.sink ++ (t.flatMap (dataAt d A)).map unplaced ∧
        s'.opened = s.opened ∧ s'.closed = s.closed := by
  induction h with
  | nil => exact fun _ _ hs _ _ _ => ⟨_, rfl, hs, by simp, rfl, rfl⟩
  | @again seen seen' as a t ha h ih =>
    intro fuel s hs has hA hlt
    have hle := h.length_le
    obtain ⟨fuel, rfl⟩ : ∃ n, fuel = n + 1 := ⟨fuel - 1, by omega⟩
    have hstep := dumpNode_again fuel hs (has a List.mem_cons_self) ha
      (hA a List.mem_cons_self)
    obtain ⟨s', hok, hs', hsink, ho, hc⟩ := ih _ (hs.emitted (dataAt d A (.again a)))
      (fun b hb => has b (List.mem_cons_of_mem _ hb)) (fun b hb => hA b (List.mem_cons_of_mem _ hb))
      hlt
    refine ⟨s', ?_, hs', ?_, ho, hc⟩
    · rw [forM_cons, bind_of_ok hstep, hok]
    · rw [hsink]
      simp [emitted]
  | @enter seen seen' seen'' as a t u ha h₁ h₂ ih₁ ih₂ =>
    intro fuel s hs has hA hlt
    have hle₁ := h₁.length_le
    have hle₂ := h₂.length_le
    simp only [List.length_append, List.length_singleton] at hle₁
    obtain ⟨fuel, rfl⟩ : ∃ n, fuel = n + 1 := ⟨fuel - 1, by omega⟩
    have hi := has a List.mem_cons_self
    obtain ⟨s₁, hok₁, hs₁, hsink₁, ho₁, hc₁⟩ := ih₁ fuel
      ((hs.marked hi).emitted (dataAt d A (.enter a))) (fun j hj => hv.has_of_mem hi hj)
      (fun b hb => hA b (by simp [hb])) (by simp; omega)
    obtain ⟨s₂, hok₂, hs₂, hsink₂, ho₂, hc₂⟩ := ih₂ (fuel + 1)
      (hs₁.emitted (dataAt d A (.leave a))) (fun b hb => has b (List.mem_cons_of_mem _ hb))
      (fun b hb => hA b (by simp [hb])) (by omega)
    refine ⟨s₂, ?_, hs₂, ?_, ho₂.trans ho₁, hc₂.trans hc₁⟩
    · rw [forM_cons, bind_of_ok (dumpNode_enter hs hi ha hok₁), hok₂]
    · rw [hsink₂]
      simp only [emitted, hsink₁, marked]
      simp

/-! ## Grammar -/

open EventGrammar

/-- Words of nodes, as many as there are `as`. -/
def NodesOf (as : List Nat) (w : List EventType) : Prop :=
  ∃ ws : List (List EventType), ws.length = as.length ∧ (∀ u ∈ ws, EventGrammar.Node u) ∧
    w = ws.flatten

theorem nodes_of_words : ∀ {ws : List (List EventType)}, (∀ u ∈ ws, EventGrammar.Node u) →
    Nodes ws.flatten
  | [], _ => .nil
  | u :: ws, h => by
    rw [List.flatten_cons]
    exact .cons (h u List.mem_cons_self)
      (nodes_of_words fun v hv => h v (List.mem_cons_of_mem _ hv))

theorem pairs_of_words : ∀ (n : Nat) {ws : List (List EventType)}, ws.length = 2 * n →
    (∀ u ∈ ws, EventGrammar.Node u) → Pairs ws.flatten
  | 0, [], _, _ => .nil
  | 0, _ :: _, hl, _ => by simp at hl
  | n + 1, [], hl, _ => by simp at hl
  | n + 1, [_], hl, _ => by
    simp only [List.length_cons, List.length_nil] at hl
    omega
  | n + 1, u :: v :: ws, hl, h => by
    have hlen : ws.length = 2 * n := by
      simp only [List.length_cons] at hl
      omega
    rw [List.flatten_cons, List.flatten_cons, ← List.append_assoc]
    exact .cons (h u (by simp)) (h v (by simp))
      (pairs_of_words n hlen fun w hw => h w (by simp [hw]))

theorem length_pairs (pairs : List (Nat × Nat)) :
    (pairs.flatMap fun p => [p.1, p.2]).length = 2 * pairs.length := by
  induction pairs with
  | nil => rfl
  | cons p pairs ih =>
    simp only [List.flatMap_cons, List.length_append, List.length_cons, List.length_nil, ih]
    omega

def typesAt (d : Document) (A : Nat → Nat) (t : List (Step Nat)) : List EventType :=
  (t.flatMap (dataAt d A)).map EventData.type

theorem node_of_children {node : Node} (hn : d.node? i = some node) {w : List EventType}
    (hw : NodesOf (d.children i) w) :
    EventGrammar.Node ((dataAt d A (.enter i)).map EventData.type ++ w ++
      (dataAt d A (.leave i)).map EventData.type) := by
  obtain ⟨ws, hl, hws, rfl⟩ := hw
  simp only [Document.children, hn, Option.map_some, Option.getD_some] at hl
  simp only [dataAt, hn, Option.map_some, Option.toList_some, Option.getD_some, startData, endData]
  cases hd : node.data with
  | scalar =>
    rw [hd] at hl
    obtain rfl := List.length_eq_zero_iff.mp hl
    exact .scalar
  | sequence => exact .sequence (nodes_of_words hws)
  | mapping pairs =>
    rw [hd] at hl
    exact .mapping (pairs_of_words _ (hl.trans (length_pairs pairs)) hws)

/-- The events of a walk are those of as many nodes as it starts from. -/
theorem nodes_of_walk (hv : d.Closed) {t : List (Step Nat)} (h : Walk d.children seen as t seen') :
    (∀ i ∈ as, d.Has i) → NodesOf as (typesAt d A t) := by
  induction h with
  | nil => exact fun _ => ⟨[], rfl, by simp, rfl⟩
  | @again seen seen' as a t ha h ih =>
    intro has
    obtain ⟨ws, hl, hws, he⟩ := ih fun b hb => has b (List.mem_cons_of_mem _ hb)
    refine ⟨[.alias] :: ws, by simp [hl], ?_, ?_⟩
    · rintro u hu
      rcases List.mem_cons.mp hu with rfl | hu
      · exact .alias
      · exact hws u hu
    · rw [List.flatten_cons, ← he]
      simp [typesAt, dataAt, EventData.type]
  | @enter seen seen' seen'' as a t u ha h₁ h₂ ih₁ ih₂ =>
    intro has
    have hi := has a List.mem_cons_self
    obtain ⟨node, hn, -⟩ := hi.node
    obtain ⟨ws, hl, hws, he⟩ := ih₂ fun b hb => has b (List.mem_cons_of_mem _ hb)
    have hnode := node_of_children (A := A) hn (ih₁ fun j hj => hv.has_of_mem hi hj)
    refine ⟨((dataAt d A (.enter a)).map EventData.type ++ typesAt d A t ++
      (dataAt d A (.leave a)).map EventData.type) :: ws, by simp [hl], ?_, ?_⟩
    · rintro v hv'
      rcases List.mem_cons.mp hv' with rfl | hv'
      · exact hnode
      · exact hws v hv'
    · rw [List.flatten_cons, ← he]
      simp [typesAt]

end Dumper

end LibYaml
