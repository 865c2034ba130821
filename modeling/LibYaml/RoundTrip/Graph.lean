import LibYaml.RoundTrip.Loading

/-!
# Dump, then load

A document that is dumped and loaded again is the part of it that can be reached from its root,
with its nodes numbered in the order in which a depth-first walk from the root first comes to them
(`load_dump`).
-/

namespace LibYaml

open Fallible DepthFirst

namespace Document

/-- A node that can be reached from the root. -/
def Reachable (d : Document) (i : Nat) : Prop := d.nodes ≠ [] ∧ Reach d.children 1 i

/-- The nodes in the order in which a depth-first walk from the root first comes to them. -/
def FirstVisits (d : Document) (order : List Nat) : Prop :=
  if d.nodes = [] then order = [] else ∃ t, Walk d.children [] [1] t order

variable {d : Document} {order : List Nat}

theorem has_one (h : d.nodes ≠ []) : d.Has 1 :=
  ⟨Nat.one_pos, List.length_pos_iff.mpr h⟩

theorem Closed.has_of_reach (hv : d.Closed) {i j : Nat} (hi : d.Has i)
    (h : Reach d.children i j) : d.Has j := by
  induction h with
  | refl => exact hi
  | tail _ hj ih => exact hv.has_of_mem ih hj

theorem FirstVisits.mem_iff (h : d.FirstVisits order) {i : Nat} : i ∈ order ↔ d.Reachable i := by
  unfold FirstVisits at h
  split at h
  · subst h
    simp [Reachable, *]
  · obtain ⟨t, ht⟩ := h
    simp [Reachable, ht.mem_iff, *]

theorem FirstVisits.nodup (h : d.FirstVisits order) : order.Nodup := by
  unfold FirstVisits at h
  split at h
  · subst h
    exact List.nodup_nil
  · obtain ⟨t, ht⟩ := h
    exact ht.nodup List.nodup_nil

theorem FirstVisits.has (h : d.FirstVisits order) (hv : d.Closed) {i : Nat} (hi : i ∈ order) :
    d.Has i := by
  obtain ⟨hne, hr⟩ := h.mem_iff.mp hi
  exact hv.has_of_reach (has_one hne) hr

theorem FirstVisits.length_le (h : d.FirstVisits order) (hv : d.Closed) :
    order.length ≤ d.nodes.length := by
  have hsub : order ⊆ (List.range d.nodes.length).map (· + 1) := by
    intro i hi
    obtain ⟨hpos, hle⟩ := h.has hv hi
    exact List.mem_map.mpr ⟨i - 1, List.mem_range.mpr (by omega), by omega⟩
  simpa using (List.subperm_of_subset h.nodup hsub).length_le

theorem Closed.exists_walk (hv : d.Closed) (hne : d.nodes ≠ []) :
    ∃ t order, Walk d.children [] [1] t order := by
  have hmem (i : Nat) : i ∈ (List.range d.nodes.length).map (· + 1) ↔ d.Has i := by
    simp only [List.mem_map, List.mem_range, Has]
    constructor
    · rintro ⟨k, hk, rfl⟩
      omega
    · rintro ⟨hpos, hle⟩
      exact ⟨i - 1, by omega, by omega⟩
  obtain ⟨t, order, h, -⟩ := DepthFirst.exists_walk d.children
    ((List.range d.nodes.length).map (· + 1))
    (fun i hi j hj => (hmem j).mpr (hv.has_of_mem ((hmem i).mp hi) hj)) d.nodes.length
    [] [1] List.nodup_nil (by simp) (by simp)
    (fun i hi => (hmem i).mpr (by rw [List.mem_singleton.mp hi]; exact has_one hne))
  exact ⟨t, order, h⟩

end Document

namespace Dumper

variable {σ : Type} {d : Document}

/-- The dumper once it is ready to count references. -/
def prepared (s : Dumper (List Event)) (d : Document) : Dumper (List Event) :=
  { s with
    document := some d
    opened := true
    anchors := List.replicate d.nodes.length {}
    lastAnchorId := 0
    sink := s.sink ++ (if s.opened then [] else [unplaced (.streamStart .any)]) ++
      [unplaced (.documentStart d.versionDirective d.tagDirectives d.startImplicit)] }

theorem forM_singleton {α : Type} (f : Nat → EStateM Fault α Unit) (i : Nat) {s s' : α}
    (h : [i].forM f s = .ok () s') : f i s = .ok () s' := by
  change (f i >>= fun _ => pure ()) s = _ at h
  rw [bind_apply] at h
  cases hf : f i s with
  | ok a t => rw [hf] at h; exact h
  | error e t => rw [hf] at h; cases h

theorem length_lt_of_walk (hv : d.Closed) (hne : d.nodes ≠ []) {t : List (Step Nat)}
    {order : List Nat} (h : Walk d.children [] [1] t order) {fuel : Nat}
    (hf : d.nodes.length < fuel) : order.length < ([] : List Nat).length + fuel := by
  have hfirst : d.FirstVisits order := by
    rw [Document.FirstVisits, if_neg hne]
    exact ⟨t, h⟩
  have := hfirst.length_le hv
  simp only [List.length_nil]
  omega

theorem anchorsAt_replicate {s : Dumper σ} {n : Nat} (h : s.anchors = List.replicate n {})
    (i : Nat) : anchorsAt s i = {} := by
  simp only [anchorsAt, h, List.getElem?_replicate]
  split <;> rfl

/-- The first pass from where nothing is known of any node. -/
theorem anchorNode_root {s : Dumper σ} (hv : d.Closed) (hne : d.nodes ≠ []) {t : List (Step Nat)}
    {order : List Nat} (h : Walk d.children [] [1] t order) (hd : s.document = some d)
    (ha : s.anchors = List.replicate d.nodes.length {}) {fuel : Nat} (hf : d.nodes.length < fuel) :
    ∃ A s', anchorNode fuel 1 s = .ok () s' ∧ Frame s s' ∧ Distinct A ∧
      (∀ i, .again i ∈ t → A i ≠ 0) ∧ Serializing d A [] s' := by
  have hfirst : d.FirstVisits order := by
    rw [Document.FirstVisits, if_neg hne]
    exact ⟨t, h⟩
  have hat := anchorsAt_replicate ha
  have hcounted : Counted d [] s := ⟨hd, by simp [ha], fun j _ => by simp [hat]⟩
  have hzero : Anchored s := by
    refine ⟨fun i => ?_, fun i => ?_, fun i j _ _ hne => ?_⟩
    · simp [hat]
    · simp [hat]
    · simp [hat] at hne
  obtain ⟨hok, hs⟩ := anchorNode_walk (fun i hi j hj => hv.has_of_mem hi hj) h _ hcounted
    (by simpa using Document.has_one hne) (length_lt_of_walk hv hne h hf)
  generalize hs₁ : (t.filterMap Step.target).foldl touch s = s₁ at hok hs
  have htargets : ∀ i ∈ t.filterMap Step.target, 0 < i ∧ i - 1 < s.anchors.length := by
    intro i hi
    obtain ⟨hpos, hle⟩ := hfirst.has hv (h.target_mem hi)
    exact ⟨hpos, by simp only [ha, List.length_replicate]; omega⟩
  have hanchored : Anchored s₁ := hs₁ ▸ anchored_foldl hzero fun i hi => (htargets i hi).2
  refine ⟨fun i => (anchorsAt s₁ i).anchor, s₁, forM_singleton _ 1 hok, hs₁ ▸ frame_foldl _ _,
    hanchored.injective, fun i hi => ?_, hs.document, hs.length, fun _ _ => rfl, fun i _ => ?_⟩
  · have hent := (h.enter_of_again hi).resolve_left (by simp)
    have hmem : i ∈ t.filterMap Step.target := List.mem_filterMap.mpr ⟨_, hi, rfl⟩
    simp only []
    rw [hanchored.anchor i, ← hs₁, references_foldl (htargets i hmem).1 htargets]
    exact Nat.le_trans (two_le_count hent hi) (Nat.le_add_left _ _)
  · rw [← hs₁, serialized_foldl fun i hi => (htargets i hi).2, hat]
    simp

/-- What a dump of a document with a root delivers. -/
theorem dumpDocument_ok (hv : d.Closed) (hne : d.nodes ≠ []) {t : List (Step Nat)}
    {order : List Nat} (h : Walk d.children [] [1] t order) {s : Dumper (List Event)}
    (hid : s.lastAnchorId = 0) {fuel : Nat} (hf : d.nodes.length < fuel) :
    ∃ A s', dumpDocument fuel d s = .ok () s' ∧ Distinct A ∧ (∀ i, .again i ∈ t → A i ≠ 0) ∧
      s'.sink = (prepared s d).sink ++ (t.flatMap (dataAt d A)).map unplaced ++
        [unplaced (.documentEnd d.endImplicit)] ∧ s'.opened = true ∧ s'.closed = s.closed := by
  obtain ⟨A, s₁, hok₁, hframe, hdistinct, hagain, hserializing⟩ :=
    anchorNode_root (s := prepared s d) hv hne h rfl rfl hf
  obtain ⟨s₂, hok₂, -, hsink, ho, hc⟩ := dumpNode_walk hv h _ hserializing
    (by simpa using Document.has_one hne) hagain (length_lt_of_walk hv hne h hf)
  refine ⟨A, emitted s₂ [.documentEnd d.endImplicit], ?_, hdistinct, hagain, ?_,
    ho.trans hframe.2.1, hc.trans hframe.2.2.1⟩
  · have hrest : (do
        anchorNode fuel 1
        dumpNode fuel 1
        emit (.documentEnd d.endImplicit) : DumpM (List Event) Unit) (prepared s d) =
        .ok () (emitted s₂ [.documentEnd d.endImplicit]) := by
      rw [bind_of_ok hok₁, bind_of_ok (forM_singleton _ 1 hok₂)]
      rfl
    rw [← hrest]
    cases ho : s.opened <;>
      simp [dumpDocument, openStream, bind_apply, ho, hne, emit, EventSink.emit, prepared, unplaced,
        hid]
  · rw [emitted, hsink, hframe.1]
    simp

theorem dumpDocument_nil (hnil : d.nodes = []) (s : Dumper (List Event)) (fuel : Nat) :
    ∃ s', dumpDocument fuel d s = .ok () s' ∧
      s'.sink = s.sink ++ (if s.opened then [] else [unplaced (.streamStart .any)]) ++
        (if s.closed then [] else [unplaced .streamEnd]) := by
  cases ho : s.opened <;> cases hc : s.closed <;>
    simp [dumpDocument, openStream, closeStream, bind_apply, ho, hc, hnil, emit, EventSink.emit,
      unplaced]

end Dumper

namespace Loader

open Dumper

variable {d : Document}

/-- What the loader is left with once it has loaded a dump. -/
def loadedDocument (d : Document) (order : List Nat) : Document :=
  { nodes := order.map (loaded d order)
    versionDirective := d.versionDirective
    tagDirectives := d.tagDirectives
    startImplicit := d.startImplicit
    endImplicit := d.endImplicit }

/-- The loader where the nodes of a document begin. -/
def started (d : Document) (source : EventList) : Loader EventList :=
  { source := source
    document :=
      { versionDirective := d.versionDirective
        tagDirectives := d.tagDirectives
        startImplicit := d.startImplicit } }

theorem loadNodes_walk (hv : d.Valid) {t : List (Step Nat)} {order : List Nat}
    (hne : d.nodes ≠ []) (h : Walk d.children [] [1] t order) {A : Nat → Nat} (hA : Distinct A)
    (hagain : ∀ i, .again i ∈ t → A i ≠ 0) {fuel : Nat}
    (hf : (t.flatMap (dataAt d A)).length < fuel) :
    ∃ l, loadNodes fuel (started d ⟨(t.flatMap (dataAt d A)).map unplaced ++
        [unplaced (.documentEnd d.endImplicit)], true, false⟩) = .ok () l ∧
      l.document = loadedDocument d order := by
  have hfirst : d.FirstVisits order := by
    rw [Document.FirstVisits, if_neg hne]
    exact ⟨t, h⟩
  have hfeeds := feeds_walk hv hA (Nat.le_trans (hfirst.length_le hv.closed) hv.nodes_le)
    (fun i hi => (hfirst.has hv.closed hi).1) h (S := started d ⟨[], true, false⟩)
    ⟨rfl, rfl, fun p rest he => (by simp [started] at he), by simp [started]⟩
    (by simpa using Document.has_one hne) hagain (List.prefix_refl _)
  obtain ⟨n, rfl⟩ : ∃ n, fuel = n + 1 + (t.flatMap (dataAt d A)).length :=
    ⟨fuel - (t.flatMap (dataAt d A)).length - 1, by omega⟩
  have hrun := hfeeds (n + 1) [unplaced (.documentEnd d.endImplicit)] true false
  rw [List.length_map] at hrun
  have horder := h.eq_append
  rw [List.nil_append] at horder
  refine ⟨_, hrun.trans rfl, ?_⟩
  simp [composed, withNodes, withSource, started, attach, loadedDocument, unplaced, ← horder]

/-- A loader that is to read `events`. -/
def reading (events : List Event) (started : Bool) : Loader EventList :=
  { source := ⟨events, started, false⟩ }

/-- Loading what a dump delivers. -/
theorem load_ok (hv : d.Valid) {t : List (Step Nat)} {order : List Nat}
    (hne : d.nodes ≠ []) (h : Walk d.children [] [1] t order) {A : Nat → Nat} (hA : Distinct A)
    (hagain : ∀ i, .again i ∈ t → A i ≠ 0) (opened : Bool) {fuel : Nat}
    (hf : (t.flatMap (dataAt d A)).length < fuel) :
    ∃ l, load fuel (reading ((if opened then [] else [unplaced (.streamStart .any)]) ++
        [unplaced (.documentStart d.versionDirective d.tagDirectives d.startImplicit)] ++
        (t.flatMap (dataAt d A)).map unplaced ++ [unplaced (.documentEnd d.endImplicit)]) opened) =
        .ok () l ∧ l.document = loadedDocument d order := by
  obtain ⟨l, hok, hl⟩ := loadNodes_walk hv hne h hA hagain hf
  refine ⟨{ l with aliases := [] }, ?_, hl⟩
  simp only [started, unplaced] at hok
  have hstream : loadStream fuel (reading ((if opened then [] else
      [unplaced (.streamStart .any)]) ++ [unplaced (.documentStart d.versionDirective
      d.tagDirectives d.startImplicit)] ++ (t.flatMap (dataAt d A)).map unplaced ++
      [unplaced (.documentEnd d.endImplicit)]) opened) = .ok () { l with aliases := [] } := by
    cases opened <;>
      simp [loadStream, loadDocument, reading, bind_apply, next, EventSource.next,
        EventSource.streamStartProduced, EventSource.streamEndProduced, unplaced, Event.type,
        EventData.type, hok]
  rw [load, hstream]

/-- Loading where the stream ends. -/
theorem load_nil (opened : Bool) (fuel : Nat) :
    ∃ l, load fuel (reading ((if opened then [] else [unplaced (.streamStart .any)]) ++
        [unplaced .streamEnd]) opened) = .ok () l ∧ l.document = {} := by
  cases opened <;>
    simp [load, loadStream, reading, bind_apply, next, EventSource.next,
      EventSource.streamStartProduced, EventSource.streamEndProduced, unplaced, Event.type,
      EventData.type]

/-- A dump is finite and grammatical, and loading it gives the part of the document that can be
reached from the root: in the order of first visits, with every reference to a node replaced by the
position of that node in this order. -/
theorem load_dump (d : Document) (hv : d.Valid) (opened : Bool) (k : Nat) :
    ∃ (s' : Dumper (List Event)) (l : Loader EventList) (order : List Nat)
      (w : List EventType),
      dump (d.nodes.length + 1 + k) d { sink := [], opened := opened } = .ok () s' ∧
      s'.sink.map Event.type = (if opened then [] else [.streamStart]) ++ w ++
        (if d.nodes = [] then [.streamEnd] else []) ∧ EventGrammar.Documents w ∧
      load (s'.sink.length + 1 + k) (reading s'.sink opened) = .ok () l ∧
      d.FirstVisits order ∧ (∀ i, i ∈ order ↔ d.Reachable i) ∧
      (∀ i ∈ order, ∀ j, position order i = position order j → i = j) ∧
      l.document.nodes = order.map (loaded d order) := by
  by_cases hnil : d.nodes = []
  · obtain ⟨s', hdump, hsink⟩ := dumpDocument_nil hnil { sink := [], opened := opened }
      (d.nodes.length + 1 + k)
    simp only [List.nil_append, Bool.false_eq_true, if_false] at hsink
    have hfirst : d.FirstVisits [] := by rw [Document.FirstVisits, if_pos hnil]
    obtain ⟨l, hload, hl⟩ := load_nil opened (s'.sink.length + 1 + k)
    refine ⟨deleteDocumentAndAnchors s', l, [], [], by rw [dump, hdump], ?_, .nil, ?_, hfirst,
      fun i => hfirst.mem_iff, by simp, by rw [hl]; rfl⟩
    · simp only [deleteDocumentAndAnchors, hsink, hnil, if_true]
      cases opened <;> rfl
    · simp only [deleteDocumentAndAnchors]
      rw [hsink] at hload ⊢
      exact hload
  · obtain ⟨t, order, h⟩ := hv.closed.exists_walk hnil
    have hfirst : d.FirstVisits order := by
      rw [Document.FirstVisits, if_neg hnil]
      exact ⟨t, h⟩
    obtain ⟨A, s', hdump, hA, hagain, hsink, -, -⟩ := dumpDocument_ok hv.closed hnil h
      (s := { sink := [], opened := opened }) rfl
      (show d.nodes.length < d.nodes.length + 1 + k by omega)
    simp only [prepared, List.nil_append] at hsink
    obtain ⟨l, hload, hl⟩ := load_ok hv hnil h hA hagain opened
      (show _ < s'.sink.length + 1 + k by rw [hsink]; simp; omega)
    obtain ⟨ws, hlen, hws, htypes⟩ := nodes_of_walk (A := A) hv.closed h
      (by simpa using Document.has_one hnil)
    obtain ⟨u, rfl⟩ := List.length_eq_one_iff.mp hlen
    refine ⟨deleteDocumentAndAnchors s', l, order, .documentStart :: u ++ .documentEnd :: [],
      by rw [dump, hdump], ?_, .cons (hws u (by simp)) .nil, ?_, hfirst, fun i => hfirst.mem_iff,
      fun i hi j he => position_injective hi he, by rw [hl]; rfl⟩
    · have hu : ((t.flatMap (dataAt d A)).map unplaced).map Event.type = u := by
        simpa [typesAt, Event.type, unplaced, Function.comp_def] using htypes
      simp only [deleteDocumentAndAnchors, hsink, hnil, if_false]
      rw [List.map_append, List.map_append, hu]
      cases opened <;> simp [unplaced, Event.type, EventData.type]
    · simp only [deleteDocumentAndAnchors]
      rw [hsink] at hload ⊢
      exact hload

/-- A sequence that contains itself, and another node twice. -/
def cyclic : Document :=
  { nodes := [⟨defaultSequenceTag, .sequence [3, 1, 3] .flow, .zero, .zero⟩,
      ⟨defaultScalarTag, .scalar [] .plain, .zero, .zero⟩,
      ⟨defaultMappingTag, .mapping [(1, 3)] .block, .zero, .zero⟩] }

theorem load_dump_cyclic : cyclic.nodes ≠ [] ∧
    ∃ (s' : Dumper (List Event)) (l : Loader EventList) (order : List Nat) (w : List EventType),
      dump 4 cyclic { sink := [], opened := false } = .ok () s' ∧
      s'.sink.map Event.type = [.streamStart] ++ w ++ [] ∧ EventGrammar.Documents w ∧
      load (s'.sink.length + 1) (reading s'.sink false) = .ok () l ∧
      cyclic.FirstVisits order ∧ (∀ i, i ∈ order ↔ cyclic.Reachable i) ∧
      (∀ i ∈ order, ∀ j, position order i = position order j → i = j) ∧
      l.document.nodes = order.map (loaded cyclic order) := by
  refine ⟨by decide, load_dump cyclic ⟨?_, ?_, ?_, ?_, ?_⟩ false 0⟩
  · simp [cyclic, NodeData.children, Document.Has]
  · decide
  · decide
  · simp [cyclic, stackLimit]
  · simp [cyclic, stackLimit]

end Loader

end LibYaml
