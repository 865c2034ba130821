import LibYaml.RoundTrip.Graph
import LibYaml.Indices.Building
import LibYaml.Indices.Loading

/-!
# The indices that a dump looks up

Both passes of the dumper look up indices only that occur in the document, so a dump of a closed
document stays within its nodes: whatever the sink does, the dump fails only with what the sink has
failed with (`dump_closed`).
-/

namespace LibYaml

namespace Dumper

open Fallible DepthFirst

variable {σ : Type} [EventSink σ] {d : Document} {A : Nat → Nat} {seen seen' as : List Nat} {i : Nat}

/-- The sink has failed with `f`. -/
def FromSink (f : Fault) (_ : Dumper σ) : Prop :=
  ∃ (e : Event) (s t : σ), EventSink.emit e s = .error f t

theorem emit_keeps (data : EventData) {P : Dumper σ → Prop}
    (hP : ∀ s sink, P s → P { s with sink := sink }) :
    Holds P (emit data) (fun _ => P) FromSink := by
  intro s hs
  unfold emit
  rcases h : EventSink.emit ⟨data, .zero, .zero⟩ s.sink with ⟨_, t⟩ | ⟨f, t⟩
  · exact hP s t hs
  · exact ⟨_, _, _, h⟩

theorem emit_serializing (data : EventData) : Holds (Serializing (σ := σ) d A seen) (emit data)
    (fun _ => Serializing d A seen) FromSink :=
  emit_keeps data fun _ _ hs => ⟨hs.document, hs.length, hs.anchor, hs.serialized⟩

theorem dumpNode_again_spec (fuel : Nat) (hi : d.Has i) (hs : i ∈ seen) (ha : A i ≠ 0) :
    Holds (Serializing (σ := σ) d A seen) (dumpNode (fuel + 1) i) (fun _ => Serializing d A seen)
      FromSink := by
  intro s h
  obtain ⟨node, hn, -⟩ := hi.node
  have htext : anchorText (A i) = some (generateAnchor (A i)) := if_pos ha
  rw [dumpNode, bind_of_ok (lookup_serializing h hi hn)]
  simp only [h.anchor i hi, (h.serialized i hi).mpr hs, htext, if_true]
  exact emit_serializing _ s h

theorem dumpNode_enter_spec {fuel : Nat} (hi : d.Has i) (hs : i ∉ seen)
    (hchildren : Holds (Serializing (σ := σ) d A (seen ++ [i])) ((d.children i).forM (dumpNode fuel))
      (fun _ => Serializing d A seen') FromSink) :
    Holds (Serializing (σ := σ) d A seen) (dumpNode (fuel + 1) i) (fun _ => Serializing d A seen')
      FromSink := by
  intro s h
  obtain ⟨node, hn, -⟩ := hi.node
  have hser : (anchorsAt s i).serialized = false := by
    rw [← Bool.not_eq_true, h.serialized i hi]
    exact hs
  have hset : setAnchors i { anchorsAt s i with serialized := true } s = .ok () (marked s i) := rfl
  rw [dumpNode, bind_of_ok (lookup_serializing h hi hn)]
  simp only [hser, Bool.false_eq_true, if_false]
  rw [bind_of_ok hset]
  have hc : d.children i = node.data.children := by simp [Document.children, hn]
  rw [hc] at hchildren
  have hmarked := h.marked hi
  rcases hd : node.data with ⟨value, style⟩ | ⟨items, style⟩ | ⟨pairs, style⟩ <;>
    rw [hd] at hchildren
  · exact emit_serializing _ _ (hchildren _ hmarked)
  · exact ((emit_serializing _).bind fun _ => hchildren.bind fun _ => emit_serializing _) _ hmarked
  · simp only [dumpMapping]
    rw [forM_pairs]
    exact ((emit_serializing _).bind fun _ => hchildren.bind fun _ => emit_serializing _) _ hmarked

/-- The second pass over a walk looks up what the walk comes to. -/
theorem dumpNode_walk_spec (hv : d.Closed) {t : List (Step Nat)}
    (h : Walk d.children seen as t seen') : ∀ (fuel : Nat), (∀ i ∈ as, d.Has i) →
      (∀ i, .again i ∈ t → A i ≠ 0) → seen'.length < seen.length + fuel →
      Holds (Serializing (σ := σ) d A seen) (as.forM (dumpNode fuel))
        (fun _ => Serializing d A seen') FromSink := by
  induction h with
  | nil => exact fun _ _ _ _ => .pure fun _ h => h
  | @again seen seen' as a t ha h ih =>
    intro fuel has hA hlt
    have hle := h.length_le
    obtain ⟨fuel, rfl⟩ : ∃ n, fuel = n + 1 := ⟨fuel - 1, by omega⟩
    rw [forM_cons]
    refine (dumpNode_again_spec fuel (has a List.mem_cons_self) ha (hA a List.mem_cons_self)).bind
      fun _ => ?_
    exact ih _ (fun b hb => has b (List.mem_cons_of_mem _ hb))
      (fun b hb => hA b (List.mem_cons_of_mem _ hb)) hlt
  | @enter seen seen' seen'' as a t u ha h₁ h₂ ih₁ ih₂ =>
    intro fuel has hA hlt
    have hle₁ := h₁.length_le
    have hle₂ := h₂.length_le
    simp only [List.length_append, List.length_singleton] at hle₁
    obtain ⟨fuel, rfl⟩ : ∃ n, fuel = n + 1 := ⟨fuel - 1, by omega⟩
    have hi := has a List.mem_cons_self
    have hchildren := ih₁ fuel (fun j hj => hv.has_of_mem hi hj) (fun b hb => hA b (by simp [hb]))
      (by simp; omega)
    rw [forM_cons]
    refine (dumpNode_enter_spec hi ha hchildren).bind fun _ => ?_
    exact ih₂ (fuel + 1) (fun b hb => has b (List.mem_cons_of_mem _ hb))
      (fun b hb => hA b (by simp [hb])) (by omega)

/-- The stream is open, and the document is the one to dump. -/
def Opened (d : Document) (s : Dumper σ) : Prop := s.document = some d ∧ s.opened = true

theorem closeStream_spec : Holds (Opened (σ := σ) d) closeStream (fun _ _ => True) FromSink := by
  unfold closeStream
  refine Holds.bind (.get (Q := fun a s => a = s ∧ Opened d s) fun _ h => ⟨rfl, h⟩) fun s => ?_
  refine .ite (fun hs => ?_) fun _ => .ite (fun _ => .pure fun _ _ => trivial) fun _ => ?_
  · rintro _ ⟨rfl, -, ho⟩
    exact absurd ho hs
  · refine Holds.bind (Q := fun _ _ => True) ?_ fun _ => .modify fun _ _ => trivial
    exact (emit_keeps (P := fun _ => True) _ fun _ _ h => h).weaken (fun _ _ => trivial)
      (fun _ _ h => h) fun _ _ h => h

theorem openStream_spec : Holds (fun s : Dumper σ => s.document = some d ∧ s.opened = false)
    openStream (fun _ => Opened d) FromSink := by
  unfold openStream
  refine Holds.bind (.get (Q := fun a s => a = s ∧ s.document = some d ∧ s.opened = false)
    fun _ h => ⟨rfl, h⟩) fun s => .ite (fun hs => ?_) fun _ => ?_
  · rintro _ ⟨rfl, -, ho⟩
    rw [ho] at hs
    cases hs
  · refine Holds.bind (Q := fun _ s => s.document = some d) ?_ fun _ => .modify fun _ h => ⟨h, rfl⟩
    exact (emit_keeps (P := fun s => s.document = some d) _ fun _ _ h => h).weaken
      (fun _ h => h.2.1) (fun _ _ h => h) fun _ _ h => h

/-- The nodes of a document with a root. -/
theorem dumpRoot_spec (hv : d.Closed) (hne : d.nodes ≠ []) {fuel : Nat}
    (hf : d.nodes.length < fuel) : Holds (fun s : Dumper σ =>
        s.document = some d ∧ s.anchors = List.replicate d.nodes.length {})
      (do anchorNode fuel 1; dumpNode fuel 1; emit (.documentEnd d.endImplicit))
      (fun _ _ => True) FromSink := by
  rintro s ⟨hd, ha⟩
  obtain ⟨t, order, h⟩ := hv.exists_walk hne
  obtain ⟨A, s₁, hok, -, -, hagain, hs₁⟩ := anchorNode_root hv hne h hd ha hf
  have hwalk := dumpNode_walk_spec (σ := σ) hv h fuel (by simpa using Document.has_one hne) hagain
    (length_lt_of_walk hv hne h hf)
  have hroot : Holds (Serializing (σ := σ) d A []) (dumpNode fuel 1)
      (fun _ => Serializing d A order) FromSink := by
    intro u hu
    have hu' := hwalk u hu
    rw [forM_cons, bind_apply] at hu'
    rcases hr : dumpNode fuel 1 u with ⟨_, v⟩ | ⟨f, v⟩ <;> rw [hr] at hu' <;> exact hu'
  rw [bind_of_ok hok]
  exact (hroot.bind fun _ => (emit_serializing _).weaken (fun _ h => h) (fun _ _ _ => trivial)
    fun _ _ h => h) s₁ hs₁

theorem dumpDocument_spec (hv : d.Closed) {fuel : Nat} (hf : d.nodes.length < fuel) :
    Holds (fun _ : Dumper σ => True) (dumpDocument fuel d) (fun _ _ => True) FromSink := by
  unfold dumpDocument
  refine Holds.bind (.modify (Q := fun _ s => s.document = some d) fun _ _ => rfl) fun _ => ?_
  refine Holds.bind (.get (Q := fun a s => a = s ∧ s.document = some d) fun _ h => ⟨rfl, h⟩)
    fun s => ?_
  have hrest : Holds (Opened (σ := σ) d) (if d.nodes = [] then closeStream
      else do
        modify fun s => { s with anchors := List.replicate d.nodes.length {} }
        emit (.documentStart d.versionDirective d.tagDirectives d.startImplicit)
        anchorNode fuel 1
        dumpNode fuel 1
        emit (.documentEnd d.endImplicit)) (fun _ _ => True) FromSink := by
    refine .ite (fun _ => ?_) fun hne => ?_
    · exact closeStream_spec
    · refine Holds.bind (.modify (Q := fun _ s => s.document = some d ∧
        s.anchors = List.replicate d.nodes.length {}) fun s h => ⟨h.1, rfl⟩) fun _ => ?_
      exact (emit_keeps _ fun _ _ h => h).bind fun _ => dumpRoot_spec hv hne hf
  refine .ite (fun hopened => ?_) fun hopened => ?_
  · rintro _ ⟨rfl, hd⟩
    exact hrest s ⟨hd, hopened⟩
  · rintro _ ⟨rfl, hd⟩
    exact (openStream_spec.bind fun _ => hrest) s ⟨hd, by simpa using hopened⟩

/-- A dump of a closed document ends as the sink lets it. -/
theorem dump_closed (hv : d.Closed) {fuel : Nat} (hf : d.nodes.length < fuel) :
    Holds (fun _ : Dumper σ => True) (dump fuel d) (fun _ _ => True) FromSink := by
  intro s hs
  have h := dumpDocument_spec hv hf s hs
  unfold dump
  rcases hr : dumpDocument fuel d s with ⟨_, t⟩ | ⟨f, t⟩ <;> rw [hr] at h
  · trivial
  · exact h

end Dumper

/-- Documents that calls build, whatever fails in between, and documents that loads return hold
indices of their nodes only; a dump of such a document fails with nothing but what the emitter
fails with. -/
theorem index_integrity :
    (∀ s, Building.Built s → s.document.Closed) ∧
      (∀ (c : Building.Call) (s t : Building) (code : Int), Building.Built s → c.adds = true →
        Building.perform c s = .ok code t →
        ∃ node, t.document = { s.document with nodes := s.document.nodes ++ [node] } ∧
          code = (s.document.nodes.length + 1 : Nat) ∧
          t.document.node? (s.document.nodes.length + 1) = some node) ∧
      (∀ (c : Building.Call) (s t : Building) (e : Unit), Building.perform c s = .error e t →
        t.document = s.document) ∧
      (∀ (tokens : List Token) (failure : Problem) (fuel : Nat) (s t : Loader (Parser TokenList)),
        Loader.Reached tokens failure s → Loader.load fuel s = .ok () t → t.document.Closed) ∧
      ∀ (σ : Type) [EventSink σ] (d : Document) (fuel : Nat) (s t : Dumper σ) (f : Fault),
        d.Closed → d.nodes.length < fuel → Dumper.dump fuel d s = .error f t →
        ∃ (e : Event) (u v : σ), EventSink.emit e u = .error f v := by
  refine ⟨fun s h => (Building.built_sound h).closed, fun c s t code h hc hp => ?_,
    fun c s t e hp => ?_, fun tokens failure fuel s t h hl => ?_,
    fun σ _ d fuel s t f hv hf hd => ?_⟩
  · exact Building.added_spec h hc hp
  · exact (Building.perform_spec s.document c).error rfl hp
  · exact ((Loader.load_spec fuel).ok (Loader.reached_between h) hl).1
  · exact (Dumper.dump_closed hv hf).error trivial hd

end LibYaml
