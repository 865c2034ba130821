import LibYaml.Loading.Sources

/-!
# Two sources of the same events

Loading makes the same documents of two sources that deliver the same events and fail in the same way.
-/

namespace LibYaml

open Fallible

namespace Loader

variable {σ τ : Type}

/-- The same loader over another source. -/
def onto (s : Loader σ) (source : τ) : Loader τ := ⟨source, s.aliases, s.document, s.ctx⟩

/-- Two loaders with related sources, which agree in everything else. -/
def Alike (R : σ → τ → Prop) (s : Loader σ) (t : Loader τ) : Prop := R s.source t.source ∧ t = s.onto t.source

section Events

variable {R : σ → τ → Prop} {i length : Nat} {node : Node} {anchor : Option Bytes} {e : Event}

/-- A part of loading that does the same with both. -/
abbrev Same {α : Type} (R : σ → τ → Prop) (x : LoadM σ α) (y : LoadM τ α) : Prop :=
  Sim (Alike R) x y (fun _ => Alike R) fun _ => Alike R

theorem same_checkStackLimit : Same R (checkStackLimit length) (checkStackLimit length) :=
  Sim.ite (fun _ => Sim.pure fun _ _ h => h) fun _ => Sim.throw fun _ _ h => h

theorem same_getNode : Same R (getNode i) (getNode i) := by
  intro s t h
  have hdocument : t.document = s.document := by rw [h.2]; rfl
  unfold getNode
  rw [hdocument]
  cases s.document.node? i with
  | none => exact ⟨rfl, h⟩
  | some node => exact ⟨rfl, h⟩

theorem same_setNode : Same R (setNode i node) (setNode i node) :=
  Sim.modify fun s t h => ⟨h.1, by rw [h.2]; rfl⟩

theorem same_pushNode : Same R (pushNode node) (pushNode node) := by
  intro s t h
  have hdocument : t.document = s.document := by rw [h.2]; rfl
  refine ⟨by rw [hdocument], h.1, ?_⟩
  rw [h.2]
  rfl

theorem Same.here {α : Type} {x : LoadM σ α} {y : LoadM τ α} {s : Loader σ} {t : Loader τ} (hx : Same R x y)
    (h : Alike R s t) : Sim (fun s' t' => s' = s ∧ t' = t) x y (fun _ => Alike R) fun _ => Alike R :=
  hx.of (by rintro _ _ ⟨rfl, rfl⟩; exact h)

theorem same_throw {α : Type} {f : Fault} : Same R (throw f : LoadM σ α) (throw f) := Sim.throw fun _ _ h => h

theorem same_registerAnchor : Same R (registerAnchor i anchor) (registerAnchor i anchor) := by
  cases anchor with
  | none => exact Sim.pure fun _ _ h => h
  | some anchor =>
    refine same_getNode.bind fun node => Sim.getThen fun s t h => ?_
    have haliases : t.aliases = s.aliases := by rw [h.2]; rfl
    have hadd (data : AliasData) : Same R (modify fun s => { s with aliases := s.aliases ++ [data] })
        (modify fun s => { s with aliases := s.aliases ++ [data] }) :=
      Sim.modify fun s t h => ⟨h.1, by rw [h.2]; rfl⟩
    rw [haliases]
    cases s.aliases.find? fun d => cstr d.anchor = cstr anchor with
    | none => exact (hadd _).here h
    | some d => exact same_throw.here h

theorem same_loadNodeAdd : Same R (loadNodeAdd i) (loadNodeAdd i) := by
  refine Sim.getThen fun s t h => ?_
  have hctx : t.ctx = s.ctx := by rw [h.2]; rfl
  rw [hctx]
  cases s.ctx with
  | nil => exact Sim.pure (by rintro _ _ ⟨rfl, rfl⟩; exact h)
  | cons parentIndex ctx =>
    refine (same_getNode.here h).bind fun parent => ?_
    cases parent.data with
    | scalar => exact same_throw
    | sequence => exact same_checkStackLimit.bind fun _ => same_setNode
    | mapping =>
      dsimp only
      split_ifs
      · exact same_setNode
      · exact same_checkStackLimit.bind fun _ => same_setNode

theorem same_loadAlias {anchor : Bytes} {mark : Mark} : Same R (loadAlias anchor mark) (loadAlias anchor mark) := by
  refine Sim.getThen fun s t h => ?_
  have haliases : t.aliases = s.aliases := by rw [h.2]; rfl
  rw [haliases]
  cases s.aliases.find? fun d => cstr d.anchor = cstr anchor with
  | none => exact same_throw.here h
  | some d => exact same_loadNodeAdd.here h

theorem same_addNode : Same R (addNode anchor node) (addNode anchor node) := by
  refine Sim.getThen fun s t h => ?_
  have hdocument : t.document = s.document := by rw [h.2]; rfl
  rw [hdocument]
  refine (same_checkStackLimit.here h).bind fun _ => same_pushNode.bind fun i => same_registerAnchor.bind fun _ => ?_
  exact same_loadNodeAdd.bind fun _ => Sim.pure fun _ _ h => h

theorem same_pushContext : Same R (pushContext i) (pushContext i) := by
  refine Sim.getThen fun s t h => ?_
  have hctx : t.ctx = s.ctx := by rw [h.2]; rfl
  rw [hctx]
  exact (same_checkStackLimit.here h).bind fun _ => Sim.modify fun s t h => ⟨h.1, by rw [h.2]; rfl⟩

theorem same_closeContext {kind : NodeData → Bool} {mark : Mark} :
    Same R (closeContext kind mark) (closeContext kind mark) := by
  refine Sim.getThen fun s t h => ?_
  have hctx : t.ctx = s.ctx := by rw [h.2]; rfl
  rw [hctx]
  cases s.ctx with
  | nil => exact same_throw.here h
  | cons index rest =>
    refine (same_getNode.here h).bind fun node => Sim.ite (fun _ => ?_) fun _ => same_throw
    exact same_setNode.bind fun _ => Sim.modify fun s t h => ⟨h.1, by rw [h.2]; rfl⟩

theorem same_loadEvent : Same R (loadEvent e) (loadEvent e) := by
  obtain ⟨data, startMark, endMark⟩ := e
  unfold loadEvent
  cases data with
  | «alias» => exact same_loadAlias
  | scalar => exact same_addNode.bind fun _ => Sim.pure fun _ _ h => h
  | sequenceStart => exact same_addNode.bind fun _ => same_pushContext
  | sequenceEnd => exact same_closeContext
  | mappingStart => exact same_addNode.bind fun _ => same_pushContext
  | mappingEnd => exact same_closeContext
  | _ => exact same_throw

end Events

/-! ## Loads -/

section Loads

variable [EventSource σ] [EventSource τ]

/-- Two sources deliver the same events and fail in the same way; what has no event to deliver need not know
whether the stream has been started. -/
structure Paired (R : σ → τ → Prop) : Prop where
  next : ∀ {s t}, R s t → (∃ e s' t', EventSource.next s = .ok e s' ∧ EventSource.next t = .ok e t' ∧ R s' t')
    ∨ ∃ f s' t', EventSource.next s = .error f s' ∧ EventSource.next t = .error f t' ∧ R s' t'
  ended : ∀ {s t}, R s t → EventSource.streamEndProduced s = EventSource.streamEndProduced t
  started : ∀ {s t}, R s t → EventSource.streamStartProduced s = EventSource.streamStartProduced t
    ∨ (∃ e, EventSource.next s = .ok e s) ∧ ∃ e, EventSource.next t = .ok e t
  refused : ∀ {s t} (problem : Problem), R s t → R (EventSource.setError problem s) (EventSource.setError problem t)

variable {R : σ → τ → Prop} {e : Event} {fuel : Nat}

theorem same_next (hR : Paired R) : Same R next next := by
  intro s t h
  rcases hR.next h.1 with ⟨e, source, source', hs, ht, h'⟩ | ⟨f, source, source', hs, ht, h'⟩
  · rw [Flow.next_of hs, Flow.next_of ht]
    exact ⟨rfl, h', by rw [h.2]; rfl⟩
  · rw [Flow.next_of_error hs, Flow.next_of_error ht]
    exact ⟨rfl, h', by rw [h.2]; rfl⟩

theorem same_loadNodes (hR : Paired R) : ∀ fuel, Same R (loadNodes fuel) (loadNodes fuel)
  | 0 => same_throw
  | fuel + 1 => by
    refine (same_next hR).bind fun e => ?_
    have hevent : Same R (loadEvent e >>= fun _ => loadNodes fuel) (loadEvent e >>= fun _ => loadNodes fuel) :=
      same_loadEvent.bind fun _ => same_loadNodes hR fuel
    obtain ⟨data, startMark, endMark⟩ := e
    cases data with
    | documentEnd => exact Sim.modify fun s t h => ⟨h.1, by rw [h.2]; rfl⟩
    | _ => exact hevent

theorem same_loadDocument (hR : Paired R) : Same R (loadDocument fuel e) (loadDocument fuel e) := by
  obtain ⟨data, startMark, endMark⟩ := e
  unfold loadDocument
  cases data with
  | documentStart => exact (Sim.modify fun s t h => ⟨h.1, by rw [h.2]; rfl⟩).bind fun _ => same_loadNodes hR fuel
  | noEvent => exact (Sim.modify fun s t h => ⟨h.1, by rw [h.2]; rfl⟩).bind fun _ => same_loadNodes hR fuel
  | _ => exact same_throw.bind fun _ => same_loadNodes hR fuel

theorem same_loadNext (hR : Paired R) (fuel : Nat) : Same R (Flow.loadNext fuel) (Flow.loadNext fuel) := by
  have hclear : Same R (modify fun s => { s with aliases := [] }) (modify fun s => { s with aliases := [] }) :=
    Sim.modify fun s t h => ⟨h.1, by rw [h.2]; rfl⟩
  refine Sim.getThen fun s t h => ?_
  rw [hR.ended h.1]
  refine Sim.ite (fun _ => Sim.pure (by rintro _ _ ⟨rfl, rfl⟩; exact h)) fun _ => ?_
  refine ((same_next hR).here h).bind fun e => ?_
  refine Sim.ite (fun _ => Sim.pure fun _ _ h => h) fun _ => ?_
  exact hclear.bind fun _ => (same_loadDocument hR).bind fun _ => hclear

theorem same_loadStream (hR : Paired R) (fuel : Nat) : Same R (loadStream fuel) (loadStream fuel) := by
  intro s t h
  have hcleared : Alike R { s with document := {} } { t with document := {} } := ⟨h.1, by rw [h.2]; rfl⟩
  have hfresh := (same_next hR).bind fun _ => same_loadNext hR fuel
  have hboth := same_loadNext hR fuel _ _ hcleared
  cases hs : EventSource.streamStartProduced s.source <;> cases ht : EventSource.streamStartProduced t.source
  · rw [Flow.loadStream_fresh hs, Flow.loadStream_fresh ht]
    exact hfresh _ _ hcleared
  · obtain ⟨⟨e, hnext⟩, -⟩ := (hR.started h.1).resolve_left (by rw [hs, ht]; exact Bool.false_ne_true)
    have hidle : next { s with document := {} } = .ok e { s with document := {} } := Flow.next_of hnext
    rw [Flow.loadStream_fresh hs, Flow.loadStream_started ht, bind_of_ok hidle]
    exact hboth
  · obtain ⟨-, e, hnext⟩ := (hR.started h.1).resolve_left (by rw [hs, ht]; exact Bool.false_ne_true.symm)
    have hidle : next { t with document := {} } = .ok e { t with document := {} } := Flow.next_of hnext
    rw [Flow.loadStream_started hs, Flow.loadStream_fresh ht, bind_of_ok hidle]
    exact hboth
  · rw [Flow.loadStream_started hs, Flow.loadStream_started ht]
    exact hboth

/-- A load does the same with both. -/
theorem same_load (hR : Paired R) (fuel : Nat) : Same R (load fuel) (load fuel) := by
  intro s t h
  have hstream := same_loadStream hR fuel s t h
  unfold load
  cases hs : loadStream fuel s <;> cases ht : loadStream fuel t <;> rw [hs, ht] at hstream <;> try exact hstream.elim
  · exact hstream
  · obtain ⟨rfl, hsources, honto⟩ := hstream
    rename_i f s' t'
    refine ⟨rfl, ?_⟩
    cases f with
    | reported problem => exact ⟨hR.refused problem hsources, by rw [honto]; rfl⟩
    | silent => exact ⟨hsources, by rw [honto]; rfl⟩
    | undefined => exact ⟨hsources, by rw [honto]; rfl⟩
    | outOfFuel => exact ⟨hsources, by rw [honto]; rfl⟩

end Loads

end Loader

end LibYaml
