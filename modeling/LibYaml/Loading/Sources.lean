import LibYaml.Indices.Loading

/-!
# Where the events come from

A source of events follows the grammar up to the end of the stream, or fails and delivers nothing more.  From
such a source every load comes to its end: with a document whose indices are those of its nodes, or with a
problem that has been recorded.
-/

namespace LibYaml

open Fallible EventGrammar

/-- What loading counts on: where words of `K` may follow at most `n` events are to come, and the next of them is
delivered or a failure is. -/
structure Flow (σ : Type) [EventSource σ] where
  Fresh : Nat → σ → Prop
  Going : (List EventType → Prop) → Nat → σ → Prop
  Over : σ → Prop
  Failed : σ → Prop
  fresh : ∀ {n s}, Fresh n s → EventSource.streamStartProduced s = false ∧
    ((∃ e t m, EventSource.next s = .ok e t ∧ m < n ∧ Going StreamRest m t)
      ∨ ∃ problem t, EventSource.next s = .error (.reported problem) t ∧ Failed t)
  going : ∀ {K n s}, Going K n s → EventSource.streamStartProduced s = true ∧ EventSource.streamEndProduced s = false ∧
    ((∃ e t K' m, EventSource.next s = .ok e t ∧ m < n ∧ (∀ w, K' w → K (e.type :: w)) ∧ (∃ w, K' w)
        ∧ (e.type ≠ .streamEnd ∧ Going K' m t ∨ e.type = .streamEnd ∧ Over t))
      ∨ ∃ problem t, EventSource.next s = .error (.reported problem) t ∧ Failed t)
  ended : ∀ {s}, Over s → EventSource.streamStartProduced s = true ∧ EventSource.streamEndProduced s = true
  failed : ∀ {s}, Failed s → EventSource.streamEndProduced s = false ∧ EventSource.next s = .ok Event.empty s
  refused : ∀ {K n s} (problem : Problem), Going K n s → Failed (EventSource.setError problem s)
  again : ∀ {s} (problem : Problem), Failed s → Failed (EventSource.setError problem s)

/-! ## The root -/

namespace Loader

variable {σ : Type}

/-- Whether the document has no node yet. -/
def bare (s : Loader σ) : Bool := s.document.nodes.isEmpty

/-- Nothing but a new node changes whether there is one. -/
abbrev Furnishes {σ α : Type} (x : LoadM σ α) : Prop := Keeps bare (fun _ => True) x

theorem furnishes_checkStackLimit (length : Nat) : Furnishes (checkStackLimit (σ := σ) length) :=
  .ite .pure (.throw trivial)

theorem furnishes_getNode (i : Nat) : Furnishes (getNode (σ := σ) i) := by
  rintro _ s rfl
  unfold getNode
  cases s.document.node? i with
  | none => exact ⟨rfl, trivial⟩
  | some node => rfl

theorem furnishes_setNode (i : Nat) (node : Node) : Furnishes (setNode (σ := σ) i node) :=
  .modify fun s => Bool.eq_iff_iff.mpr (by simp [bare])

theorem furnishes_registerAnchor (i : Nat) (anchor : Option Bytes) : Furnishes (registerAnchor (σ := σ) i anchor) := by
  unfold registerAnchor
  split
  · exact .pure
  · refine .bind (furnishes_getNode i) fun node => .bind .get fun s => ?_
    split
    · exact .throw trivial
    · exact .modify fun _ => rfl

theorem furnishes_loadNodeAdd (i : Nat) : Furnishes (loadNodeAdd (σ := σ) i) := by
  unfold loadNodeAdd
  refine .bind .get fun s => ?_
  split
  · exact .pure
  · refine .bind (furnishes_getNode _) fun parent => ?_
    split
    · exact .throw trivial
    · exact .bind (furnishes_checkStackLimit _) fun _ => furnishes_setNode _ _
    · split
      · exact furnishes_setNode _ _
      · exact .bind (furnishes_checkStackLimit _) fun _ => furnishes_setNode _ _

theorem furnishes_pushContext (i : Nat) : Furnishes (pushContext (σ := σ) i) :=
  .bind .get fun _ => .bind (furnishes_checkStackLimit _) fun _ => .modify fun _ => rfl

theorem Furnishes.stays {α : Type} {x : LoadM σ α} (h : Furnishes x) :
    Holds (fun s : Loader σ => s.bare = false) x (fun _ s => s.bare = false) fun _ _ => True :=
  (h false).weaken (fun _ h => h) (fun _ _ h => h) fun _ _ _ => trivial

theorem addNode_furnished (anchor : Option Bytes) (node : Node) :
    Holds (fun _ => True) (addNode (σ := σ) anchor node) (fun _ s => s.bare = false) fun _ _ => True := by
  have hpush : Holds (fun _ => True) (pushNode (σ := σ) node) (fun _ s => s.bare = false) fun _ _ => True := by
    intro s _
    simp [pushNode, bare]
  refine Holds.getThen fun s _ => (Holds.const trivial).bind fun _ => hpush.bind fun i => ?_
  refine (furnishes_registerAnchor i anchor).stays.bind fun _ => ?_
  exact (furnishes_loadNodeAdd i).stays.bind fun _ => .pure fun _ h => h

theorem closeContext_furnished (kind : NodeData → Bool) (endMark : Mark) :
    Holds (fun _ => True) (closeContext (σ := σ) kind endMark) (fun _ s => s.bare = false) fun _ _ => True := by
  intro s _
  unfold closeContext
  rw [bind_of_ok (get_apply s)]
  cases s.ctx with
  | nil => trivial
  | cons index rest =>
    cases hn : s.document.node? index with
    | none =>
      have hget : getNode index s = .error .undefined s := by simp [getNode, hn]
      dsimp only
      rw [bind_of_error hget]
      trivial
    | some node =>
      have hbare : s.bare = false := by
        obtain ⟨hpos, hle⟩ := has_of_node? hn
        simp [bare, List.ne_nil_of_length_pos (by omega : 0 < s.document.nodes.length)]
      dsimp only
      rw [bind_of_ok (getNode_node? hn)]
      refine Holds.ite (P := fun s : Loader σ => s.bare = false) (fun _ => ?_) (fun _ => ?_) s hbare
      · exact (furnishes_setNode _ _).stays.bind fun _ => .modify fun _ h => h
      · exact .throw fun _ _ => trivial

theorem loadAlias_furnished (anchor : Bytes) (startMark : Mark) :
    Holds (fun s : Loader σ => s.bare = true → s.aliases = []) (loadAlias anchor startMark) (fun _ s => s.bare = false)
      fun _ _ => True := by
  intro s hs
  unfold loadAlias
  rw [bind_of_ok (get_apply s)]
  cases hd : s.aliases.find? fun d => cstr d.anchor = cstr anchor with
  | none => trivial
  | some d =>
    refine (furnishes_loadNodeAdd d.index).stays s (Bool.eq_false_iff.mpr fun hbare => ?_)
    rw [hs hbare] at hd
    cases hd

/-- Where an event of a document has been taken the document has a node. -/
theorem loadEvent_furnished (e : Event) : Holds (fun s : Loader σ => s.bare = true → s.aliases = []) (loadEvent e)
    (fun _ s => s.bare = false) fun _ _ => True := by
  have hnode {α : Type} {x : LoadM σ α} (hx : Holds (fun _ => True) x (fun _ s => s.bare = false) fun _ _ => True) :
      Holds (fun s : Loader σ => s.bare = true → s.aliases = []) x (fun _ s => s.bare = false) fun _ _ => True :=
    hx.weaken (fun _ _ => trivial) (fun _ _ h => h) fun _ _ h => h
  unfold loadEvent
  split
  · exact loadAlias_furnished _ _
  · exact (hnode (addNode_furnished _ _)).bind fun _ => .pure fun _ h => h
  · exact (hnode (addNode_furnished _ _)).bind fun _ => (furnishes_pushContext _).stays
  · exact hnode (closeContext_furnished _ _)
  · exact (hnode (addNode_furnished _ _)).bind fun _ => (furnishes_pushContext _).stays
  · exact hnode (closeContext_furnished _ _)
  · exact .throw fun _ _ => trivial

end Loader

namespace Flow

open Loader

variable {σ : Type} [EventSource σ] (F : Flow σ)

/-- A document may begin, or the stream ends. -/
def Begins (n : Nat) (s : σ) : Prop := ∃ K, F.Going K n s ∧ ∀ w, K w → StreamRest w

/-- The collections `fs` are open. -/
structure Inside (fs : List Frame) (n : Nat) (s : Loader σ) : Prop where
  grows : Grows fs s
  rooted : s.bare = true → fs ≠ [] ∧ s.aliases = []
  going : ∃ K, F.Going K n s.source ∧ ∀ w, K w → Due fs w

/-- The failure has a problem, and nothing is delivered once it has been recorded. -/
def Refuses (f : Fault) (s : Loader σ) : Prop :=
  ∃ problem, f = .reported problem ∧ F.Failed (EventSource.setError problem s.source)

/-- A closed document with a root, and fewer events to come than there were. -/
structure Built (n : Nat) (s : Loader σ) : Prop where
  closed : s.document.Closed
  root : s.bare = false
  begins : ∃ m < n, F.Begins m s.source

variable {F} {fs : List Frame} {fuel n m : Nat} {e : Event} {s t : Loader σ} {source : σ}

theorem next_of (h : EventSource.next s.source = .ok e source) : next s = .ok e { s with source := source } := by
  simp only [next, h]

theorem next_of_error {f : Fault} (h : EventSource.next s.source = .error f source) :
    next s = .error f { s with source := source } := by
  simp only [next, h]

theorem loadNodes_end (fuel : Nat) (h : next s = .ok e t) (he : e.type = .documentEnd) :
    ∃ implicit, loadNodes (fuel + 1) s = .ok () { t with
      document := { t.document with endImplicit := implicit, endMark := e.endMark } } := by
  obtain ⟨data, startMark, endMark⟩ := e
  rw [loadNodes, bind_of_ok h]
  cases data with
  | documentEnd implicit => exact ⟨implicit, rfl⟩
  | _ => simp [Event.type, EventData.type] at he

/-- The nodes of a document: up to its end the loader takes one event after another. -/
theorem loadNodes_built : ∀ {fuel n : Nat} {fs : List Frame}, n < fuel →
    Holds (F.Inside fs n) (loadNodes fuel) (fun _ => F.Built n) F.Refuses
  | fuel + 1, n, fs, hn => by
    rintro s ⟨hgrows, hrooted, K, hgoing, hdue⟩
    rcases (F.going hgoing).2.2 with ⟨e, source, K', m, hnext, hm, hwords, ⟨w₀, hw₀⟩, hrest⟩ |
      ⟨problem, source, hnext, hfailed⟩
    · have htaken := next_of hnext
      have hallowed (w : List EventType) (hw : K' w) := due_cons (hdue _ (hwords w hw))
      by_cases hend : e.type = .documentEnd
      · -- nothing is open any more
        obtain rfl : fs = [] := by
          have h := (hallowed w₀ hw₀).1
          rwa [hend] at h
        obtain ⟨implicit, hload⟩ := loadNodes_end fuel htaken hend
        rw [hload]
        refine ⟨hgrows.closed_nil, ?_, m, hm, K', (hrest.resolve_right fun h => ?_).2, fun w hw => ?_⟩
        · exact Bool.eq_false_iff.mpr fun hbare => (hrooted hbare).1 rfl
        · rw [hend] at h
          cases h.1
        · obtain ⟨v, hv, hcons⟩ := hdue _ (hwords w hw)
          exact (List.cons.inj hcons).2 ▸ hv
      · have hgoing' : F.Going K' m source := by
          refine (hrest.resolve_right fun h => ?_).2
          have hstop := (hallowed w₀ hw₀).1
          rw [h.1] at hstop
          exact hstop
        rw [loadNodes_event htaken hend]
        have hevent := loadEvent_spec (hallowed w₀ hw₀).1 hend { s with source := source } hgrows
        have hsource := apart_loadEvent e source { s with source := source } rfl
        have hroot := loadEvent_furnished e { s with source := source } fun hbare => (hrooted hbare).2
        rcases hl : loadEvent e { s with source := source } with ⟨_, t⟩ | ⟨f, t⟩ <;> rw [hl] at hevent hsource hroot
        · obtain rfl : t.source = source := hsource
          rw [bind_of_ok hl]
          have hdue' (w : List EventType) (hw : K' w) := (hallowed w hw).2.resolve_left hend
          have hrooted' : t.bare = true → advance fs e.type ≠ [] ∧ t.aliases = [] := by
            simp [show t.bare = false from hroot]
          have hlater := loadNodes_built (by omega : m < fuel) t ⟨hevent, hrooted', K', hgoing', hdue'⟩
          rcases hr : loadNodes fuel t with ⟨_, u⟩ | ⟨f, u⟩ <;> rw [hr] at hlater
          · obtain ⟨hclosed, hbare, k, hk, hbegins⟩ := hlater
            exact ⟨hclosed, hbare, k, by omega, hbegins⟩
          · exact hlater
        · obtain ⟨problem, rfl⟩ := hevent
          obtain rfl : t.source = source := hsource.1
          rw [bind_of_error hl]
          exact ⟨problem, rfl, F.refused problem hgoing'⟩
    · rw [loadNodes, bind_of_error (next_of_error hnext)]
      exact ⟨problem, rfl, F.again problem hfailed⟩

/-- The start of a document has been delivered. -/
theorem loadDocument_built (hn : n < fuel) (he : e.type = .documentStart) :
    Holds (fun s : Loader σ => s.document = {} ∧ s.aliases = [] ∧ ∃ K, F.Going K n s.source ∧ ∀ w, K w → Due [.root] w)
      (loadDocument fuel e) (fun _ => F.Built n) F.Refuses := by
  rintro s ⟨hd, ha, hgoing⟩
  obtain ⟨data, startMark, endMark⟩ := e
  unfold loadDocument
  cases data with
  | documentStart =>
    have hrooted : s.bare = true → [Frame.root] ≠ [] ∧ s.aliases = [] := fun _ => ⟨List.cons_ne_nil _ _, ha⟩
    refine loadNodes_built hn _ ⟨⟨.root, List.nodup_nil, fun i node hnode => ?_, ?_⟩, hrooted, hgoing⟩
    · simp [Document.node?, hd] at hnode
    · simp [ha]
  | _ => simp [Event.type, EventData.type] at he

/-- What one load comes to: a document, or nothing at the end of the stream. -/
def Loads (n : Nat) (s : Loader σ) : Prop := F.Built n s ∨ s.document = {} ∧ F.Over s.source

/-- What follows the start of the stream in a load. -/
def loadNext (fuel : Nat) : LoadM σ Unit := do
  let s ← get
  if EventSource.streamEndProduced s.source then pure ()
  else do
    let event ← next
    if event.type = .streamEnd then pure ()
    else do
      modify fun s => { s with aliases := [] }
      loadDocument fuel event
      modify fun s => { s with aliases := [] }

/-- Where documents begin the next event ends the stream or starts one of them. -/
theorem Begins.next (h : F.Begins n source) :
    (∃ e source', EventSource.next source = .ok e source' ∧ (e.type = .streamEnd ∧ F.Over source'
        ∨ e.type = .documentStart ∧ ∃ m < n, ∃ K, F.Going K m source' ∧ ∀ w, K w → Due [.root] w))
      ∨ ∃ problem source', EventSource.next source = .error (.reported problem) source' ∧ F.Failed source' := by
  obtain ⟨K, hgoing, hK⟩ := h
  refine (F.going hgoing).2.2.imp_left ?_
  rintro ⟨e, source', K', m, hnext, hm, hwords, ⟨w₀, hw₀⟩, ⟨he, hgoing'⟩ | hover⟩
  · have hstarts (w : List EventType) (hw : K' w) := (streamRest_cons (hK _ (hwords w hw))).resolve_left fun h => he h.1
    exact ⟨e, source', hnext, .inr ⟨(hstarts w₀ hw₀).1, m, hm, K', hgoing', fun w hw => (hstarts w hw).2⟩⟩
  · exact ⟨e, source', hnext, .inl hover⟩

theorem loadNext_loads (hn : n < fuel) :
    Holds (fun s : Loader σ => s.document = {} ∧ F.Begins n s.source) (loadNext fuel) (fun _ => F.Loads n)
      F.Refuses := by
  rintro s ⟨hd, hbegins⟩
  obtain ⟨K, hgoing, -⟩ := id hbegins
  unfold loadNext
  rw [bind_of_ok (get_apply s), if_neg (by rw [(F.going hgoing).2.1]; exact Bool.false_ne_true)]
  rcases hbegins.next with ⟨e, source, hnext, ⟨he, hover⟩ | ⟨he, m, hm, hroot⟩⟩ | ⟨problem, source, hnext, hfailed⟩
  · rw [bind_of_ok (next_of hnext), if_pos he]
    exact .inr ⟨hd, hover⟩
  · rw [bind_of_ok (next_of hnext), if_neg (by rw [he]; exact EventType.noConfusion), bind_of_ok (modify_apply _ _)]
    refine Holds.bind (loadDocument_built (by omega : m < fuel) he) (fun _ => Holds.modify ?_) _ ⟨hd, rfl, hroot⟩
    rintro t ⟨hclosed, hbare, k, hk, hbegins'⟩
    exact .inl ⟨hclosed, hbare, k, by omega, hbegins'⟩
  · rw [bind_of_error (next_of_error hnext)]
    exact ⟨problem, rfl, F.again problem hfailed⟩

/-- Where a load may start: at the first event, or between two documents. -/
def Starts (F : Flow σ) (n : Nat) (s : σ) : Prop := F.Fresh n s ∨ F.Begins n s

theorem loadStream_started (h : EventSource.streamStartProduced s.source = true) :
    loadStream fuel s = loadNext fuel { s with document := {} } := by
  unfold loadStream
  rw [bind_of_ok (modify_apply _ _), bind_of_ok (get_apply _), if_pos h]
  rfl

theorem loadStream_fresh (h : EventSource.streamStartProduced s.source = false) :
    loadStream fuel s = (next >>= fun _ => loadNext fuel) { s with document := {} } := by
  unfold loadStream
  rw [bind_of_ok (modify_apply _ _), bind_of_ok (get_apply _), if_neg (by simp [h])]
  rfl

theorem loadStream_loads (hn : n < fuel) :
    Holds (fun s : Loader σ => F.Starts n s.source) (loadStream fuel) (fun _ => F.Loads n) F.Refuses := by
  rintro s (hfresh | hbegins)
  · obtain ⟨hstart, hnext⟩ := F.fresh hfresh
    rw [loadStream_fresh hstart]
    rcases hnext with ⟨e, source, m, hnext, hm, hgoing⟩ | ⟨problem, source, hnext, hfailed⟩
    · have hfirst : next { s with document := {} } = .ok e { s with document := {}, source := source } := next_of hnext
      rw [bind_of_ok hfirst]
      have hlater := loadNext_loads (F := F) (by omega : m < fuel) { s with document := {}, source := source }
        ⟨rfl, _, hgoing, fun _ h => h⟩
      rcases hl : loadNext fuel { s with document := {}, source := source } with ⟨_, t⟩ | ⟨f, t⟩ <;> rw [hl] at hlater
      · exact hlater.imp_left fun h => ⟨h.closed, h.root, h.begins.imp fun k hk => ⟨by omega, hk.2⟩⟩
      · exact hlater
    · have hfirst : next { s with document := {} } = .error (.reported problem)
          { s with document := {}, source := source } := next_of_error hnext
      rw [bind_of_error hfirst]
      exact ⟨problem, rfl, F.again problem hfailed⟩
  · obtain ⟨K, hgoing, -⟩ := id hbegins
    rw [loadStream_started (F.going hgoing).1]
    exact loadNext_loads hn _ ⟨rfl, hbegins⟩

/-- A load builds a document, comes to the end of the stream, or fails with a problem. -/
theorem load_loads (hn : n < fuel) : Holds (fun s : Loader σ => F.Starts n s.source) (load fuel) (fun _ => F.Loads n)
    fun f s => (∃ problem, f = .reported problem) ∧ F.Failed s.source := by
  intro s hs
  have hstream := loadStream_loads hn s hs
  unfold load
  rcases hl : loadStream fuel s with ⟨_, t⟩ | ⟨f, t⟩ <;> rw [hl] at hstream
  · exact hstream
  · obtain ⟨problem, rfl, hfailed⟩ := hstream
    exact ⟨⟨problem, rfl⟩, hfailed⟩

/-- Behind the end of the stream there is nothing to load. -/
theorem load_over (h : F.Over s.source) : load fuel s = .ok () { s with document := {} } := by
  have hnext : loadNext fuel { s with document := {} } = .ok () { s with document := {} } := by
    unfold loadNext
    rw [bind_of_ok (get_apply _), if_pos (F.ended h).2]
    rfl
  unfold load
  rw [loadStream_started (F.ended h).1, hnext]

theorem next_failed (h : F.Failed s.source) : next s = .ok Event.empty s := by
  rw [next_of (F.failed h).2]

theorem loadNodes_failed (h : F.Failed s.source) : loadNodes (fuel + 1) s = .error .silent s := by
  rw [loadNodes_event (next_failed h) EventType.noConfusion]
  rfl

/-- The empty event is taken for the start of a document, and none of its nodes. -/
theorem loadNext_failed (h : F.Failed s.source) :
    loadNext (fuel + 1) s = .error .silent { s with aliases := [], ctx := [] } := by
  have hnodes : loadNodes (fuel + 1) { s with aliases := [], ctx := [] }
      = .error .silent { s with aliases := [], ctx := [] } := loadNodes_failed (F := F) h
  have hdocument : loadDocument (fuel + 1) Event.empty { s with aliases := [] }
      = .error .silent { s with aliases := [], ctx := [] } := hnodes
  have hended : EventSource.streamEndProduced s.source = false := (F.failed h).1
  unfold loadNext
  rw [bind_of_ok (get_apply s), if_neg (by rw [hended]; exact Bool.false_ne_true), bind_of_ok (next_failed h),
    if_neg EventType.noConfusion, bind_of_ok (modify_apply _ _), bind_of_error hdocument]

/-- Behind a failure a load fails, without another word. -/
theorem load_failed (fuel : Nat) (h : F.Failed s.source) :
    ∃ t, load (fuel + 1) s = .error .silent t ∧ t.source = s.source := by
  have hcleared : F.Failed ({ s with document := {} } : Loader σ).source := h
  have hstream : loadStream (fuel + 1) s = .error .silent { s with document := {}, aliases := [], ctx := [] } := by
    cases hs : EventSource.streamStartProduced s.source with
    | true => rw [loadStream_started hs, loadNext_failed hcleared]
    | false => rw [loadStream_fresh hs, bind_of_ok (next_failed hcleared), loadNext_failed hcleared]
  refine ⟨{ s with document := {}, aliases := [], ctx := [] }, ?_, rfl⟩
  unfold load
  rw [hstream]
  rfl

end Flow

end LibYaml
