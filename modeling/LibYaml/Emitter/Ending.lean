import LibYaml.Emitter.Stacks
import LibYaml.Emitter.Starting

/-!
# How a run of the emitter ends

Only the stream's end brings the emitter into its last state, and it does so behind a flush.  So
whenever the emitter is there, all it has written has been handed over.
-/

namespace LibYaml

namespace Emitter

open Fallible

variable {σ : Type}

/-- The stream has not ended, and no state to come back to is the last one. -/
def Open (s : Emitter σ) : Prop := s.state ≠ .end ∧ .end ∉ s.states

/-- The computation does not end the stream. -/
def StaysOpen {α : Type} (x : EmitM σ α) : Prop := Holds Open x (fun _ => Open) fun _ => Open

namespace StaysOpen

variable {α β : Type} {x : EmitM σ α}

theorem pure (a : α) : StaysOpen (pure a : EmitM σ α) := Holds.pure fun _ h => h

theorem throw (e : Fault) : StaysOpen (throw e : EmitM σ α) := Holds.throw fun _ h => h

theorem bind {f : α → EmitM σ β} (hx : StaysOpen x) (hf : ∀ a, StaysOpen (f a)) :
    StaysOpen (x >>= f) :=
  Holds.bind hx hf

theorem get : StaysOpen (get : EmitM σ (Emitter σ)) := Holds.get fun _ h => h

theorem ite {c : Prop} [Decidable c] {y : EmitM σ α} (hx : StaysOpen x) (hy : StaysOpen y) :
    StaysOpen (if c then x else y) :=
  Holds.ite (fun _ => hx) fun _ => hy

theorem onlyIf {c : Bool} {x : EmitM σ Unit} (hx : StaysOpen x) : StaysOpen (onlyIf c x) :=
  ite hx (pure ())

theorem forM {l : List β} {f : β → EmitM σ Unit} (hf : ∀ b, StaysOpen (f b)) :
    StaysOpen (l.forM f) := by
  induction l with
  | nil => exact pure ()
  | cons b l ih => exact bind (hf b) fun _ => ih

/-- An update of anything but the states. -/
theorem update {f : Emitter σ → Emitter σ} (hs : ∀ s, (f s).state = s.state)
    (hss : ∀ s, (f s).states = s.states) : StaysOpen (modify f) :=
  Holds.modify fun s h => ⟨hs s ▸ h.1, hss s ▸ h.2⟩

theorem setState {state : EmitterState} (hs : state ≠ .end) : StaysOpen (setState state : EmitM σ Unit) :=
  Holds.modify fun _ h => ⟨hs, h.2⟩

theorem pushState {state : EmitterState} (hs : state ≠ .end) : StaysOpen (pushState state : EmitM σ Unit) :=
  Holds.modify fun _ h => ⟨h.1, by simpa [hs.symm] using h.2⟩

theorem popState : StaysOpen (popState : EmitM σ Unit) := by
  rintro s ⟨hs, hss⟩
  unfold Emitter.popState
  rcases hst : s.states with _ | ⟨state, states⟩
  · exact ⟨hs, hss⟩
  · rw [hst] at hss
    exact ⟨fun h => hss (h ▸ List.mem_cons_self), fun h => hss (List.mem_cons_of_mem _ h)⟩

theorem popIndent : StaysOpen (popIndent : EmitM σ Unit) := by
  intro s h
  unfold Emitter.popIndent
  rcases s.indents with _ | ⟨indent, indents⟩
  · exact h
  · exact h

/-- What writes or checks keeps the states. -/
theorem of_keeps {E : Fault → Prop} (h : Keeps stacksOf E x) : StaysOpen x := by
  intro s hs
  have hk := h (stacksOf s) s rfl
  rcases hx : x s with ⟨a, t⟩ | ⟨e, t⟩ <;> rw [hx] at hk
  · have h1 : t.state = s.state := congrArg Stacks.state hk
    have h2 : t.states = s.states := congrArg Stacks.states hk
    exact ⟨h1 ▸ hs.1, h2 ▸ hs.2⟩
  · have h1 : t.state = s.state := congrArg Stacks.state hk.1
    have h2 : t.states = s.states := congrArg Stacks.states hk.1
    exact ⟨h1 ▸ hs.1, h2 ▸ hs.2⟩

theorem of_core {E : Fault → Prop} (h : Keeps core E x) : StaysOpen x :=
  of_keeps (h.mono Prod.fst fun _ => rfl)

variable [WriteHandler σ]

theorem writeIndicator (indicator : Bytes) (needWhitespace isWhitespace isIndention : Bool) :
    StaysOpen (writeIndicator indicator needWhitespace isWhitespace isIndention : EmitM σ Unit) :=
  of_core (keeps_writeIndicator _ _ _ _)

theorem writeIndent : StaysOpen (writeIndent : EmitM σ Unit) := of_core keeps_writeIndent

theorem writeScalar (style : ScalarStyle) (value : Bytes) (allowBreaks : Bool) :
    StaysOpen (writeScalar style value allowBreaks : EmitM σ Unit) := by
  by_cases hs : style = .any
  · rw [hs]
    exact throw _
  · exact of_core (keeps_writeScalar hs _ _)

theorem emitNode (event : Event) (root sequence mapping simpleKey : Bool) :
    StaysOpen (emitNode event root sequence mapping simpleKey : EmitM σ Unit) := by
  refine bind (update (fun _ => rfl) fun _ => rfl) fun _ => ?_
  have hanchor : StaysOpen (processAnchor : EmitM σ Unit) := of_core keeps_processAnchor
  have htag : StaysOpen (processTag : EmitM σ Unit) := of_core keeps_processTag
  rcases event with ⟨data, _, _⟩
  cases data with
  | «alias» a =>
    exact bind hanchor fun _ => bind get fun _ => bind (onlyIf (of_core (keeps_put _))) fun _ => popState
  | scalar a tag value plainImplicit quotedImplicit style =>
    have hselect : StaysOpen (selectScalarStyle plainImplicit quotedImplicit style : EmitM σ Unit) :=
      bind get fun _ => ite (throw _) (update (fun _ => rfl) fun _ => rfl)
    exact bind hselect fun _ => bind hanchor fun _ => bind htag fun _ =>
      bind (update (fun _ => rfl) fun _ => rfl) fun _ => bind (bind get fun _ => writeScalar _ _ _)
        fun _ => bind popIndent fun _ => popState
  | sequenceStart a tag implicit style =>
    exact bind hanchor fun _ => bind htag fun _ => bind get fun _ =>
      ite (setState nofun) (setState nofun)
  | mappingStart a tag implicit style =>
    exact bind hanchor fun _ => bind htag fun _ => bind get fun _ =>
      ite (setState nofun) (setState nofun)
  | _ => exact throw _

theorem emitStreamStart (event : Event) : StaysOpen (emitStreamStart event : EmitM σ Unit) := by
  refine bind (update (fun _ => rfl) fun _ => rfl) fun _ => ?_
  rcases event with ⟨data, _, _⟩
  cases data with
  | streamStart encoding =>
    exact bind (update (fun _ => rfl) fun _ => rfl) fun _ => bind get fun _ =>
      bind (onlyIf (of_core keeps_writeBom)) fun _ => setState nofun
  | _ => exact throw _

theorem writeDocumentEnd :
    StaysOpen (writeDocumentEndMarker >>= fun _ => Emitter.writeIndent : EmitM σ Unit) :=
  bind (writeIndicator _ _ _ _) fun _ => writeIndent

theorem startDocument (first : Bool) (versionDirective : Option VersionDirective)
    (tagDirectives : List TagDirective) (implicit : Bool) :
    StaysOpen (startDocument first versionDirective tagDirectives implicit : EmitM σ Unit) := by
  have happend (allow : Bool) (d : TagDirective) :
      StaysOpen (appendTagDirective allow d : EmitM σ Unit) :=
    bind get fun _ => ite (ite (pure ()) (throw _)) (update (fun _ => rfl) fun _ => rfl)
  have hdeclare (d : TagDirective) : StaysOpen (declareTagDirective d : EmitM σ Unit) :=
    bind (ite (throw _) (ite (throw _) (ite (throw _) (ite (throw _) (ite (throw _) (pure ())))))) fun _ =>
      happend false d
  have hcheck : StaysOpen (checkVersionDirective versionDirective : EmitM σ Unit) := by
    cases versionDirective with
    | none => exact pure ()
    | some v => exact ite (throw _) (pure ())
  have hversion : StaysOpen (writeVersion versionDirective : EmitM σ Unit) := by
    cases versionDirective with
    | none => exact pure ()
    | some v => exact bind (writeIndicator _ _ _ _) fun _ => bind (writeIndicator _ _ _ _) fun _ => writeIndent
  have htag (d : TagDirective) : StaysOpen (writeTagDirective d : EmitM σ Unit) :=
    bind (writeIndicator _ _ _ _) fun _ => bind (of_core (keeps_writeTagHandle _)) fun _ =>
      bind (of_core (keeps_writeTagContent _ _)) fun _ => writeIndent
  have hstart : StaysOpen (writeDocumentStartMarker : EmitM σ Unit) :=
    bind writeIndent fun _ => bind (writeIndicator _ _ _ _) fun _ => bind get fun _ => onlyIf writeIndent
  exact bind hcheck fun _ => bind (forM hdeclare) fun _ => bind (forM (happend true)) fun _ =>
    bind get fun _ => bind (onlyIf writeDocumentEnd) fun _ => bind (update (fun _ => rfl) fun _ => rfl)
      fun _ => bind hversion fun _ => bind (forM htag) fun _ => bind (onlyIf hstart) fun _ =>
        bind (setState nofun) fun _ => update (fun _ => rfl) fun _ => rfl

theorem emitDocumentContent (event : Event) : StaysOpen (emitDocumentContent event : EmitM σ Unit) :=
  bind (pushState nofun) fun _ => emitNode _ _ _ _ _

theorem emitDocumentEnd (event : Event) : StaysOpen (emitDocumentEnd event : EmitM σ Unit) := by
  rcases event with ⟨data, _, _⟩
  cases data with
  | documentEnd implicit =>
    have hclose : StaysOpen (closeDocument implicit : EmitM σ Unit) :=
      ite (update (fun _ => rfl) fun _ => rfl) (bind (writeIndicator _ _ _ _) fun _ =>
        bind (update (fun _ => rfl) fun _ => rfl) fun _ => writeIndent)
    exact bind writeIndent fun _ => bind hclose fun _ => bind (of_core keeps_flush) fun _ =>
      Holds.modify fun _ h => ⟨nofun, h.2⟩
  | _ => exact throw _

theorem openFlow (bracket : Char) : StaysOpen (openFlow bracket : EmitM σ Unit) :=
  bind (writeIndicator _ _ _ _) fun _ => bind (update (fun _ => rfl) fun _ => rfl) fun _ =>
    update (fun _ => rfl) fun _ => rfl

theorem closeFlow (bracket : Char) (first : Bool) :
    StaysOpen (closeFlow bracket first : EmitM σ Unit) :=
  bind (update (fun _ => rfl) fun _ => rfl) fun _ => bind popIndent fun _ => bind get fun _ =>
    bind (onlyIf (bind (writeIndicator _ _ _ _) fun _ => writeIndent)) fun _ =>
      bind (writeIndicator _ _ _ _) fun _ => popState

theorem breakLongLine : StaysOpen (breakLongLine : EmitM σ Unit) := of_core keeps_breakLongLine

theorem separateEntries (first : Bool) : StaysOpen (separateEntries first : EmitM σ Unit) :=
  bind (onlyIf (writeIndicator _ _ _ _)) fun _ => breakLongLine

theorem emitFlowSequenceItem (event : Event) (first : Bool) :
    StaysOpen (emitFlowSequenceItem event first : EmitM σ Unit) :=
  bind (onlyIf (openFlow _)) fun _ => ite (closeFlow _ _) (bind (separateEntries _) fun _ =>
    bind (pushState nofun) fun _ => emitNode _ _ _ _ _)

theorem emitFlowMappingKey (event : Event) (first : Bool) :
    StaysOpen (emitFlowMappingKey event first : EmitM σ Unit) :=
  bind (onlyIf (openFlow _)) fun _ => ite (bind get fun _ => ite (throw _) (closeFlow _ _))
    (bind (separateEntries _) fun _ => bind get fun _ =>
      ite (bind (pushState nofun) fun _ => emitNode _ _ _ _ _)
        (bind (writeIndicator _ _ _ _) fun _ => bind (pushState nofun) fun _ => emitNode _ _ _ _ _))

theorem emitFlowMappingValue (event : Event) (simple : Bool) :
    StaysOpen (emitFlowMappingValue event simple : EmitM σ Unit) :=
  bind (ite (writeIndicator _ _ _ _) (bind breakLongLine fun _ => writeIndicator _ _ _ _)) fun _ =>
    bind (pushState nofun) fun _ => emitNode _ _ _ _ _

omit [WriteHandler σ] in
theorem closeBlock : StaysOpen (closeBlock : EmitM σ Unit) := bind popIndent fun _ => popState

theorem emitBlockSequenceItem (event : Event) (first : Bool) :
    StaysOpen (emitBlockSequenceItem event first : EmitM σ Unit) :=
  bind get fun _ => bind (onlyIf (update (fun _ => rfl) fun _ => rfl)) fun _ => ite closeBlock
    (bind writeIndent fun _ => bind (writeIndicator _ _ _ _) fun _ => bind (pushState nofun) fun _ =>
      emitNode _ _ _ _ _)

theorem emitBlockMappingKey (event : Event) (first : Bool) :
    StaysOpen (emitBlockMappingKey event first : EmitM σ Unit) :=
  bind (onlyIf (update (fun _ => rfl) fun _ => rfl)) fun _ => ite closeBlock
    (bind writeIndent fun _ => bind get fun _ =>
      ite (bind (pushState nofun) fun _ => emitNode _ _ _ _ _)
        (bind (writeIndicator _ _ _ _) fun _ => bind (pushState nofun) fun _ => emitNode _ _ _ _ _))

theorem emitBlockMappingValue (event : Event) (simple : Bool) :
    StaysOpen (emitBlockMappingValue event simple : EmitM σ Unit) :=
  bind (ite (writeIndicator _ _ _ _) (bind writeIndent fun _ => writeIndicator _ _ _ _)) fun _ =>
    bind (pushState nofun) fun _ => emitNode _ _ _ _ _

end StaysOpen

section Runs

variable [WriteHandler σ]

/-- Behind the stream's end nothing is left in the buffer. -/
def Ended (s : Emitter σ) : Prop := (s.state = .end → s.buffer = []) ∧ .end ∉ s.states

omit [WriteHandler σ] in
theorem Open.ended {s : Emitter σ} (h : Open s) : Ended s := ⟨fun hs => absurd hs h.1, h.2⟩

omit [WriteHandler σ] in
theorem StaysOpen.ended {x : EmitM σ Unit} (hx : StaysOpen x) :
    Holds Open x (fun _ => Ended) fun _ => Ended :=
  hx.weaken (fun _ h => h) (fun _ _ => Open.ended) fun _ _ => Open.ended

theorem ended_endStream : Holds Open (endStream : EmitM σ Unit) (fun _ => Ended) fun _ => Ended := by
  have hmark : StaysOpen (writeDocumentEndMarker >>= fun _ => setOpenEnded 0 >>= fun _ =>
      writeIndent : EmitM σ Unit) :=
    .bind (.writeIndicator _ _ _ _) fun _ => .bind (.update (fun _ => rfl) fun _ => rfl) fun _ =>
      .writeIndent
  have hflush : Holds Open (flush : EmitM σ Unit) (fun _ s => Open s ∧ s.buffer = [])
      fun _ => Open := by
    intro s hs
    have ho : StaysOpen (flush : EmitM σ Unit) := .of_core keeps_flush
    have ho := ho s hs
    rcases hf : flush s with ⟨a, t⟩ | ⟨e, t⟩ <;> rw [hf] at ho
    · exact ⟨ho, (buffer_of_flush hf).1⟩
    · exact ho
  have hlast : Holds Open (flush >>= fun _ => setState .end : EmitM σ Unit) (fun _ => Ended)
      fun _ => Ended := by
    refine Holds.bind (hflush.weaken (fun _ h => h) (fun _ _ h => h) fun _ _ => Open.ended) fun _ => ?_
    exact Holds.modify fun s h => ⟨fun _ => h.2, h.1.2⟩
  refine Holds.bind (StaysOpen.get.weaken (fun _ h => h) (fun _ _ h => h) fun _ _ => Open.ended)
    fun s => Holds.bind ?_ fun _ => hlast
  exact (StaysOpen.onlyIf hmark).weaken (fun _ h => h) (fun _ _ h => h) fun _ _ => Open.ended

theorem ended_emitDocumentStart (event : Event) (first : Bool) :
    Holds Open (emitDocumentStart event first : EmitM σ Unit) (fun _ => Ended) fun _ => Ended := by
  rcases event with ⟨data, _, _⟩
  cases data with
  | documentStart v ts implicit => exact (StaysOpen.startDocument first v ts implicit).ended
  | streamEnd => exact ended_endStream
  | _ => exact (StaysOpen.throw _).ended

theorem ended_runState {state : EmitterState} (h : state ≠ .end) (event : Event) :
    Holds Open (runState state event : EmitM σ Unit) (fun _ => Ended) fun _ => Ended := by
  cases state with
  | streamStart => exact (StaysOpen.emitStreamStart event).ended
  | firstDocumentStart => exact ended_emitDocumentStart _ _
  | documentStart => exact ended_emitDocumentStart _ _
  | documentContent => exact (StaysOpen.emitDocumentContent event).ended
  | documentEnd => exact (StaysOpen.emitDocumentEnd event).ended
  | flowSequenceFirstItem => exact (StaysOpen.emitFlowSequenceItem event true).ended
  | flowSequenceItem => exact (StaysOpen.emitFlowSequenceItem event false).ended
  | flowMappingFirstKey => exact (StaysOpen.emitFlowMappingKey event true).ended
  | flowMappingKey => exact (StaysOpen.emitFlowMappingKey event false).ended
  | flowMappingSimpleValue => exact (StaysOpen.emitFlowMappingValue event true).ended
  | flowMappingValue => exact (StaysOpen.emitFlowMappingValue event false).ended
  | blockSequenceFirstItem => exact (StaysOpen.emitBlockSequenceItem event true).ended
  | blockSequenceItem => exact (StaysOpen.emitBlockSequenceItem event false).ended
  | blockMappingFirstKey => exact (StaysOpen.emitBlockMappingKey event true).ended
  | blockMappingKey => exact (StaysOpen.emitBlockMappingKey event false).ended
  | blockMappingSimpleValue => exact (StaysOpen.emitBlockMappingValue event true).ended
  | blockMappingValue => exact (StaysOpen.emitBlockMappingValue event false).ended
  | «end» => exact absurd rfl h

theorem ended_processEvent (event : Event) :
    Holds Ended (processEvent event : EmitM σ Unit) (fun _ => Ended) fun _ => Ended := by
  have hanalyze : Holds Ended (analyzeEvent event : EmitM σ Unit) (fun _ => Ended) fun _ => Ended := by
    intro s hs
    have ho := outside_analyzeEvent event (outside s) s rfl
    have hk := keeps_analyzeEvent event (stacksOf s) s rfl
    have hended (t : Emitter σ) (ho : outside t = outside s) (hk : stacksOf t = stacksOf s) : Ended t := by
      have h1 : t.state = s.state := congrArg Prod.fst ho
      have h2 : t.buffer = s.buffer := congrArg (fun o => o.2.2.2.buffer) ho
      have h3 : t.states = s.states := congrArg Stacks.states hk
      exact ⟨fun ht => h2.trans (hs.1 (h1.symm.trans ht)), h3 ▸ hs.2⟩
    rcases ha : analyzeEvent event s with ⟨a, t⟩ | ⟨e, t⟩ <;> rw [ha] at ho hk
    · exact hended t ho hk
    · exact hended t ho.1 hk.1
  have hmachine : Holds Ended (stateMachine event : EmitM σ Unit) (fun _ => Ended) fun _ => Ended := by
    intro s hs
    rw [stateMachine, bind_of_ok (get_apply s)]
    by_cases he : s.state = .end
    · rw [he]
      exact hs
    · exact ended_runState he event s ⟨he, hs.2⟩
  exact Holds.bind hanalyze fun _ => Holds.bind hmachine fun _ => Holds.modify fun _ h => h

theorem ended_processEvents (n : Nat) :
    Holds Ended (processEvents n : EmitM σ Unit) (fun _ => Ended) fun _ => Ended := by
  induction n with
  | zero => exact Holds.pure fun _ h => h
  | succ n ih =>
    intro s hs
    rw [processEvents, bind_of_ok (get_apply s)]
    rcases s.events with _ | ⟨event, events⟩
    · exact hs
    by_cases hn : needMoreEvents (event :: events)
    · simp only [hn, if_true]
      exact hs
    · simp only [hn]
      exact Holds.bind (ended_processEvent event) (fun _ => ih) s hs

theorem ended_emit (event : Event) :
    Holds Ended (emit event : EmitM σ Unit) (fun _ => Ended) fun _ => Ended :=
  Holds.bind (Holds.modify fun _ h => h) fun _ => Holds.bind (Holds.get fun _ h => h) fun _ =>
    ended_processEvents _

/-- A run that has come to the stream's end has handed over all it has written. -/
theorem ended_emits (events : List Event) :
    Holds Ended (events.forM emit : EmitM σ Unit) (fun _ => Ended) fun _ => Ended := by
  induction events with
  | nil => exact Holds.pure fun _ h => h
  | cons e es ih => exact Holds.bind (ended_emit e) fun _ => ih

end Runs

end Emitter

end LibYaml
