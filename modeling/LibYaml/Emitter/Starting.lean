import LibYaml.Emitter.Alongside

/-!
# How a run of the emitter starts

The first event decides.  If it is a stream's start, the emitter is configured from then on;
otherwise the event stays at the head of the queue, every call fails or waits, and nothing is
written.
-/

namespace LibYaml

namespace Emitter

open Fallible

variable {σ : Type}

section Calls

variable [WriteHandler σ]

/-- `yaml_emitter_flush`: a failure while the encoding is not known. -/
def flushOutput : EmitM σ Unit := fun s =>
  if s.encoding = .any then .error .silent s else flush s

/-- What the caller can do with an emitter that is set up. -/
inductive Call
  | emit (event : Event)
  | flush

def Call.run : Call → EmitM σ Unit
  | .emit event => Emitter.emit event
  | .flush => flushOutput

/-- One call after the other, whatever they answer, as long as they come back. -/
def perform : List Call → EmitM σ Unit
  | [] => pure ()
  | c :: cs => fun s => match c.run s with
    | .ok _ t => perform cs t
    | .error fault t => if returns fault then perform cs t else .error fault t

theorem perform_cons (c : Call) (cs : List Call) (s : Emitter σ) :
    perform (c :: cs) s = match c.run s with
      | .ok _ t => perform cs t
      | .error fault t => if returns fault then perform cs t else .error fault t := rfl

theorem final_perform_cons (c : Call) (cs : List Call) (s : Emitter σ) :
    final (perform (c :: cs) s) = final (perform cs (final (c.run s))) ∨
      final (perform (c :: cs) s) = final (c.run s) := by
  rw [perform_cons]
  rcases c.run s with ⟨⟨⟩, t⟩ | ⟨fault, t⟩
  · exact .inl rfl
  · simp only []
    split
    · exact .inl rfl
    · exact .inr rfl

/-- What every call keeps holds at the end of the run. -/
theorem perform_invariant {I : Emitter σ → Prop}
    (h : ∀ (c : Call) (s : Emitter σ), I s → I (final (c.run s)))
    (cs : List Call) {s : Emitter σ} (hs : I s) : I (final (perform cs s)) := by
  induction cs generalizing s with
  | nil => exact hs
  | cons c cs ih =>
    rcases final_perform_cons c cs s with he | he
    · rw [he]
      exact ih (h c s hs)
    · rw [he]
      exact h c s hs

theorem perform_emits (es : List Event) (s : Emitter σ) :
    perform (es.map .emit) s = calls es s := by
  induction es generalizing s with
  | nil => rfl
  | cons e es ih =>
    have hc : calls (e :: es) s = match emit e s with
        | .ok _ t => calls es t
        | .error fault t => if returns fault then calls es t else .error fault t := rfl
    rw [List.map_cons, perform_cons, hc, Call.run]
    rcases emit e s with ⟨⟨⟩, t⟩ | ⟨fault, t⟩
    · exact ih t
    · simp only [ih]

end Calls

section Waiting

/-- What decides while the stream has not started. -/
def outside (s : Emitter σ) : EmitterState × List Event × Encoding × Channel σ :=
  (s.state, s.events, s.encoding, s.channel)

theorem outside_analyzeAnchor (anchor : Bytes) (isAlias : Bool) :
    Keeps outside (fun _ => True) (analyzeAnchor anchor isAlias : EmitM σ Unit) :=
  .ite (.throw trivial) (.ite (.throw trivial) (.modify fun _ => rfl))

theorem outside_analyzeTag (tag : Bytes) :
    Keeps outside (fun _ => True) (analyzeTag tag : EmitM σ Unit) := by
  refine .bind .get fun s => .ite (.throw trivial) ?_
  cases abbreviation s.tagDirectives (cstr tag) with
  | none => exact .modify fun _ => rfl
  | some d => exact .modify fun _ => rfl

theorem outside_analyzeNodeAnchor (anchor : Option Bytes) :
    Keeps outside (fun _ => True) (analyzeNodeAnchor anchor : EmitM σ Unit) := by
  cases anchor with
  | none => exact .pure
  | some anchor => exact outside_analyzeAnchor _ _

theorem outside_analyzeNodeTag (implicit : Bool) (tag : Option Bytes) :
    Keeps outside (fun _ => True) (analyzeNodeTag implicit tag : EmitM σ Unit) := by
  cases tag with
  | none => exact .pure
  | some tag => exact .bind .get fun _ => .onlyIf (outside_analyzeTag _)

theorem outside_analyzeEvent (event : Event) :
    Keeps outside (fun _ => True) (analyzeEvent event : EmitM σ Unit) := by
  refine .bind (.modify fun _ => rfl) fun _ => ?_
  rcases event with ⟨data, _, _⟩
  cases data with
  | «alias» a => exact outside_analyzeAnchor a true
  | scalar a tag value =>
    exact .bind (outside_analyzeNodeAnchor a) fun _ => .bind (outside_analyzeNodeTag _ _) fun _ =>
      .ite (.modify fun _ => rfl) (.bind (keeps_charactersOf _ trivial) fun _ =>
        .modify fun _ => rfl)
  | sequenceStart a tag =>
    exact .bind (outside_analyzeNodeAnchor a) fun _ => outside_analyzeNodeTag _ _
  | mappingStart a tag =>
    exact .bind (outside_analyzeNodeAnchor a) fun _ => outside_analyzeNodeTag _ _
  | _ => exact .pure

variable [WriteHandler σ]

theorem outside_emitStreamStart {event : Event} (h : event.type ≠ .streamStart) :
    Keeps outside (fun _ => True) (emitStreamStart event : EmitM σ Unit) := by
  refine .bind (.modify fun _ => rfl) fun _ => ?_
  rcases event with ⟨data, _, _⟩
  cases data with
  | streamStart => exact absurd rfl h
  | _ => exact .throw trivial

/-- Nothing but an event that starts no stream heads the queue, and nothing is written. -/
def Waiting (s : Emitter σ) : Prop :=
  s.state = .streamStart ∧ ∀ e ∈ s.events.head?, e.type ≠ .streamStart

theorem processEvent_waiting {event : Event} (h : event.type ≠ .streamStart) {s : Emitter σ}
    (hs : s.state = .streamStart) :
    ∃ fault t, processEvent event s = .error fault t ∧ outside t = outside s := by
  have ha := outside_analyzeEvent event (outside s) s rfl
  rcases hae : analyzeEvent event s with ⟨⟨⟩, u⟩ | ⟨fault, u⟩ <;> rw [hae] at ha
  · have hu : u.state = .streamStart := (congrArg Prod.fst ha).trans hs
    have hk := outside_emitStreamStart h (outside s) u ha
    obtain ⟨fault, t, ht⟩ : ∃ fault t, emitStreamStart event u = .error fault t := by
      rcases event with ⟨data, _, _⟩
      cases data with
      | streamStart => exact absurd rfl h
      | _ => exact ⟨_, _, rfl⟩
    rw [ht] at hk
    have hm : stateMachine event u = .error fault t := by
      rw [stateMachine, bind_of_ok (get_apply u), hu]
      exact ht
    exact ⟨fault, t, (bind_of_ok hae).trans (bind_of_error hm), hk.1⟩
  · exact ⟨fault, u, bind_of_error hae, ha.1⟩

theorem outside_processEvents (n : Nat) {s : Emitter σ} (h : Waiting s) :
    outside (final (processEvents n s)) = outside s := by
  cases n with
  | zero => rfl
  | succ n =>
    obtain ⟨hstate, hhead⟩ := h
    rw [processEvents, bind_of_ok (get_apply s)]
    rcases he : s.events with _ | ⟨event, events⟩
    · rfl
    simp only []
    split
    · rfl
    · obtain ⟨fault, t, ht, ho⟩ := processEvent_waiting (hhead event (by simp [he])) hstate
      rw [bind_of_error ht]
      exact ho

theorem emit_waiting {event : Event} {s : Emitter σ}
    (h : Waiting { s with events := s.events ++ [event] }) :
    outside (final (emit event s)) = outside { s with events := s.events ++ [event] } := by
  exact outside_processEvents _ h

/-- The encoding the output is in: the one that is set, or else the one the stream's start asks for,
or else UTF-8. -/
def resolve (set asked : Encoding) : Encoding :=
  let encoding := if set = .any then asked else set
  if encoding = .any then .utf8 else encoding

theorem resolve_ne (set asked : Encoding) : resolve set asked ≠ .any := by
  cases set <;> cases asked <;> decide

/-- The emitter behind the stream's start. -/
def started (s : Emitter σ) (asked : Encoding) : Emitter σ :=
  { streamDefaults { s with
      openEnded := 0
      anchorData := { s.anchorData with anchor := none }
      tagData := {}
      scalarData := { s.scalarData with value := [] } } asked with
    buffer := if resolve s.encoding asked = .utf8 then s.buffer else s.buffer ++ [0xEF, 0xBB, 0xBF]
    state := .firstDocumentStart
    events := [] }

omit [WriteHandler σ] in
theorem started_configured (s : Emitter σ) (asked : Encoding) :
    Configured (resolve s.encoding asked) (started s asked) := by
  refine ⟨rfl, ?_⟩
  simp only [started, streamDefaults]
  split_ifs <;> omega

theorem bom_of_room {s : Emitter σ} (h : hasRoom s) :
    onlyIf (s.encoding ≠ .utf8) writeBom s = .ok ()
      { s with buffer := if s.encoding = .utf8 then s.buffer else s.buffer ++ [0xEF, 0xBB, 0xBF] } := by
  by_cases he : s.encoding = .utf8
  · simp only [onlyIf, he, ne_eq, not_true, decide_false, Bool.false_eq_true, if_false, if_true]
    rw [← he]
    rfl
  · have hf : flushIfFull s = .ok () s := if_pos h
    have hw : writeBom s = .ok () { s with buffer := s.buffer ++ [0xEF, 0xBB, 0xBF] } := bind_of_ok hf
    simp [onlyIf, he, hw]

theorem emit_streamStart {event : Event} {asked : Encoding} (hd : event.data = .streamStart asked)
    {s : Emitter σ} (hstate : s.state = .streamStart) (hevents : s.events = [])
    (hroom : hasRoom s) : emit event s = .ok () (started s asked) := by
  rcases event with ⟨_, start, stop⟩
  obtain rfl := hd
  let u : Emitter σ := { s with
    events := s.events ++ [⟨.streamStart asked, start, stop⟩]
    anchorData := { s.anchorData with anchor := none }
    tagData := {}
    scalarData := { s.scalarData with value := [] } }
  have hb := bom_of_room (s := streamDefaults { u with openEnded := 0 } asked) hroom
  have hs : emitStreamStart ⟨.streamStart asked, start, stop⟩ u = .ok () { started s asked with
      events := s.events ++ [⟨.streamStart asked, start, stop⟩] } :=
    (bind_of_ok rfl).trans ((bind_of_ok rfl).trans ((bind_of_ok rfl).trans (bind_of_ok hb)))
  have hm : stateMachine ⟨.streamStart asked, start, stop⟩ u = .ok () { started s asked with
      events := s.events ++ [⟨.streamStart asked, start, stop⟩] } := by
    rw [stateMachine, bind_of_ok (get_apply u), show u.state = .streamStart from hstate]
    exact hs
  have hp : processEvent ⟨.streamStart asked, start, stop⟩ { s with
      events := s.events ++ [⟨.streamStart asked, start, stop⟩] } = .ok () (started s asked) := by
    refine (bind_of_ok rfl).trans ((bind_of_ok hm).trans ?_)
    simp only [modify_apply, hevents]
    rfl
  have he : processEvents 1 { s with events := s.events ++ [⟨.streamStart asked, start, stop⟩] }
      = .ok () (started s asked) := by
    rw [processEvents, bind_of_ok (get_apply _)]
    simp only [hevents] at hp ⊢
    exact bind_of_ok hp
  have hn : (s.events ++ [(⟨.streamStart asked, start, stop⟩ : Event)]).length = 1 := by
    rw [hevents]
    rfl
  rw [emit, bind_of_ok (modify_apply _ _), bind_of_ok (get_apply _), hn]
  exact he

end Waiting

/-! ## Invariants of a channel -/

section Invariants

/-- The channel of an emitter that has been initialized. -/
def freshChannel (handler : σ) : Channel σ := (initial {} handler).channel

theorem roomy_of_empty {o : Channel σ} (hb : o.buffer = []) (hc : o.capacity = some outputBufferSize) :
    Roomy o := by
  intro n hn
  obtain rfl : outputBufferSize = n := Option.some.inj (hc.symm.trans hn)
  rw [hb]
  decide

variable [WriteHandler σ]

/-- What more bytes and flushes keep true of a channel. -/
structure Invariant (σ : Type) [WriteHandler σ] where
  Holds : Encoding → Channel σ → Prop
  capacity : ∀ {e o}, Holds e o → o.capacity = some outputBufferSize
  append : ∀ {e o c cs}, Holds e o → Roomy o → Splits c cs → c.length ≤ 4 → Holds e (o.append c)
  flush : ∀ {e} {s : Emitter σ}, s.encoding = e → e ≠ .any → Holds e s.channel →
    Holds e (final (Emitter.flush s)).channel

namespace Invariant

variable (I : Invariant σ) {encoding : Encoding}

/-- The emitter beside itself. -/
def beside (known : encoding ≠ .any) : Coupling σ σ where
  encoding := encoding
  known := known
  Related o o' := o = o' ∧ I.Holds encoding o
  Parted _ _ := False
  append := by
    rintro o o' c cs ⟨ho, h⟩ hr - hc hl
    subst ho
    exact ⟨rfl, I.append h hr hc hl⟩
  flush := by
    rintro s o o' hs ⟨ho, h⟩
    subst ho
    have hs' : Configured encoding (s.through o) := hs
    have hf := I.flush (s := s.through o) hs.1 known h
    refine matches_self (configured_flush hs') ⟨rfl, hf⟩ fun a t ht => ?_
    rw [ht] at hf
    exact ⟨rfl, hf⟩
  flushIfFull := by
    rintro s o o' hs ⟨ho, h⟩
    subst ho
    have hs' : Configured encoding (s.through o) := hs
    rcases flushIfFull_eq (s.through o) with ⟨hr, he⟩ | he
    · rw [he]
      exact ⟨rfl, rfl, hs', ⟨rfl, h⟩, hr, hr⟩
    · rw [he]
      have hf := I.flush (s := s.through o) hs.1 known h
      refine matches_self (configured_flush hs') ⟨rfl, hf⟩ fun a t ht => ?_
      obtain ⟨hb, -⟩ := buffer_of_flush ht
      rw [ht] at hf
      have hr : Roomy t.channel := roomy_of_empty hb (I.capacity hf)
      exact ⟨⟨rfl, hf⟩, hr, hr⟩
  append_parted := id
  flush_parted _ := False.elim

/-- Either the stream waits to be started, and nothing has been written, or the invariant holds. -/
def Kept (handler : σ) (s : Emitter σ) : Prop :=
  (s.state = .streamStart ∧ (∀ e ∈ s.events.head?, e.type ≠ .streamStart) ∧
    s.channel = freshChannel handler) ∨
  (s.encoding ≠ .any ∧ Configured s.encoding s ∧ I.Holds s.encoding s.channel)

variable {I} {handler : σ}

theorem kept_of_coupled {x : EmitM σ Unit}
    (hx : ∀ known : encoding ≠ .any, Coupled (I.beside known) x x) {s : Emitter σ}
    (he : encoding ≠ .any) (hc : Configured encoding s) (hr : I.Holds encoding s.channel) :
    I.Kept handler (final (x s)) := by
  have h := (hx he).1 s s ⟨rfl, hc, rfl, hr⟩
  rcases hxs : x s with ⟨a, t⟩ | ⟨e, t⟩ <;> rw [hxs] at h
  · obtain ⟨-, -, ht, -, hr⟩ := h
    obtain rfl := ht.1
    exact .inr ⟨he, ht, hr⟩
  · obtain ⟨-, -, ht, -, hr⟩ := h.resolve_right fun h => h.2.2
    obtain rfl := ht.1
    exact .inr ⟨he, ht, hr⟩

theorem kept_emit (hfresh : ∀ e, I.Holds e (freshChannel handler)) (event : Event)
    {s : Emitter σ} (h : I.Kept handler s) : I.Kept handler (final (emit event s)) := by
  rcases h with ⟨hstate, hhead, ho⟩ | ⟨he, hc, hr⟩
  · have hbuffer : s.buffer = [] := congrArg Channel.buffer ho
    by_cases hstart : s.events = [] ∧ event.type = .streamStart
    · obtain ⟨hevents, ht⟩ := hstart
      obtain ⟨asked, hd⟩ : ∃ asked, event.data = .streamStart asked := by
        rcases event with ⟨data, _, _⟩
        cases data with
        | streamStart asked => exact ⟨asked, rfl⟩
        | _ => exact absurd ht nofun
      have hroom : Roomy s.channel := roomy_of_empty hbuffer (congrArg Channel.capacity ho)
      rw [emit_streamStart hd hstate hevents ((hasRoom_iff s).mpr hroom)]
      refine .inr ⟨resolve_ne _ _, started_configured s asked, ?_⟩
      have hs : I.Holds (resolve s.encoding asked) s.channel := ho ▸ hfresh _
      by_cases hutf : resolve s.encoding asked = .utf8
      · have : (started s asked).channel = s.channel := by
          simp [started, channel, streamDefaults, hutf]
        exact this ▸ hs
      · have : (started s asked).channel = s.channel.append [0xEF, 0xBB, 0xBF] := by
          simp [started, channel, streamDefaults, hutf, Channel.append]
        have hbom : IsCharacter [0xEF, 0xBB, 0xBF] := ⟨by simp, by decide⟩
        exact this ▸ I.append hs hroom hbom.splits (by decide)
    · have hw : Waiting { s with events := s.events ++ [event] } := by
        refine ⟨hstate, fun e he => ?_⟩
        rcases hq : s.events with _ | ⟨e', es⟩
        · simp only [hq, List.nil_append, List.head?_cons, Option.mem_some_iff] at he
          exact fun ht => hstart ⟨hq, he ▸ ht⟩
        · simp only [hq, List.cons_append, List.head?_cons, Option.mem_some_iff] at he
          exact he ▸ hhead e' (by simp [hq])
      have hout := emit_waiting hw
      obtain ⟨h1, h2, -, h4⟩ : _ ∧ _ ∧ _ ∧ _ := by simpa only [outside, Prod.mk.injEq] using hout
      exact .inl ⟨h1.trans hstate, h2 ▸ hw.2, h4.trans ho⟩
  · exact kept_of_coupled (fun _ => Coupled.emit event) he hc hr

theorem kept_flush {s : Emitter σ} (h : I.Kept handler s) :
    I.Kept handler (final (flushOutput s)) := by
  unfold flushOutput
  split
  · exact h
  rcases h with ⟨hstate, hhead, ho⟩ | ⟨he, hc, hr⟩
  · have hbuffer : s.buffer = [] := congrArg Channel.buffer ho
    have hf : Emitter.flush s = .ok () s := if_pos hbuffer
    rw [hf]
    exact .inl ⟨hstate, hhead, ho⟩
  · exact kept_of_coupled (fun _ => Coupled.flush) he hc hr

/-- What holds of a fresh channel holds at the end of every run. -/
theorem kept_perform (handler : σ) (hfresh : ∀ e, I.Holds e (freshChannel handler)) (settings : Settings)
    (cs : List Call) : I.Kept handler (final (perform cs (initial settings handler))) := by
  refine perform_invariant (fun c s h => ?_) cs (.inl ⟨rfl, by simp [initial], rfl⟩)
  cases c with
  | emit event => exact kept_emit hfresh event h
  | flush => exact kept_flush h

end Invariant

end Invariants

end Emitter

end LibYaml
