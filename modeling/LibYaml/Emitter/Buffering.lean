import LibYaml.Emitter.Ending

/-!
# The output buffer is invisible

An emitter whose buffer has no end writes the same text.  The emitter with the real buffer is run
beside it: what it has handed over and what it still holds is, at every moment, the text so far.  If
the handler takes a string of a given size, it ends up with the text's beginning.
-/

namespace LibYaml

namespace Emitter

open Fallible

variable {σ τ : Type}

section Text

/-- The text a channel has taken: what was handed over and what is still buffered. -/
def Channel.written (o : Channel σ) : Bytes := handedOver o.flushes ++ o.buffer

theorem Channel.written_append (o : Channel σ) (c : Bytes) :
    (o.append c).written = o.written ++ c := by
  simp [written, append]

/-- An emitter whose buffer has no end. -/
def unbounded (settings : Settings) : Emitter Unit := { initial settings () with capacity := none }

/-- The text an emitter with an unbounded buffer produces. -/
def unboundedText (settings : Settings) (events : List Event) : Bytes :=
  (final (calls events (unbounded settings))).channel.written

/-- The encoding that is set, or else the one the first event asks for, or else UTF-8. -/
def outputEncoding (settings : Settings) (events : List Event) : Encoding :=
  match events with
  | ⟨.streamStart asked, _, _⟩ :: _ => resolve settings.encoding asked
  | _ => resolve settings.encoding .any

/-- The buffer was not overrun, and the chunk is made of whole characters. -/
def Whole (f : Flush) : Prop :=
  f.buffered.length ≤ outputBufferSize ∧ f.chunk = f.buffered ∧ ∃ cs, Splits f.chunk cs

end Text

section Coupling

variable [WriteHandler σ]

/-- What is known of the handler's data: `Took h b` that it has taken the bytes `b`, `Refused h b`
that it failed when the text so far was `b`. -/
structure Taking (σ : Type) [WriteHandler σ] where
  Took : σ → Bytes → Prop
  Refused : σ → Bytes → Prop
  took : ∀ {h b c h'}, Took h b → WriteHandler.write c h = (true, h') → Took h' (b ++ c)
  refused : ∀ {h b c h'}, Took h b → WriteHandler.write c h = (false, h') → Refused h' (b ++ c)
  refused_append : ∀ {h b c}, Refused h b → Refused h (b ++ c)

/-- The real channel beside the unbounded one: they have taken the same text. -/
structure Buffered (W : Taking σ) (o : Channel σ) (o' : Channel Unit) : Prop where
  written : o.written = o'.written
  capacity : o.capacity = some outputBufferSize
  unbounded : o'.capacity = none
  length : o.buffer.length ≤ outputBufferSize
  splits : ∃ cs, Splits o.buffer cs
  whole : ∀ f ∈ o.flushes, Whole f
  accepted : ∀ f ∈ o.flushes, f.accepted
  took : W.Took o.handler (handedOver o.flushes)

theorem Buffered.append {W : Taking σ} {o : Channel σ} {o' : Channel Unit} (h : Buffered W o o')
    (hr : Roomy o) {c : Bytes} {cs : List Bytes} (hc : Splits c cs) (hl : c.length ≤ 4) :
    Buffered W (o.append c) (o'.append c) := by
  have := hr _ h.capacity
  obtain ⟨bs, hbs⟩ := h.splits
  refine ⟨?_, h.capacity, h.unbounded, ?_, ⟨_, hbs.append hc⟩, h.whole, h.accepted, h.took⟩
  · rw [Channel.written_append, Channel.written_append, h.written]
  · rw [Channel.append, List.length_append]
    omega

theorem Buffered.right {W : Taking σ} {o : Channel σ} {o' o'' : Channel Unit}
    (h : Buffered W o o') (hw : o''.written = o'.written) (hc : o''.capacity = o'.capacity) :
    Buffered W o o'' :=
  { h with written := h.written.trans hw.symm, unbounded := hc.trans h.unbounded }

theorem handedOver_cons (f : Flush) (fs : List Flush) :
    handedOver (f :: fs) = handedOver fs ++ f.chunk := by
  simp [handedOver]

/-- A flush to a handler that takes everything leaves the text as it is. -/
theorem flush_unit {s : Emitter Unit} (he : s.encoding = .utf8) :
    ∃ t, flush s = .ok () t ∧ t = s.through t.channel ∧ t.channel.written = s.channel.written ∧
      t.channel.capacity = s.channel.capacity := by
  by_cases hb : s.buffer = []
  · exact ⟨s, if_pos hb, rfl, rfl, rfl⟩
  · refine ⟨{ s with buffer := [], flushes := ⟨s.buffer, s.buffer, true⟩ :: s.flushes }, ?_, rfl, ?_,
      rfl⟩
    · rw [flush, if_neg hb, if_pos he]
      rfl
    · simp [Channel.written, channel, handedOver]

/-- A flush of the real buffer: the handler takes it, or the text so far is refused. -/
theorem flush_buffered {W : Taking σ} {s : Emitter σ} {o' : Channel Unit}
    (he : s.encoding = .utf8) (h : Buffered W s.channel o') :
    (∃ t, flush s = .ok () t ∧ t = s.through t.channel ∧ t.buffer = [] ∧ Buffered W t.channel o') ∨
      ∃ problem t, flush s = .error (.reported (.writer problem)) t ∧
        W.Refused t.handler o'.written := by
  by_cases hb : s.buffer = []
  · exact .inl ⟨s, if_pos hb, rfl, hb, h⟩
  obtain ⟨cs, hcs⟩ := h.splits
  rw [flush, if_neg hb, if_pos he]
  rcases hw : WriteHandler.write s.buffer s.handler with ⟨_ | _, handler⟩
  · exact .inr ⟨_, _, rfl, h.written ▸ W.refused h.took hw⟩
  · refine .inl ⟨_, rfl, rfl, rfl, ?_, h.capacity, h.unbounded, Nat.zero_le _, ⟨[], .nil⟩, ?_, ?_, ?_⟩
    · rw [← h.written]
      simp [Channel.written, channel, handedOver]
    · exact List.forall_mem_cons.mpr ⟨⟨h.length, rfl, cs, hcs⟩, h.whole⟩
    · exact List.forall_mem_cons.mpr ⟨rfl, h.accepted⟩
    · exact (handedOver_cons _ _).symm ▸ W.took h.took hw

/-- The real emitter beside the unbounded one. -/
def buffering (W : Taking σ) : Coupling σ Unit where
  encoding := .utf8
  known := by decide
  Related := Buffered W
  Parted o o' := W.Refused o.handler o'.written
  append h hr _ hc hl := h.append hr hc hl
  flush := by
    intro s o o' hs h
    obtain ⟨t', ht', hts', hw', hc'⟩ := flush_unit (s := s.through o') hs.1
    rw [ht']
    rcases flush_buffered (s := s.through o) hs.1 h with ⟨t, ht, hts, -, hb⟩ | ⟨problem, t, ht, hr⟩
    · rw [ht]
      refine ⟨rfl, ?_, ?_, hb.right hw' hc'⟩
      · rw [hts', hts]
        rfl
      · rw [hts]
        exact hs
    · rw [ht]
      refine ⟨⟨_, rfl⟩, ?_, ?_⟩
      · rw [hts']
        exact hs
      · change W.Refused t.handler t'.channel.written
        rw [hw']
        exact hr
  flushIfFull := by
    intro s o o' hs h
    have hroom : Roomy o' := fun n hn => absurd (h.unbounded.symm.trans hn) nofun
    have ht' : flushIfFull (s.through o') = .ok () (s.through o') :=
      if_pos ((hasRoom_iff (s.through o')).mpr hroom)
    rw [ht']
    rcases flushIfFull_eq (s.through o) with ⟨hr, hf⟩ | hf
    · rw [hf]
      exact ⟨rfl, rfl, hs, h, hr, hroom⟩
    rw [hf]
    rcases flush_buffered (s := s.through o) hs.1 h with ⟨t, ht, hts, hb, h'⟩ | ⟨problem, t, ht, hr⟩
    · rw [ht]
      refine ⟨rfl, ?_, ?_, h', ?_, hroom⟩
      · rw [hts]
        rfl
      · rw [hts]
        exact hs
      · intro n hn
        obtain rfl : outputBufferSize = n := Option.some.inj (h'.capacity.symm.trans hn)
        rw [show t.channel.buffer = [] from hb]
        decide
    · rw [ht]
      exact ⟨⟨_, rfl⟩, hs, hr⟩
  append_parted := by
    intro o o' c h
    rw [Channel.written_append]
    exact W.refused_append h
  flush_parted := by
    intro t o ht h
    obtain ⟨t', hf, hts, hw, -⟩ := flush_unit ht.1
    rw [hf]
    change Configured .utf8 t' ∧ W.Refused o.handler t'.channel.written
    rw [hw, hts]
    exact ⟨ht, h⟩

end Coupling

section Runs

theorem calls_cons [WriteHandler σ] (e : Event) (es : List Event) (s : Emitter σ) :
    calls (e :: es) s = match emit e s with
      | .ok _ t => calls es t
      | .error fault t => if returns fault then calls es t else .error fault t := rfl

/-- A run goes on behind a call, unless that call does not come back. -/
theorem final_calls_cons [WriteHandler σ] (e : Event) (es : List Event) (s : Emitter σ) :
    (final (calls (e :: es) s) = final (calls es (final (emit e s)))) ∨
      (final (calls (e :: es) s) = final (emit e s) ∧
        ∃ fault t, emit e s = .error fault t ∧ returns fault = false) := by
  rw [calls_cons]
  rcases emit e s with ⟨a, t⟩ | ⟨fault, t⟩
  · exact .inl rfl
  · by_cases hr : returns fault
    · simp only [hr, if_true]
      exact .inl rfl
    · simp only [hr]
      exact .inr ⟨rfl, fault, t, rfl, by simpa using hr⟩

variable [WriteHandler σ]

/-- Runs that cannot part end alike, whatever the calls answer. -/
theorem calls_alike [WriteHandler τ] {C : Coupling σ τ} (hC : ∀ o o', ¬C.Parted o o')
    (es : List Event) {s : Emitter σ} {t : Emitter τ} (h : Alike C.encoding C.Related s t) :
    Alike C.encoding C.Related (final (calls es s)) (final (calls es t)) := by
  induction es generalizing s t with
  | nil => exact h
  | cons e es ih =>
    have hm := (Coupled.emit (C := C) e).1 s t h
    rw [calls_cons, calls_cons]
    rcases hs : emit e s with ⟨a, s'⟩ | ⟨fault, s'⟩ <;>
      rcases ht : emit e t with ⟨b, t'⟩ | ⟨fault', t'⟩ <;> rw [hs, ht] at hm
    · exact ih hm.2
    · exact hm.elim
    · exact absurd hm.2.2 (hC _ _)
    · obtain ⟨rfl, ha⟩ := hm.resolve_right fun h => hC _ _ h.2.2
      by_cases hr : returns fault
      · simp only [hr, if_true]
        exact ih ha
      · simp only [hr]
        exact ha

theorem emits_cons (e : Event) (es : List Event) :
    ((e :: es).forM emit : EmitM σ Unit) = emit e >>= fun _ => es.forM emit := rfl

/-- A run that stops at the first call that fails ends alike or with the left channel lost. -/
theorem coupled_emits [WriteHandler τ] (C : Coupling σ τ) (es : List Event) :
    Coupled C (es.forM emit) (es.forM emit) :=
  .forM fun e _ => .emit e

omit [WriteHandler σ]

/-- What the unbounded emitter has written it keeps. -/
def growing (base : Bytes) : Taking Unit where
  Took _ _ := False
  Refused _ b := base <+: b
  took h := h.elim
  refused h := h.elim
  refused_append h := h.trans (List.prefix_append _ _)

theorem written_emit {t : Emitter Unit} (ht : Configured .utf8 t) (e : Event) :
    Configured .utf8 (final (emit e t)) ∧
      t.channel.written <+: (final (emit e t)).channel.written :=
  (Coupled.emit (C := buffering (growing t.channel.written)) e).2 t t ⟨ht, List.prefix_refl _⟩

theorem written_calls (es : List Event) {t : Emitter Unit} (ht : Configured .utf8 t) :
    t.channel.written <+: (final (calls es t)).channel.written := by
  induction es generalizing t with
  | nil => exact List.prefix_refl _
  | cons e es ih =>
    obtain ⟨hc, hp⟩ := written_emit ht e
    rcases final_calls_cons e es t with he | ⟨he, -⟩
    · rw [he]
      exact hp.trans (ih hc)
    · rw [he]
      exact hp

/-- A run that stops at the first call that fails has not written more than one that goes on. -/
theorem written_emits (es : List Event) {t : Emitter Unit} (ht : Configured .utf8 t) :
    (final (es.forM emit t)).channel.written <+: (final (calls es t)).channel.written ∧
      ∀ a u, es.forM emit t = .ok a u → final (calls es t) = u := by
  induction es generalizing t with
  | nil => exact ⟨List.prefix_refl _, fun a u h => by cases h; rfl⟩
  | cons e es ih =>
    obtain ⟨hc, -⟩ := written_emit ht e
    rw [emits_cons, bind_apply, calls_cons]
    rcases he : emit e t with ⟨a, t'⟩ | ⟨fault, t'⟩ <;> rw [he] at hc
    · exact ih hc
    · refine ⟨?_, fun a u h => by cases h⟩
      by_cases hr : returns fault
      · simp only [hr, if_true]
        exact written_calls es hc
      · simp only [hr]
        exact List.prefix_refl _

end Runs

section Start

variable [WriteHandler σ]

/-- Behind the stream's start both emitters have written nothing, in UTF-8. -/
theorem started_alike {W : Taking σ} (handler : σ) (ht : W.Took handler []) {settings : Settings}
    {asked : Encoding} (he : resolve settings.encoding asked = .utf8) :
    Alike .utf8 (Buffered W) (started (initial settings handler) asked)
      (started (unbounded settings) asked) := by
  have hb : (started (initial settings handler) asked).channel = freshChannel handler := by
    simp [started, channel, streamDefaults, freshChannel, initial, he]
  have hb' : (started (unbounded settings) asked).channel = { freshChannel () with capacity := none } := by
    simp [started, channel, streamDefaults, freshChannel, initial, unbounded, he]
  refine ⟨rfl, he ▸ started_configured (initial settings handler) asked, ?_⟩
  · rw [hb, hb']
    exact ⟨rfl, rfl, rfl, Nat.zero_le _, ⟨[], .nil⟩, by simp [freshChannel, initial, channel],
      by simp [freshChannel, initial, channel], ht⟩

/-- While the stream waits to be started, a call leaves the channel as it is. -/
def Idle (o : Channel σ) (s : Emitter σ) : Prop := Waiting s ∧ s.events ≠ [] ∧ s.channel = o

theorem idle_emit {o : Channel σ} {s : Emitter σ} (h : Waiting s) (ho : s.channel = o) {event : Event}
    (he : s.events = [] → event.type ≠ .streamStart) : Idle o (final (emit event s)) := by
  have hw : Waiting { s with events := s.events ++ [event] } := by
    refine ⟨h.1, fun e hh => ?_⟩
    rcases hq : s.events with _ | ⟨e', es⟩
    · simp only [hq, List.nil_append, List.head?_cons, Option.mem_some_iff] at hh
      exact hh ▸ he hq
    · simp only [hq, List.cons_append, List.head?_cons, Option.mem_some_iff] at hh
      exact hh ▸ h.2 e' (by simp [hq])
  have hout := emit_waiting hw
  obtain ⟨h1, h2, -, h4⟩ : _ ∧ _ ∧ _ ∧ _ := by simpa only [outside, Prod.mk.injEq] using hout
  exact ⟨⟨h1.trans h.1, h2 ▸ hw.2⟩, by rw [h2]; simp, h4.trans ho⟩

theorem idle_calls {o : Channel σ} (es : List Event) {s : Emitter σ} (h : Idle o s) :
    Idle o (final (calls es s)) ∧ Idle o (final (es.forM emit s)) := by
  induction es generalizing s with
  | nil => exact ⟨h, h⟩
  | cons e es ih =>
    have hi : Idle o (final (emit e s)) := idle_emit h.1 h.2.2 fun hn => absurd hn h.2.1
    constructor
    · rcases final_calls_cons e es s with he | ⟨he, -⟩
      · exact he ▸ (ih hi).1
      · exact he ▸ hi
    · rw [emits_cons, bind_apply]
      rcases hs : emit e s with ⟨a, t⟩ | ⟨fault, t⟩ <;> rw [hs] at hi
      · exact (ih hi).2
      · exact hi

/-- Events that do not start the stream are never written. -/
theorem idle_start {e : Event} (he : e.type ≠ .streamStart) (es : List Event) {s : Emitter σ}
    (hs : s.state = .streamStart) (hq : s.events = []) :
    Idle s.channel (final (calls (e :: es) s)) ∧ Idle s.channel (final ((e :: es).forM emit s)) := by
  have hw : Waiting s := ⟨hs, by simp [hq]⟩
  have hi : Idle s.channel (final (emit e s)) := idle_emit hw rfl fun _ => he
  constructor
  · rcases final_calls_cons e es s with hf | ⟨hf, -⟩
    · exact hf ▸ (idle_calls es hi).1
    · exact hf ▸ hi
  · rw [emits_cons, bind_apply]
    rcases ht : emit e s with ⟨a, t⟩ | ⟨fault, t⟩ <;> rw [ht] at hi
    · exact (idle_calls es hi).2
    · exact hi

end Start

/-! ## A handler that takes everything, and one that stores a string -/

section Handlers

/-- The handler takes whatever it is given. -/
def Succeeds (σ : Type) [WriteHandler σ] : Prop :=
  ∀ (c : Bytes) (handler : σ), (WriteHandler.write c handler).1 = true

def succeeding [WriteHandler σ] (h : Succeeds σ) : Taking σ where
  Took _ _ := True
  Refused _ _ := False
  took _ _ := trivial
  refused {handler _ c _} _ hw := by
    have := h c handler
    rw [hw] at this
    exact absurd this Bool.false_ne_true
  refused_append := False.elim

/-- The output of `yaml_emitter_set_output_string`: the bytes stored so far, in a buffer of a size. -/
structure StringOutput where
  size : Nat
  output : Bytes := []
  sizeWritten : Nat := 0
deriving Repr

/-- `yaml_string_write_handler` -/
instance : WriteHandler StringOutput where
  write c o :=
    let available := o.size - o.sizeWritten
    let stored := o.output.take o.sizeWritten
    if available < c.length then
      (false, { o with output := stored ++ c.take available, sizeWritten := o.size })
    else (true, { o with output := stored ++ c, sizeWritten := o.sizeWritten + c.length })

theorem write_fits {o : StringOutput} {c : Bytes} (h : c.length ≤ o.size - o.sizeWritten) :
    WriteHandler.write c o = (true, { o with
      output := o.output.take o.sizeWritten ++ c, sizeWritten := o.sizeWritten + c.length }) :=
  if_neg (Nat.not_lt.mpr h)

theorem write_overflows {o : StringOutput} {c : Bytes} (h : o.size - o.sizeWritten < c.length) :
    WriteHandler.write c o = (false, { o with
      output := o.output.take o.sizeWritten ++ c.take (o.size - o.sizeWritten)
      sizeWritten := o.size }) :=
  if_pos h

/-- The string holds what it was given, or the beginning of a text that does not fit. -/
def storing (n : Nat) : Taking StringOutput where
  Took o b := o.size = n ∧ o.output = b ∧ o.sizeWritten = b.length ∧ b.length ≤ n
  Refused o b := o.output = b.take n ∧ o.sizeWritten = n ∧ n < b.length
  took {o b c o'} ho hw := by
    obtain ⟨hsize, hout, hwritten, hle⟩ := ho
    by_cases h : o.size - o.sizeWritten < c.length
    · rw [write_overflows h] at hw
      exact absurd (congrArg Prod.fst hw) Bool.false_ne_true
    · rw [write_fits (Nat.not_lt.mp h)] at hw
      obtain rfl := congrArg Prod.snd hw
      refine ⟨hsize, ?_, ?_, ?_⟩
      · rw [hout, hwritten, List.take_length]
      · rw [hwritten, List.length_append]
      · rw [List.length_append]
        omega
  refused {o b c o'} ho hw := by
    obtain ⟨hsize, hout, hwritten, hle⟩ := ho
    by_cases h : o.size - o.sizeWritten < c.length
    · rw [write_overflows h] at hw
      obtain rfl := congrArg Prod.snd hw
      refine ⟨?_, hsize, ?_⟩
      · rw [hout, hwritten, hsize, List.take_length, List.take_append, List.take_of_length_le hle]
      · rw [List.length_append]
        omega
    · rw [write_fits (Nat.not_lt.mp h)] at hw
      exact absurd (congrArg Prod.fst hw).symm Bool.false_ne_true
  refused_append {o b c} ho := by
    obtain ⟨hout, hwritten, hlt⟩ := ho
    refine ⟨?_, hwritten, ?_⟩
    · rw [List.take_append_of_le_length (Nat.le_of_lt hlt)]
      exact hout
    · rw [List.length_append]
      omega

/-- The string never counts more bytes than it has room for, whatever the calls. -/
def sized (n : Nat) : Invariant StringOutput where
  Holds _ o := o.capacity = some outputBufferSize ∧ o.handler.size = n ∧ o.handler.sizeWritten ≤ n
  capacity h := h.1
  append h _ _ _ := h
  flush {e s} _ _ h := by
    have hwrite (c : Bytes) : (WriteHandler.write c s.handler).2.size = n ∧
        (WriteHandler.write c s.handler).2.sizeWritten ≤ n := by
      obtain ⟨-, hsize, hle⟩ := h
      have hsize : s.handler.size = n := hsize
      have hle : s.handler.sizeWritten ≤ n := hle
      by_cases hc : s.handler.size - s.handler.sizeWritten < c.length
      · rw [write_overflows hc]
        exact ⟨hsize, Nat.le_of_eq hsize⟩
      · rw [write_fits (Nat.not_lt.mp hc)]
        exact ⟨hsize, show s.handler.sizeWritten + c.length ≤ n by omega⟩
    unfold Emitter.flush
    split
    · exact h
    split
    · have := hwrite s.buffer
      rcases hw : WriteHandler.write s.buffer s.handler with ⟨_ | _, handler⟩ <;> rw [hw] at this
      · exact ⟨h.1, this⟩
      · exact ⟨h.1, this⟩
    rcases characters s.buffer with _ | cs
    · exact h
    · have := hwrite (s.rawBuffer ++ cs.flatMap (recode s.encoding))
      simp only []
      rcases hw : WriteHandler.write (s.rawBuffer ++ cs.flatMap (recode s.encoding)) s.handler
        with ⟨_ | _, handler⟩ <;> rw [hw] at this
      · exact ⟨h.1, this⟩
      · exact ⟨h.1, this⟩

theorem sizeWritten_le (settings : Settings) (n : Nat) (cs : List Call) :
    (final (perform cs (initial settings { size := n : StringOutput }))).handler.sizeWritten ≤ n := by
  rcases (sized n).kept_perform { size := n } (fun _ => ⟨rfl, rfl, Nat.zero_le _⟩) settings cs
    with ⟨-, -, ho⟩ | ⟨-, -, h⟩
  · have : (final (perform cs (initial settings { size := n : StringOutput }))).handler = { size := n } :=
      congrArg Channel.handler ho
    rw [this]
    exact Nat.zero_le _
  · exact h.2.2

end Handlers

/-! ## The buffer is invisible -/

section Invisible

/-- The first event starts a stream, or nothing is ever written. -/
theorem start_cases (events : List Event) :
    events = [] ∨ (∃ asked start stop es, events = ⟨.streamStart asked, start, stop⟩ :: es) ∨
      ∃ e es, events = e :: es ∧ e.type ≠ .streamStart := by
  rcases events with _ | ⟨⟨data, start, stop⟩, es⟩
  · exact .inl rfl
  · cases data with
    | streamStart asked => exact .inr (.inl ⟨asked, start, stop, es, rfl⟩)
    | _ => exact .inr (.inr ⟨_, _, rfl, nofun⟩)

/-- A run through the real buffer: the text is the unbounded emitter's, the buffer is never
overrun, and each chunk is made of whole characters. -/
def Invisible (settings : Settings) (events : List Event) (s : Emitter σ) : Prop :=
  s.channel.written = unboundedText settings events ∧ s.buffer.length ≤ outputBufferSize ∧
    (∃ cs, Splits s.buffer cs) ∧ ∀ f ∈ s.flushes, Whole f

theorem invisible [WriteHandler σ] (hσ : Succeeds σ) (handler : σ) {settings : Settings}
    {events : List Event} (he : outputEncoding settings events = .utf8) :
    Invisible settings events (final (calls events (initial settings handler))) := by
  have idle : ∀ s : Emitter σ, s.channel = freshChannel handler → unboundedText settings events = [] →
      Invisible settings events s := by
    intro s hs ht
    have hb : s.buffer = [] := congrArg Channel.buffer hs
    have hf : s.flushes = [] := congrArg Channel.flushes hs
    refine ⟨?_, ?_, ⟨[], ?_⟩, ?_⟩
    · rw [hs, ht]
      rfl
    · rw [hb]
      exact Nat.zero_le _
    · rw [hb]
      exact .nil
    · simp [hf]
  rcases start_cases events with rfl | ⟨asked, start, stop, es, rfl⟩ | ⟨e, es, rfl, hne⟩
  · exact idle _ rfl rfl
  · have hstart (τ : Type) [WriteHandler τ] (s : Emitter τ) (h : s.state = .streamStart)
        (hq : s.events = []) (hr : hasRoom s) :
        calls (⟨.streamStart asked, start, stop⟩ :: es) s = calls es (started s asked) := by
      rw [calls_cons, emit_streamStart rfl h hq hr]
    have ha := calls_alike (C := buffering (succeeding hσ)) (fun _ _ h => h) es
      (started_alike handler trivial he)
    rw [hstart σ _ rfl rfl rfl]
    obtain ⟨-, -, hb⟩ := ha
    refine ⟨?_, hb.length, hb.splits, hb.whole⟩
    rw [unboundedText, hstart Unit _ rfl rfl rfl]
    exact hb.written
  · have hi := (idle_start hne es (s := initial settings handler) rfl rfl).1
    have hu := (idle_start hne es (s := unbounded settings) rfl rfl).1
    refine idle _ hi.2.2 ?_
    rw [unboundedText, hu.2.2]
    rfl

/-- The events are accepted, up to the stream's end. -/
def Complete (settings : Settings) (events : List Event) : Prop :=
  ∃ a s, events.forM emit (unbounded settings) = .ok a s ∧ s.state = .end

/-- A run that stores a string of size `n` and stops at the first call that fails, with its result
`r`: once the handler has failed, and when the run is complete, the string holds as much of the text
as it has room for. -/
def Stores (settings : Settings) (events : List Event) (n : Nat)
    (r : EStateM.Result Fault (Emitter StringOutput) Unit) : Prop :=
  let o := (final r).handler
  let text := unboundedText settings events
  (o.sizeWritten = o.output.length ∧ o.sizeWritten ≤ n ∧ o.output <+: text) ∧
    ((∃ f ∈ (final r).flushes, f.accepted = false) → n < text.length ∧ o.output = text.take n) ∧
    (Complete settings events →
      ((∃ e s, r = .error e s) ↔ n < text.length) ∧ o.output = text.take n)

/-- While the handler takes everything, the string holds a beginning of the text. -/
theorem stored_of_buffered {n : Nat} {s : Emitter StringOutput} {o' : Channel Unit} {text : Bytes}
    (h : Buffered (storing n) s.channel o') (ht : o'.written <+: text) :
    s.handler.sizeWritten = s.handler.output.length ∧ s.handler.sizeWritten ≤ n ∧
      s.handler.output <+: text := by
  obtain ⟨-, hout, hwritten, hle⟩ := h.took
  have hout : s.handler.output = handedOver s.flushes := hout
  have hwritten : s.handler.sizeWritten = (handedOver s.flushes).length := hwritten
  have hbegins : handedOver s.flushes <+: o'.written := ⟨s.buffer, h.written⟩
  exact ⟨by rw [hwritten, hout], hwritten ▸ hle, hout ▸ hbegins.trans ht⟩

/-- Once it has refused some, the string holds as much of the text as it has room for. -/
theorem stored_of_refused {n : Nat} {o : StringOutput} {b text : Bytes}
    (h : (storing n).Refused o b) (ht : b <+: text) :
    (o.sizeWritten = o.output.length ∧ o.sizeWritten ≤ n ∧ o.output <+: text) ∧
      n < text.length ∧ o.output = text.take n := by
  obtain ⟨rest, rfl⟩ := ht
  obtain ⟨hout, hwritten, hlt⟩ := (storing n).refused_append (c := rest) h
  refine ⟨⟨?_, Nat.le_of_eq hwritten, ?_⟩, hlt, hout⟩
  · rw [hwritten, hout, List.length_take]
    omega
  · rw [hout]
    exact List.take_prefix _ _

theorem stores {settings : Settings} {events : List Event} (n : Nat)
    (he : outputEncoding settings events = .utf8) :
    Stores settings events n
      (events.forM emit (initial settings { size := n : StringOutput })) := by
  have idle : ∀ r : EStateM.Result Fault (Emitter StringOutput) Unit,
      (final r).channel = freshChannel { size := n } → ¬Complete settings events →
      Stores settings events n r := by
    intro r hr hc
    have hh : (final r).handler = { size := n } := congrArg Channel.handler hr
    have hf : (final r).flushes = [] := congrArg Channel.flushes hr
    refine ⟨?_, fun h => ?_, fun h => absurd h hc⟩
    · rw [hh]
      exact ⟨rfl, Nat.zero_le _, List.nil_prefix⟩
    · rw [hf] at h
      simp at h
  rcases start_cases events with rfl | ⟨asked, start, stop, es, rfl⟩ | ⟨e, es, rfl, hne⟩
  · refine idle _ rfl fun ⟨a, s, h, hs⟩ => ?_
    obtain rfl : unbounded settings = s := by cases h; rfl
    exact absurd hs nofun
  · have hrun (τ : Type) [WriteHandler τ] (s : Emitter τ) (h : s.state = .streamStart)
        (hq : s.events = []) (hr : hasRoom s) :
        (⟨.streamStart asked, start, stop⟩ :: es).forM emit s = es.forM emit (started s asked) := by
      rw [emits_cons, bind_of_ok (emit_streamStart rfl h hq hr)]
    let s₀ := started (initial settings { size := n : StringOutput }) asked
    let u₀ := started (unbounded settings) asked
    have ha : Alike .utf8 (Buffered (storing n)) s₀ u₀ :=
      started_alike (W := storing n) _ ⟨rfl, rfl, rfl, Nat.zero_le _⟩ he
    have hu₀ : Configured .utf8 u₀ := he ▸ started_configured (unbounded settings) asked
    have htext : unboundedText settings (⟨.streamStart asked, start, stop⟩ :: es)
        = (final (calls es u₀)).channel.written := by
      rw [unboundedText, calls_cons, emit_streamStart rfl rfl rfl rfl]
    have hm := (coupled_emits (buffering (storing n)) es).1 s₀ u₀ ha
    have hended := ended_emits es s₀ (Open.ended ⟨nofun, List.not_mem_nil⟩)
    obtain ⟨hbegins, hsame⟩ := written_emits es hu₀
    rw [← htext] at hbegins
    rw [hrun _ _ rfl rfl rfl]
    have hcomplete : Complete settings (⟨.streamStart asked, start, stop⟩ :: es) ↔
        ∃ a u, es.forM emit u₀ = .ok a u ∧ u.state = .end := by
      rw [Complete, hrun _ _ rfl rfl rfl]
    rcases hr : es.forM emit s₀ with ⟨a, s⟩ | ⟨fault, s⟩ <;>
      rcases hu : es.forM emit u₀ with ⟨b, u⟩ | ⟨fault', u⟩ <;>
      rw [hr, hu] at hm <;> rw [hu] at hbegins <;> rw [hr] at hended
    · obtain ⟨-, hsu, -, hb⟩ := hm
      have hstored := stored_of_buffered hb hbegins
      refine ⟨hstored, fun ⟨f, hf, hno⟩ => ?_, fun hc => ?_⟩
      · exact absurd (hb.accepted f hf) (by simp [hno])
      obtain ⟨b', u', hu', hend⟩ := hcomplete.mp hc
      obtain ⟨-, rfl⟩ : b = b' ∧ u = u' := EStateM.Result.ok.inj (hu.symm.trans hu')
      have hstate : s.state = .end := by
        rw [hsu] at hend
        exact hend
      have hempty : s.buffer = [] := hended.1 hstate
      have hwhole : s.handler.output =
          unboundedText settings (⟨.streamStart asked, start, stop⟩ :: es) := by
        rw [htext, hsame _ _ hu]
        have hw := hb.written
        rw [Channel.written, show s.channel.buffer = [] from hempty, List.append_nil] at hw
        exact hb.took.2.1.trans hw
      have hlen : (unboundedText settings (⟨.streamStart asked, start, stop⟩ :: es)).length ≤ n := by
        rw [← hwhole, ← hstored.1]
        exact hstored.2.1
      refine ⟨⟨fun ⟨e, t, h⟩ => absurd h nofun, fun h => absurd h (Nat.not_lt.mpr hlen)⟩, ?_⟩
      rw [List.take_of_length_le hlen]
      exact hwhole
    · exact hm.elim
    · obtain ⟨hstored, hlt, hout⟩ := stored_of_refused hm.2.2 hbegins
      exact ⟨hstored, fun _ => ⟨hlt, hout⟩, fun _ => ⟨⟨fun _ => hlt, fun _ => ⟨_, _, rfl⟩⟩, hout⟩⟩
    · have hnot : ¬Complete settings (⟨.streamStart asked, start, stop⟩ :: es) := by
        rintro hc
        obtain ⟨b', u', hu', -⟩ := hcomplete.mp hc
        rw [hu] at hu'
        exact absurd hu' nofun
      rcases hm with ⟨-, -, -, hb⟩ | ⟨-, -, hrefused⟩
      · refine ⟨stored_of_buffered hb hbegins, fun ⟨f, hf, hno⟩ => ?_, fun hc => absurd hc hnot⟩
        exact absurd (hb.accepted f hf) (by simp [hno])
      · obtain ⟨hstored, hlt, hout⟩ := stored_of_refused hrefused hbegins
        exact ⟨hstored, fun _ => ⟨hlt, hout⟩, fun hc => absurd hc hnot⟩
  · have hi := (idle_start hne es (s := initial settings { size := n : StringOutput }) rfl rfl).2
    have hu := (idle_start hne es (s := unbounded settings) rfl rfl).2
    refine idle _ hi.2.2 fun ⟨a, s, h, hs⟩ => ?_
    rw [h] at hu
    exact absurd (hu.1.1.symm.trans hs) nofun

/-- With output in UTF-8 the buffer is invisible: a handler that takes everything is given the text
of the emitter with an unbounded buffer, and a string of size `n` ends up with its first `n` bytes. -/
theorem output_buffering_invisible (settings : Settings) (events : List Event)
    (he : outputEncoding settings events = .utf8) :
    (∀ (σ : Type) [WriteHandler σ], Succeeds σ → ∀ handler : σ,
      Invisible settings events (final (calls events (initial settings handler)))) ∧
    ∀ n : Nat,
      Stores settings events n (events.forM emit (initial settings { size := n : StringOutput })) ∧
      ∀ cs : List Call,
        (final (perform cs (initial settings { size := n : StringOutput }))).handler.sizeWritten ≤ n :=
  ⟨fun _ _ hσ handler => invisible hσ handler he,
    fun n => ⟨stores n he, sizeWritten_le settings n⟩⟩

/-- A stream of one document with one scalar. -/
def oneScalar : List Event :=
  [plainEvent (.streamStart .any), plainEvent (.documentStart none [] true),
    plainEvent (.scalar none none (ascii ['a']) true true .any), plainEvent (.documentEnd true),
    plainEvent .streamEnd]

theorem complete_oneScalar : Complete {} oneScalar := by
  have h : (match oneScalar.forM emit (unbounded {}) with
      | .ok _ s => decide (s.state = .end)
      | .error _ _ => false) = true := by decide +kernel
  unfold Complete
  rcases hr : oneScalar.forM emit (unbounded {}) with ⟨a, s⟩ | ⟨e, s⟩ <;> rw [hr] at h
  · exact ⟨a, s, rfl, of_decide_eq_true h⟩
  · exact absurd h Bool.false_ne_true

theorem output_buffering_invisible_oneScalar :
    Complete {} oneScalar ∧
    (∀ (σ : Type) [WriteHandler σ], Succeeds σ → ∀ handler : σ,
      Invisible {} oneScalar (final (calls oneScalar (initial {} handler)))) ∧
    ∀ n : Nat,
      Stores {} oneScalar n (oneScalar.forM emit (initial {} { size := n : StringOutput })) ∧
      ∀ cs : List Call,
        (final (perform cs (initial {} { size := n : StringOutput }))).handler.sizeWritten ≤ n :=
  ⟨complete_oneScalar, output_buffering_invisible {} oneScalar rfl⟩

end Invisible

end Emitter

end LibYaml
