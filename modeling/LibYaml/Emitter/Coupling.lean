import LibYaml.Emitter.Frames

/-!
# Two emitters side by side

What the emitter decides does not depend on where its output goes.  Two emitters that differ in
their channels only, the buffers and the handler, go the same way as long as what the channels
have taken stays related; when the handler of the left one fails where the right one goes on, the
channels are parted, and stay so while the right one writes more.

A coupling says how the channels are related and what keeps them so.  Each function of the emitter
is coupled with itself.
-/

namespace LibYaml

namespace Emitter

open Fallible
open EStateM (Result)

variable {σ τ : Type}

/-- What the output of an emitter goes through. -/
structure Channel (σ : Type) where
  handler : σ
  buffer : Bytes
  capacity : Option Nat
  rawBuffer : Bytes
  flushes : List Flush

namespace Channel

/-- More bytes in the buffer. -/
def append (o : Channel σ) (c : Bytes) : Channel σ := { o with buffer := o.buffer ++ c }

end Channel

def channel (s : Emitter σ) : Channel σ :=
  ⟨s.handler, s.buffer, s.capacity, s.rawBuffer, s.flushes⟩

/-- The emitter with another channel. -/
def through (s : Emitter σ) (o : Channel τ) : Emitter τ where
  handler := o.handler
  buffer := o.buffer
  capacity := o.capacity
  rawBuffer := o.rawBuffer
  flushes := o.flushes
  encoding := s.encoding
  canonical := s.canonical
  bestIndent := s.bestIndent
  bestWidth := s.bestWidth
  unicode := s.unicode
  lineBreak := s.lineBreak
  states := s.states
  state := s.state
  events := s.events
  indents := s.indents
  tagDirectives := s.tagDirectives
  indent := s.indent
  flowLevel := s.flowLevel
  rootContext := s.rootContext
  sequenceContext := s.sequenceContext
  mappingContext := s.mappingContext
  simpleKeyContext := s.simpleKeyContext
  line := s.line
  column := s.column
  whitespace := s.whitespace
  indention := s.indention
  openEnded := s.openEnded
  anchorData := s.anchorData
  tagData := s.tagData
  scalarData := s.scalarData

/-- Behind the stream's start: the encoding is known and an indent is one digit. -/
def Configured (encoding : Encoding) (s : Emitter σ) : Prop :=
  s.encoding = encoding ∧ 2 ≤ s.bestIndent ∧ s.bestIndent ≤ 9

/-- The state a computation ends in. -/
def final {ε α : Type} : Result ε (Emitter σ) α → Emitter σ
  | .ok _ s => s
  | .error _ s => s

section Relations

variable (encoding : Encoding) (Related Parted : Channel σ → Channel τ → Prop)

/-- The emitters are the same behind related channels. -/
def Alike (s : Emitter σ) (t : Emitter τ) : Prop :=
  t = s.through t.channel ∧ Configured encoding s ∧ Related s.channel t.channel

/-- The left one's channel is lost, and the right one may be anywhere. -/
def Lost (s : Emitter σ) (t : Emitter τ) : Prop :=
  Configured encoding t ∧ Parted s.channel t.channel

/-- Both ended alike, with channels in `Reached` if they succeeded, or the left one with a write that
failed. -/
def Matches {α : Type} (Reached : Channel σ → Channel τ → Prop) :
    Result Fault (Emitter σ) α → Result Fault (Emitter τ) α → Prop
  | .ok a s, .ok b t => a = b ∧ Alike encoding Reached s t
  | .ok _ _, .error _ _ => False
  | .error e s, .ok _ t => WriteFails e ∧ Lost encoding Parted s t
  | .error e s, .error e' t =>
    (e = e' ∧ Alike encoding Related s t) ∨ (WriteFails e ∧ Lost encoding Parted s t)

variable {encoding Related Parted}

/-- A computation is like itself where its final state is related to itself. -/
theorem matches_self {Related Parted Reached : Channel σ → Channel σ → Prop} {α : Type}
    {r : Result Fault (Emitter σ) α} (hc : Configured encoding (final r))
    (hr : Related (final r).channel (final r).channel)
    (hok : ∀ a s, r = .ok a s → Reached s.channel s.channel) :
    Matches encoding Related Parted Reached r r := by
  rcases r with ⟨a, s⟩ | ⟨e, s⟩
  · exact ⟨rfl, rfl, hc, hok a s rfl⟩
  · exact .inl ⟨rfl, rfl, hc, hr⟩

end Relations

/-- There is room for a character or a break. -/
def Roomy (o : Channel σ) : Prop := ∀ n, o.capacity = some n → o.buffer.length + 5 < n

theorem hasRoom_iff (s : Emitter σ) : hasRoom s = true ↔ Roomy s.channel := by
  unfold hasRoom Roomy channel
  cases s.capacity with
  | none => simp
  | some n => simp

section Flush

variable [WriteHandler σ]

/-- A flush changes the channel and nothing else. -/
theorem final_flush (s : Emitter σ) : final (flush s) = s.through (final (flush s)).channel := by
  unfold flush
  split
  · rfl
  split
  · rcases WriteHandler.write s.buffer s.handler with ⟨_ | _, handler⟩ <;> rfl
  rcases characters s.buffer with _ | cs
  · rfl
  · simp only []
    rcases WriteHandler.write (s.rawBuffer ++ cs.flatMap (recode s.encoding)) s.handler
      with ⟨_ | _, handler⟩ <;> rfl

/-- A flush that succeeds leaves the buffer empty. -/
theorem buffer_of_flush {s t : Emitter σ} {a : Unit} (h : flush s = .ok a t) :
    t.buffer = [] ∧ t.capacity = s.capacity := by
  have hf : Holds (· = s) flush (fun _ t => t.buffer = [] ∧ t.capacity = s.capacity)
      fun _ _ => True := by
    intro u hu
    subst hu
    unfold flush
    by_cases hb : u.buffer = []
    · rw [if_pos hb]
      exact ⟨hb, rfl⟩
    rw [if_neg hb]
    by_cases he : u.encoding = .utf8
    · rw [if_pos he]
      rcases WriteHandler.write u.buffer u.handler with ⟨_ | _, handler⟩
      · trivial
      · exact ⟨rfl, rfl⟩
    rw [if_neg he]
    rcases characters u.buffer with _ | cs
    · trivial
    simp only []
    rcases WriteHandler.write (u.rawBuffer ++ cs.flatMap (recode u.encoding)) u.handler
      with ⟨_ | _, handler⟩
    · trivial
    · exact ⟨rfl, rfl⟩
  exact hf.ok rfl h

theorem configured_flush {encoding : Encoding} {s : Emitter σ} (h : Configured encoding s) :
    Configured encoding (final (flush s)) := by
  rw [final_flush]
  exact h

theorem flushIfFull_eq (s : Emitter σ) :
    (Roomy s.channel ∧ flushIfFull s = .ok () s) ∨ flushIfFull s = flush s := by
  by_cases h : hasRoom s
  · exact .inl ⟨(hasRoom_iff s).mp h, if_pos h⟩
  · exact .inr (if_neg h)

end Flush

/-- How the channels of two emitters that write in one encoding hang together: `Related` while both
have taken the same, `Parted` when the left one's handler has failed and the right one goes on. -/
structure Coupling (σ τ : Type) [WriteHandler σ] [WriteHandler τ] where
  encoding : Encoding
  known : encoding ≠ .any
  Related : Channel σ → Channel τ → Prop
  Parted : Channel σ → Channel τ → Prop
  append : ∀ {o o' c cs}, Related o o' → Roomy o → Roomy o' → Splits c cs → c.length ≤ 4 →
    Related (o.append c) (o'.append c)
  flush : ∀ {s : Emitter σ} {o o'}, Configured encoding s → Related o o' →
    Matches encoding Related Parted Related (flush (s.through o)) (flush (s.through o'))
  flushIfFull : ∀ {s : Emitter σ} {o o'}, Configured encoding s → Related o o' →
    Matches encoding Related Parted (fun o o' => Related o o' ∧ Roomy o ∧ Roomy o')
      (flushIfFull (s.through o)) (flushIfFull (s.through o'))
  append_parted : ∀ {o o' c}, Parted o o' → Parted o (o'.append c)
  flush_parted : ∀ {t : Emitter τ} {o}, Configured encoding t → Parted o t.channel →
    Configured encoding (final (Emitter.flush t)) ∧ Parted o (final (Emitter.flush t)).channel

section Rules

variable [WriteHandler σ] [WriteHandler τ] (C : Coupling σ τ) {α β : Type}

/-- From emitters alike both computations end alike, or the left one loses its channel; a channel
that is lost stays so. -/
def Coupled (x : EmitM σ α) (y : EmitM τ α) : Prop :=
  (∀ s t, Alike C.encoding C.Related s t → Matches C.encoding C.Related C.Parted C.Related (x s) (y t)) ∧
    ∀ s t, Lost C.encoding C.Parted s t → Lost C.encoding C.Parted s (final (y t))

namespace Coupled

variable {C} {x : EmitM σ α} {y : EmitM τ α}

theorem pure (a : α) : Coupled C (pure a) (pure a) := ⟨fun _ _ h => ⟨rfl, h⟩, fun _ _ h => h⟩

theorem throw (e : Fault) : Coupled C (throw e : EmitM σ α) (throw e) :=
  ⟨fun _ _ h => .inl ⟨rfl, h⟩, fun _ _ h => h⟩

theorem bind {f : α → EmitM σ β} {g : α → EmitM τ β} (hx : Coupled C x y)
    (hf : ∀ a, Coupled C (f a) (g a)) : Coupled C (x >>= f) (y >>= g) := by
  constructor
  · intro s t h
    have hm := hx.1 s t h
    rw [bind_apply, bind_apply]
    rcases hxs : x s with ⟨a, s'⟩ | ⟨e, s'⟩ <;> rcases hyt : y t with ⟨b, t'⟩ | ⟨e', t'⟩ <;>
      rw [hxs, hyt] at hm
    · obtain ⟨rfl, ha⟩ := hm
      exact (hf a).1 _ _ ha
    · exact hm.elim
    · have hl := (hf b).2 _ _ hm.2
      change Matches _ _ _ _ (.error e s') (g b t')
      rcases hgb : g b t' with ⟨c, u⟩ | ⟨e', u⟩ <;> rw [hgb] at hl
      · exact ⟨hm.1, hl⟩
      · exact .inr ⟨hm.1, hl⟩
    · exact hm
  · intro s t h
    have hl := hx.2 s t h
    rw [bind_apply]
    rcases hyt : y t with ⟨b, t'⟩ | ⟨e, t'⟩ <;> rw [hyt] at hl
    · exact (hf b).2 _ _ hl
    · exact hl

/-- A computation that looks at the state. -/
theorem get {f : Emitter σ → EmitM σ α} {g : Emitter τ → EmitM τ α}
    (h : ∀ (s : Emitter σ) (o : Channel σ) (o' : Channel τ), Configured C.encoding s →
      Coupled C (f (s.through o)) (g (s.through o'))) :
    Coupled C (get >>= f) (get >>= g) := by
  constructor
  · intro s t ha
    have hc := (h s s.channel t.channel ha.2.1).1 s t ha
    rw [← ha.1] at hc
    exact hc
  · intro s t hl
    exact (h (t.through s.channel) s.channel t.channel hl.1).2 s t hl

theorem update {f : Emitter σ → Emitter σ} {g : Emitter τ → Emitter τ}
    (hg : ∀ (s : Emitter σ) (o' : Channel τ), g (s.through o') = (f s).through o')
    (hf : ∀ s, (f s).channel = s.channel)
    (hs : ∀ s, Configured C.encoding s → Configured C.encoding (f s)) :
    Coupled C (modify f) (modify g) := by
  have hgs (s : Emitter σ) (t : Emitter τ) (h : t = s.through t.channel) :
      g t = (f s).through t.channel := by
    rw [h]
    exact hg s _
  refine ⟨fun s t h => ⟨rfl, ?_⟩, fun s t h => ?_⟩
  · refine ⟨?_, hs _ h.2.1, ?_⟩
    · rw [hgs s t h.1]
      rfl
    · rw [hgs s t h.1, hf]
      exact h.2.2
  · have ht := hgs (t.through s.channel) t rfl
    refine ⟨?_, ?_⟩
    · change Configured _ (g t)
      rw [ht]
      exact hs (t.through s.channel) h.1
    · change C.Parted _ (g t).channel
      rw [ht]
      exact h.2

theorem ite {c : Prop} [Decidable c] {x' : EmitM σ α} {y' : EmitM τ α} (hx : Coupled C x y)
    (hy : Coupled C x' y') : Coupled C (if c then x else x') (if c then y else y') := by
  split
  · exact hx
  · exact hy

theorem onlyIf {c : Bool} {x : EmitM σ Unit} {y : EmitM τ Unit} (hx : Coupled C x y) :
    Coupled C (onlyIf c x) (onlyIf c y) :=
  ite hx (pure ())

theorem forM {l : List β} {f : β → EmitM σ Unit} {g : β → EmitM τ Unit}
    (hf : ∀ b ∈ l, Coupled C (f b) (g b)) : Coupled C (l.forM f) (l.forM g) := by
  induction l with
  | nil => exact pure ()
  | cons b l ih =>
    exact bind (hf b List.mem_cons_self) fun _ => ih fun b h => hf b (List.mem_cons_of_mem _ h)

/-- A computation that needs a string's characters. -/
theorem charactersOf {b : Bytes} {f : List Bytes → EmitM σ α} {g : List Bytes → EmitM τ α}
    (h : ∀ cs, (∀ c ∈ cs, IsCharacter c) → Coupled C (f cs) (g cs)) :
    Coupled C (charactersOf b >>= f) (charactersOf b >>= g) := by
  unfold Emitter.charactersOf
  rcases hb : characters b with _ | cs
  · exact throw _
  · exact h cs (characters_eq_some.mp hb).2

theorem flush : Coupled C flush flush := by
  refine ⟨fun s t h => ?_, fun s t h => C.flush_parted h.1 h.2⟩
  rw [h.1]
  exact C.flush h.2.1 h.2.2

theorem flushIfFull_lost {s : Emitter σ} {t : Emitter τ} (h : Lost C.encoding C.Parted s t) :
    Lost C.encoding C.Parted s (final (flushIfFull t)) := by
  unfold Emitter.flushIfFull
  split
  · exact h
  · exact C.flush_parted h.1 h.2

/-- What comes behind `FLUSH` starts with room in both buffers. -/
theorem whereRoom {f : Unit → EmitM σ α} {g : Unit → EmitM τ α}
    (hf : ∀ s t, Alike C.encoding (fun o o' => C.Related o o' ∧ Roomy o ∧ Roomy o') s t →
      Matches C.encoding C.Related C.Parted C.Related (f () s) (g () t))
    (hl : ∀ s t, Lost C.encoding C.Parted s t → Lost C.encoding C.Parted s (final (g () t))) :
    Coupled C (flushIfFull >>= f) (flushIfFull >>= g) := by
  constructor
  · intro s t h
    have hm := C.flushIfFull h.2.1 h.2.2
    have ht : s.through t.channel = t := h.1.symm
    have hs : s.through s.channel = s := rfl
    rw [ht, hs] at hm
    rw [bind_apply, bind_apply]
    rcases hxs : flushIfFull s with ⟨⟨⟩, s'⟩ | ⟨e, s'⟩ <;>
      rcases hyt : flushIfFull t with ⟨⟨⟩, t'⟩ | ⟨e', t'⟩ <;> rw [hxs, hyt] at hm
    · exact hf _ _ hm.2
    · exact hm.elim
    · have hp := hl _ _ hm.2
      change Matches _ _ _ _ (.error e s') (g () t')
      rcases hg : g () t' with ⟨c, u⟩ | ⟨e', u⟩ <;> rw [hg] at hp
      · exact ⟨hm.1, hp⟩
      · exact .inr ⟨hm.1, hp⟩
    · exact hm
  · intro s t h
    have hp := flushIfFull_lost h
    rw [bind_apply]
    rcases hyt : flushIfFull t with ⟨⟨⟩, t'⟩ | ⟨e', t'⟩ <;> rw [hyt] at hp
    · exact hl _ _ hp
    · exact hp

/-- An update that adds the bytes `c` to the buffer. -/
structure Adds (c : Emitter σ → Bytes) (f : Emitter σ → Emitter σ) (g : Emitter τ → Emitter τ) :
    Prop where
  right : ∀ (s : Emitter σ) (o' : Channel τ),
    g (s.through o') = (f s).through (o'.append (c s))
  left : ∀ s, (f s).channel = s.channel.append (c s)
  configured : ∀ s, Configured C.encoding s → Configured C.encoding (f s)
  short : ∀ s, Configured C.encoding s → ∃ cs, Splits (c s) cs ∧ (c s).length ≤ 4

theorem Adds.apply {c : Emitter σ → Bytes} {f : Emitter σ → Emitter σ} {g : Emitter τ → Emitter τ}
    (h : Adds (C := C) c f g) {s : Emitter σ} {t : Emitter τ}
    (ha : Alike C.encoding (fun o o' => C.Related o o' ∧ Roomy o ∧ Roomy o') s t) :
    Alike C.encoding C.Related (f s) (g t) := by
  obtain ⟨ht, hs, hr, hl, hl'⟩ := ha
  obtain ⟨cs, hcs, hlen⟩ := h.short s hs
  have hg : g t = (f s).through (t.channel.append (c s)) := by
    conv_lhs => rw [ht]
    exact h.right s _
  refine ⟨?_, h.configured s hs, ?_⟩
  · rw [hg]
    rfl
  · rw [hg, h.left]
    exact C.append hr hl hl' hcs hlen

theorem Adds.lost {c : Emitter σ → Bytes} {f : Emitter σ → Emitter σ} {g : Emitter τ → Emitter τ}
    (h : Adds (C := C) c f g) {s : Emitter σ} {t : Emitter τ} (hl : Lost C.encoding C.Parted s t) :
    Lost C.encoding C.Parted s (g t) := by
  have hg : g t = (f (t.through s.channel)).through (t.channel.append (c (t.through s.channel))) :=
    h.right (t.through s.channel) t.channel
  refine ⟨?_, ?_⟩
  · rw [hg]
    exact h.configured (t.through s.channel) hl.1
  · rw [hg]
    exact C.append_parted hl.2

/-- `FLUSH` and then an update that adds bytes. -/
theorem add {c : Emitter σ → Bytes} {f : Emitter σ → Emitter σ} {g : Emitter τ → Emitter τ}
    (h : Adds (C := C) c f g) :
    Coupled C (flushIfFull >>= fun _ => modify f) (flushIfFull >>= fun _ => modify g) :=
  whereRoom (fun _ _ ha => ⟨rfl, h.apply ha⟩) fun _ _ hl => h.lost hl

theorem put {value : UInt8} (h : octetWidth value = 1) : Coupled C (put value) (put value) := by
  refine add (c := fun _ => [value]) ⟨fun _ _ => rfl, fun _ => rfl, fun _ h => h, fun _ _ => ?_⟩
  exact ⟨_, (isCharacter_singleton h).splits, by simp⟩

theorem write {c : Bytes} (h : IsCharacter c) : Coupled C (write c) (write c) :=
  add (c := fun _ => c) ⟨fun _ _ => rfl, fun _ => rfl, fun _ h => h,
    fun _ _ => ⟨_, h.splits, h.length_le⟩⟩

theorem writeBom : Coupled C writeBom writeBom := by
  refine add (c := fun _ => [0xEF, 0xBB, 0xBF])
    ⟨fun _ _ => rfl, fun _ => rfl, fun _ h => h, fun _ _ => ?_⟩
  exact ⟨[[0xEF, 0xBB, 0xBF]], IsCharacter.splits ⟨by simp, by decide⟩, by simp⟩

theorem splits_breakBytes (b : Break) : ∃ cs, Splits (breakBytes b) cs ∧ (breakBytes b).length ≤ 4 := by
  have hc : OneByte (breakBytes b) := by cases b <;> decide
  exact ⟨_, hc.splits, by cases b <;> decide⟩

/-- What `PUT_BREAK` does to the state. -/
def broken (s : Emitter σ) : Emitter σ :=
  { s with buffer := s.buffer ++ breakBytes s.lineBreak, column := 0, line := s.line + 1 }

theorem adds_broken : Adds (C := C) (fun s => breakBytes s.lineBreak) broken broken :=
  ⟨fun _ _ => rfl, fun _ => rfl, fun _ h => h, fun _ _ => splits_breakBytes _⟩

theorem putBreak : Coupled C putBreak putBreak := add adds_broken

theorem ignoreFailure_putBreak {s : Emitter σ} (h : Roomy s.channel) :
    ignoreFailure Emitter.putBreak s = .ok () (broken s) := by
  have hf : flushIfFull s = .ok () s := if_pos ((hasRoom_iff s).mpr h)
  have hp : Emitter.putBreak s = .ok () (broken s) := bind_of_ok hf
  rw [ignoreFailure, hp]

omit [WriteHandler σ] in
theorem final_ignoreFailure (x : EmitM σ Unit) (s : Emitter σ) :
    final (ignoreFailure x s) = final (x s) := by
  unfold ignoreFailure
  rcases x s with ⟨⟨⟩, t⟩ | ⟨_ | _ | _ | _, t⟩ <;> rfl

theorem writeBreak {c : Bytes} (h : IsCharacter c) : Coupled C (writeBreak c) (writeBreak c) := by
  unfold Emitter.writeBreak
  by_cases hc : check (view c) '\n'
  · simp only [hc, if_true]
    refine whereRoom (fun s t ha => ?_) fun s t hl => ?_
    · rw [ignoreFailure_putBreak ha.2.2.2.1, ignoreFailure_putBreak ha.2.2.2.2]
      exact ⟨rfl, adds_broken.apply ha⟩
    · rw [final_ignoreFailure]
      exact putBreak.2 s t hl
  · simp only [hc]
    exact add (c := fun _ => c) ⟨fun _ _ => rfl, fun _ => rfl, fun _ h => h,
      fun _ _ => ⟨_, h.splits, h.length_le⟩⟩

end Coupled

end Rules

end Emitter

end LibYaml
