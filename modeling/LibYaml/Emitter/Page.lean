import LibYaml.Emitter.Alongside

/-!
# What an emitter writes

An emitter writes what it would write into a buffer without end, as long as the handler takes what
the buffer cannot hold.  There nothing fails and nothing is flushed, so a writer is a function of
the emitter.
-/

namespace LibYaml

/-- The space. -/
def blank : UInt8 := octet ' '

namespace Emitter

open Fallible

variable {σ : Type}

/-- All that has been put into the buffer, whether it still lies there or not. -/
def Channel.text (o : Channel σ) : Bytes := o.flushes.reverse.flatMap Flush.buffered ++ o.buffer

theorem Channel.text_append (o : Channel σ) (c : Bytes) : (o.append c).text = o.text ++ c := by
  simp [text, append]

def text (s : Emitter σ) : Bytes := s.channel.text

/-- One in a block collection. -/
def inBlock : Emitter (List Bool) where
  handler := []
  encoding := .utf8
  bestIndent := 2
  bestWidth := 80
  lineBreak := .ln
  indent := 2

/-- A channel beside one without end that has taken the same text. -/
structure Paged (o : Channel σ) (o' : Channel Unit) : Prop where
  text : o.text = o'.text
  capacity : ∀ n, o.capacity = some n → 5 < n
  unbounded : o'.capacity = none
  splits : ∃ cs, Splits o.buffer cs
  splits' : ∃ cs, Splits o'.buffer cs

theorem Paged.append {o : Channel σ} {o' : Channel Unit} (h : Paged o o') {c : Bytes}
    {cs : List Bytes} (hc : Splits c cs) : Paged (o.append c) (o'.append c) := by
  obtain ⟨as, ha⟩ := h.splits
  obtain ⟨bs, hb⟩ := h.splits'
  refine ⟨?_, h.capacity, h.unbounded, ⟨_, ha.append hc⟩, ⟨_, hb.append hc⟩⟩
  rw [Channel.text_append, Channel.text_append, h.text]

/-- The run from `s` ends with `Q`, unless the handler fails. -/
def Writes (x : EmitM σ Unit) (s : Emitter σ) (Q : Emitter σ → Prop) : Prop :=
  match x s with
  | .ok _ t => Q t
  | .error e _ => WriteFails e

theorem Writes.weaken {x : EmitM σ Unit} {s : Emitter σ} {Q R : Emitter σ → Prop} (h : Writes x s Q)
    (hq : ∀ t, Q t → R t) : Writes x s R := by
  unfold Writes at *
  cases hx : x s with
  | ok a t =>
    rw [hx] at h
    exact hq t h
  | error e t =>
    rw [hx] at h
    exact h

section Coupling

variable [WriteHandler σ]

end Coupling

/-! ## Writing on a page -/

section Writing

variable {s t u : Emitter Unit} {b c : Bytes}

/-- What writing leaves as it is. -/
def setup (s : Emitter Unit) : Emitter Unit :=
  { s with buffer := [], line := 0, column := 0, whitespace := false, indention := false
           openEnded := 0 }

/-- `t` is `s` with `b` written on it. -/
structure Wrote (s : Emitter Unit) (b : Bytes) (t : Emitter Unit) : Prop where
  setup : t.setup = s.setup
  buffer : t.buffer = s.buffer ++ b

namespace Wrote

theorem refl (s : Emitter Unit) : Wrote s [] s := ⟨rfl, (List.append_nil _).symm⟩

theorem trans (h : Wrote s b t) (h' : Wrote t c u) : Wrote s (b ++ c) u :=
  ⟨h'.setup.trans h.setup, by rw [h'.buffer, h.buffer, List.append_assoc]⟩

theorem capacity (h : Wrote s b t) : t.capacity = s.capacity := (congrArg Emitter.capacity h.setup :)

theorem unicode (h : Wrote s b t) : t.unicode = s.unicode := (congrArg Emitter.unicode h.setup :)

theorem bestWidth (h : Wrote s b t) : t.bestWidth = s.bestWidth :=
  (congrArg Emitter.bestWidth h.setup :)

theorem bestIndent (h : Wrote s b t) : t.bestIndent = s.bestIndent :=
  (congrArg Emitter.bestIndent h.setup :)

theorem indent (h : Wrote s b t) : t.indent = s.indent := (congrArg Emitter.indent h.setup :)

theorem lineBreak (h : Wrote s b t) : t.lineBreak = s.lineBreak :=
  (congrArg Emitter.lineBreak h.setup :)

theorem text (h : Wrote s b t) : t.text = s.text ++ b := by
  have hf : t.flushes = s.flushes := (congrArg Emitter.flushes h.setup :)
  simp [Emitter.text, Channel.text, channel, hf, h.buffer]

end Wrote

/-- A break as `WRITE_BREAK` writes it: a line feed becomes the emitter's break. -/
def brokenAs (lineBreak : Break) (c : Bytes) : Bytes :=
  if check (view c) '\n' then breakBytes lineBreak else c

/-- The emitter with text of `n` columns added to its line. -/
def added (b : Bytes) (n : Nat) (s : Emitter Unit) : Emitter Unit :=
  { s with buffer := s.buffer ++ b, column := s.column + n }

end Writing

end Emitter

end LibYaml
