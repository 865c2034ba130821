import LibYaml.Emitter.Machine

/-!
# What writing leaves alone

Only the functions of the state machine push and pop: what they call to check an event or to write
a part of it keeps the stacks, and what writes keeps the event's tag and style as well.  Writing
fails only where the handler does, or does not end.
-/

namespace LibYaml

namespace Emitter

open Fallible

variable {σ : Type}

/-- What emitting pushes and pops. -/
structure Stacks where
  state : EmitterState
  states : List EmitterState
  depth : Nat
  flowLevel : Int
  events : List Event

def stacksOf (s : Emitter σ) : Stacks :=
  ⟨s.state, s.states, s.indents.length, s.flowLevel, s.events⟩

/-- The stacks together with what decides whether a scalar can be written. -/
def core (s : Emitter σ) : Stacks × TagData × ScalarStyle := (stacksOf s, s.tagData, s.scalarData.style)

/-- Faults other than a pop from an empty stack. -/
def Harmless (fault : Fault) : Prop := fault ≠ .undefined

/-- The write handler failed. -/
def WriteFails (fault : Fault) : Prop := ∃ problem, fault = .reported (.writer problem)

/-- How writing stops early. -/
def Unwritten (fault : Fault) : Prop := WriteFails fault ∨ fault = .outOfFuel

section Analysis

theorem keeps_charactersOf {τ : Type} {v : Emitter σ → τ} {E : Fault → Prop} (b : Bytes)
    (hE : E .outOfFuel) : Keeps v E (charactersOf b) := by
  unfold charactersOf
  split
  · exact .pure
  · exact .throw hE

theorem keeps_emitterError {τ : Type} {v : Emitter σ → τ} (problem : String) :
    Keeps v Harmless (emitterError problem) :=
  .throw nofun

theorem keeps_analyzeAnchor (anchor : Bytes) (isAlias : Bool) :
    Keeps core Harmless (analyzeAnchor anchor isAlias : EmitM σ Unit) :=
  .ite (keeps_emitterError _) (.ite (keeps_emitterError _) (.modify fun _ => rfl))

theorem keeps_analyzeTag (tag : Bytes) : Keeps stacksOf Harmless (analyzeTag tag : EmitM σ Unit) := by
  refine .bind .get fun s => .ite (keeps_emitterError _) ?_
  cases abbreviation s.tagDirectives (cstr tag) with
  | none => exact .modify fun _ => rfl
  | some d => exact .modify fun _ => rfl

theorem keeps_analyzeNodeAnchor (anchor : Option Bytes) :
    Keeps core Harmless (analyzeNodeAnchor anchor : EmitM σ Unit) := by
  cases anchor with
  | none => exact .pure
  | some anchor => exact keeps_analyzeAnchor _ _

theorem keeps_analyzeNodeTag (implicit : Bool) (tag : Option Bytes) :
    Keeps stacksOf Harmless (analyzeNodeTag implicit tag : EmitM σ Unit) := by
  cases tag with
  | none => exact .pure
  | some tag => exact .bind .get fun _ => .onlyIf (keeps_analyzeTag _)

theorem keeps_analyzeScalar (value : Bytes) :
    Keeps core Harmless (analyzeScalar value : EmitM σ Unit) :=
  .ite (.modify fun _ => rfl) (.bind (keeps_charactersOf _ nofun) fun _ => .modify fun _ => rfl)

theorem keeps_analyzeEvent (event : Event) :
    Keeps stacksOf Harmless (analyzeEvent event : EmitM σ Unit) := by
  refine .bind (.modify fun _ => rfl) fun _ => ?_
  have anchor : ∀ a, Keeps stacksOf Harmless (analyzeNodeAnchor a : EmitM σ Unit) := fun a =>
    (keeps_analyzeNodeAnchor a).mono Prod.fst fun _ => rfl
  rcases event with ⟨data, _, _⟩
  cases data with
  | «alias» a => exact (keeps_analyzeAnchor a true).mono Prod.fst fun _ => rfl
  | scalar a tag value =>
    exact .bind (anchor a) fun _ => .bind (keeps_analyzeNodeTag _ _) fun _ =>
      (keeps_analyzeScalar value).mono Prod.fst fun _ => rfl
  | sequenceStart a tag => exact .bind (anchor a) fun _ => keeps_analyzeNodeTag _ _
  | mappingStart a tag => exact .bind (anchor a) fun _ => keeps_analyzeNodeTag _ _
  | _ => exact .pure

end Analysis

section Output

variable [WriteHandler σ]

theorem keeps_flush : Keeps core Unwritten (flush : EmitM σ Unit) := by
  rintro _ s rfl
  unfold flush
  by_cases hb : s.buffer = []
  · rw [if_pos hb]
  rw [if_neg hb]
  by_cases he : s.encoding = .utf8
  · rw [if_pos he]
    rcases WriteHandler.write s.buffer s.handler with ⟨_ | _, handler⟩
    · exact ⟨rfl, .inl ⟨_, rfl⟩⟩
    · rfl
  rw [if_neg he]
  rcases characters s.buffer with _ | cs
  · exact ⟨rfl, .inr rfl⟩
  simp only []
  rcases WriteHandler.write (s.rawBuffer ++ cs.flatMap (recode s.encoding)) s.handler
    with ⟨_ | _, handler⟩
  · exact ⟨rfl, .inl ⟨_, rfl⟩⟩
  · rfl

theorem keeps_flushIfFull : Keeps core Unwritten (flushIfFull : EmitM σ Unit) := by
  rintro _ s rfl
  by_cases h : hasRoom s
  · have hr : flushIfFull s = .ok () s := if_pos h
    rw [hr]
  · have hr : flushIfFull s = flush s := if_neg h
    rw [hr]
    exact keeps_flush _ s rfl

theorem keeps_put (value : UInt8) : Keeps core Unwritten (put value : EmitM σ Unit) :=
  .bind keeps_flushIfFull fun _ => .modify fun _ => rfl

theorem keeps_putBreak : Keeps core Unwritten (putBreak : EmitM σ Unit) :=
  .bind keeps_flushIfFull fun _ => .modify fun _ => rfl

theorem keeps_write (c : Bytes) : Keeps core Unwritten (write c : EmitM σ Unit) :=
  .bind keeps_flushIfFull fun _ => .modify fun _ => rfl

theorem keeps_writeBreak (c : Bytes) : Keeps core Unwritten (writeBreak c : EmitM σ Unit) := by
  refine .bind keeps_flushIfFull fun _ => .ite ?_ (.modify fun _ => rfl)
  rintro _ s rfl
  have h := keeps_putBreak _ s rfl
  unfold ignoreFailure
  rcases hs : putBreak s with ⟨⟨⟩, t⟩ | ⟨_ | _ | _ | _, t⟩ <;> rw [hs] at h
  · exact h
  · exact h.1
  all_goals exact h

theorem keeps_writeBom : Keeps core Unwritten (writeBom : EmitM σ Unit) :=
  .bind keeps_flushIfFull fun _ => .modify fun _ => rfl

theorem keeps_putSpaces : ∀ n, Keeps core Unwritten (putSpaces n : EmitM σ Unit)
  | 0 => .pure
  | n + 1 => .bind (keeps_put _) fun _ => keeps_putSpaces n

theorem keeps_writeIndent : Keeps core Unwritten (writeIndent : EmitM σ Unit) :=
  .bind .get fun _ => .bind (.onlyIf keeps_putBreak) fun _ =>
    .bind (.bind .get fun _ => keeps_putSpaces _) fun _ => .modify fun _ => rfl

theorem keeps_separate (needWhitespace : Bool) :
    Keeps core Unwritten (separate needWhitespace : EmitM σ Unit) :=
  .bind .get fun _ => .onlyIf (keeps_put _)

theorem keeps_writeIndicator (indicator : Bytes) (needWhitespace isWhitespace isIndention : Bool) :
    Keeps core Unwritten
      (writeIndicator indicator needWhitespace isWhitespace isIndention : EmitM σ Unit) :=
  .bind (keeps_separate _) fun _ => .bind (.forM fun _ => keeps_write _) fun _ =>
    .modify fun _ => rfl

end Output

section Writers

variable [WriteHandler σ]

theorem keeps_writeAnchor (value : Bytes) : Keeps core Unwritten (writeAnchor value : EmitM σ Unit) :=
  .bind (keeps_charactersOf _ (.inr rfl)) fun _ => .bind (.forM keeps_write) fun _ => .modify fun _ => rfl

theorem keeps_writeTagHandle (value : Bytes) :
    Keeps core Unwritten (writeTagHandle value : EmitM σ Unit) :=
  .bind (keeps_separate _) fun _ => .bind (keeps_charactersOf _ (.inr rfl)) fun _ =>
    .bind (.forM keeps_write) fun _ => .modify fun _ => rfl

theorem keeps_putEscaped (value : UInt8) : Keeps core Unwritten (putEscaped value : EmitM σ Unit) :=
  .bind (keeps_put _) fun _ => .bind (keeps_put _) fun _ => keeps_put _

theorem keeps_writeTagContent (value : Bytes) (needWhitespace : Bool) :
    Keeps core Unwritten (writeTagContent value needWhitespace : EmitM σ Unit) :=
  .bind (keeps_separate _) fun _ => .bind (keeps_charactersOf _ (.inr rfl)) fun _ =>
    .bind (.forM fun _ => .ite (keeps_write _) (.forM keeps_putEscaped)) fun _ =>
      .modify fun _ => rfl

omit [WriteHandler σ] in
theorem keeps_setIndention (indention : Bool) :
    Keeps core Unwritten (setIndention indention : EmitM σ Unit) :=
  .modify fun _ => rfl

theorem keeps_writeFoldedBreak (c : Bytes) (breaks : Bool) :
    Keeps core Unwritten (writeFoldedBreak c breaks : EmitM σ Unit) :=
  .bind (.onlyIf keeps_putBreak) fun _ => .bind (keeps_writeBreak _) fun _ => keeps_setIndention _

theorem keeps_writeSpace (c : Bytes) (fold : Bool) :
    Keeps core Unwritten (writeSpace c fold : EmitM σ Unit) :=
  .ite keeps_writeIndent (keeps_write _)

theorem keeps_writePlainCharacters (allowBreaks : Bool) : ∀ cs spaces breaks,
    Keeps core Unwritten (writePlainCharacters allowBreaks cs spaces breaks : EmitM σ Unit)
  | [], _, _ => .pure
  | _ :: cs, _, _ =>
    have ih := keeps_writePlainCharacters allowBreaks cs
    .bind .get fun _ => .ite (.bind (keeps_writeSpace _ _) fun _ => ih _ _)
      (.ite (.bind (keeps_writeFoldedBreak _ _) fun _ => ih _ _)
        (.bind (.onlyIf keeps_writeIndent) fun _ => .bind (keeps_write _) fun _ =>
          .bind (keeps_setIndention _) fun _ => ih _ _))

theorem keeps_writeSingleQuotedCharacters (allowBreaks : Bool) : ∀ cs start spaces breaks,
    Keeps core Unwritten
      (writeSingleQuotedCharacters allowBreaks cs start spaces breaks : EmitM σ Unit)
  | [], _, _, _ => .onlyIf keeps_writeIndent
  | _ :: cs, _, _, _ =>
    have ih := keeps_writeSingleQuotedCharacters allowBreaks cs
    .bind .get fun _ => .ite (.bind (keeps_writeSpace _ _) fun _ => ih _ _ _)
      (.ite (.bind (keeps_writeFoldedBreak _ _) fun _ => ih _ _ _)
        (.bind (.onlyIf keeps_writeIndent) fun _ => .bind (.onlyIf (keeps_put _)) fun _ =>
          .bind (keeps_write _) fun _ => .bind (keeps_setIndention _) fun _ => ih _ _ _))

theorem keeps_writeDoubleQuotedCharacters (allowBreaks : Bool) : ∀ cs start spaces,
    Keeps core Unwritten (writeDoubleQuotedCharacters allowBreaks cs start spaces : EmitM σ Unit)
  | [], _, _ => .pure
  | _ :: cs, _, _ =>
    have ih := keeps_writeDoubleQuotedCharacters allowBreaks cs
    .bind .get fun _ => .ite
      (.bind (keeps_put _) fun _ => .bind (.forM keeps_put) fun _ => ih _ _)
      (.ite (.bind (keeps_writeSpace _ _) fun _ => .bind (.onlyIf (keeps_put _)) fun _ => ih _ _)
        (.bind (keeps_write _) fun _ => ih _ _))

theorem keeps_writeBlockScalarHeader (indicator : Bytes) (cs : List Bytes) :
    Keeps core Unwritten (writeBlockScalarHeader indicator cs : EmitM σ Unit) := by
  have hints : Keeps core Unwritten (writeBlockScalarHints cs : EmitM σ Unit) := by
    refine .bind .get fun _ => .bind (.onlyIf (keeps_writeIndicator _ _ _ _)) fun _ =>
      .bind (.modify fun _ => rfl) fun _ => ?_
    cases (chompHint cs.reverse).1 with
    | none => exact .pure
    | some indicator => exact keeps_writeIndicator _ _ _ _
  exact .bind (keeps_writeIndicator _ _ _ _) fun _ => .bind hints fun _ =>
    .bind keeps_putBreak fun _ => .modify fun _ => rfl

theorem keeps_writeLiteralCharacters : ∀ cs breaks,
    Keeps core Unwritten (writeLiteralCharacters cs breaks : EmitM σ Unit)
  | [], _ => .pure
  | _ :: cs, _ =>
    have ih := keeps_writeLiteralCharacters cs
    .ite (.bind (keeps_writeBreak _) fun _ => .bind (keeps_setIndention _) fun _ => ih _)
      (.bind (.onlyIf keeps_writeIndent) fun _ => .bind (keeps_write _) fun _ =>
        .bind (keeps_setIndention _) fun _ => ih _)

theorem keeps_writeFoldedCharacters : ∀ cs breaks leadingSpaces,
    Keeps core Unwritten (writeFoldedCharacters cs breaks leadingSpaces : EmitM σ Unit)
  | [], _, _ => .pure
  | _ :: cs, _, _ =>
    have ih := keeps_writeFoldedCharacters cs
    .ite (.bind (.onlyIf keeps_putBreak) fun _ => .bind (keeps_writeBreak _) fun _ =>
        .bind (keeps_setIndention _) fun _ => ih _ _)
      (.bind (.onlyIf keeps_writeIndent) fun _ => .bind .get fun _ =>
        .bind (keeps_writeSpace _ _) fun _ => .bind (keeps_setIndention _) fun _ => ih _ _)

theorem keeps_processAnchor : Keeps core Unwritten (processAnchor : EmitM σ Unit) := by
  refine .bind .get fun s => ?_
  cases s.anchorData.anchor with
  | none => exact .pure
  | some anchor => exact .bind (keeps_writeIndicator _ _ _ _) fun _ => keeps_writeAnchor _

theorem keeps_processTag : Keeps core Unwritten (processTag : EmitM σ Unit) := by
  refine .bind .get fun s => ?_
  cases s.tagData.handle <;> cases s.tagData.suffix
  · exact .pure
  · exact .bind (keeps_writeIndicator _ _ _ _) fun _ => .bind (keeps_writeTagContent _ _) fun _ =>
      keeps_writeIndicator _ _ _ _
  · exact keeps_writeTagHandle _
  · exact .bind (keeps_writeTagHandle _) fun _ => keeps_writeTagContent _ _

theorem keeps_writeScalar {style : ScalarStyle} (hs : style ≠ .any) (value : Bytes)
    (allowBreaks : Bool) :
    Keeps core Unwritten (writeScalar style value allowBreaks : EmitM σ Unit) := by
  cases style with
  | any => exact absurd rfl hs
  | plain =>
    exact .bind .get fun _ => .bind (.onlyIf (keeps_put _)) fun _ =>
      .bind (keeps_charactersOf _ (.inr rfl)) fun _ => .bind (keeps_writePlainCharacters _ _ _ _) fun _ =>
        .modify fun _ => rfl
  | singleQuoted =>
    exact .bind (keeps_writeIndicator _ _ _ _) fun _ => .bind (keeps_charactersOf _ (.inr rfl)) fun _ =>
      .bind (keeps_writeSingleQuotedCharacters _ _ _ _ _) fun _ =>
        .bind (keeps_writeIndicator _ _ _ _) fun _ => .modify fun _ => rfl
  | doubleQuoted =>
    exact .bind (keeps_writeIndicator _ _ _ _) fun _ => .bind (keeps_charactersOf _ (.inr rfl)) fun _ =>
      .bind (keeps_writeDoubleQuotedCharacters _ _ _ _) fun _ =>
        .bind (keeps_writeIndicator _ _ _ _) fun _ => .modify fun _ => rfl
  | literal =>
    exact .bind (keeps_charactersOf _ (.inr rfl)) fun _ => .bind (keeps_writeBlockScalarHeader _ _) fun _ =>
      keeps_writeLiteralCharacters _ _
  | folded =>
    exact .bind (keeps_charactersOf _ (.inr rfl)) fun _ => .bind (keeps_writeBlockScalarHeader _ _) fun _ =>
      keeps_writeFoldedCharacters _ _ _

end Writers

end Emitter
end LibYaml
