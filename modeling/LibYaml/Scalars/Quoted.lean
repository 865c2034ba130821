import LibYaml.Scalars.Folding

/-!
# Quoted scalars

The scanner's loop over a quoted scalar finds the value that the text between the quotes was laid
for, whatever stands behind the closing quote.
-/

namespace LibYaml

open Fallible Emitter
open EStateM (Result)

/-- The quote of a style. -/
def quote (single : Bool) : UInt8 := if single then octet '\'' else octet '"'

theorem quote_ascii (single : Bool) : quote single < 0x80 ∧ quote single ≠ 0 := by
  cases single <;> decide

theorem startsText_quote (single : Bool) (r : Bytes) : StartsText (quote single :: r) := by
  cases single <;> rfl

theorem isQuote_quote (single : Bool) (r : Bytes) :
    Scanner.isQuote single (view (quote single :: r)) = true := by
  cases single <;> rfl

/-- A blank or a break is no quote. -/
theorem not_quote {single : Bool} {v : View} (h : (isBlank v || isBreak v) = true) :
    Scanner.isQuote single v = false := by
  refine beq_eq_false_iff_ne.mpr fun hq => ?_
  have hv : v 0 = octet '\'' ∨ v 0 = octet '"' := by
    cases single with
    | true => exact .inl hq
    | false => exact .inr hq
  rcases Bool.or_eq_true_iff.mp h with h | h
  · unfold isBlank isBlankAt isSpaceAt isTabAt checkAt at h
    rcases hv with hv | hv <;> rw [hv] at h <;> exact absurd h (by decide)
  · rcases isBreak_cases h with h | h | ⟨h, -⟩ | ⟨h, -⟩ <;> rcases hv with hv | hv <;>
      exact absurd (h.symm.trans hv) (by decide)

namespace Scanner

/-- The texts of `Item` are read as what they stand for, whatever is behind them. -/
structure Reads (single : Bool) (Item : Bytes → Bytes → Prop) : Prop where
  startsText : ∀ v x r, Item v x → StartsText (x ++ r)
  text : ∀ {v x r string : Bytes} {start m : Mark} {s : Scanner Bytes}
    {Q : Bytes × Bool → Scanner Bytes → Prop}, Item v x →
    (∀ k, Yields (scanFlowScalarText single start (string ++ v)) (s.reading (m.right k) r) Q) →
      Yields (scanFlowScalarText single start string) (s.reading m (x ++ r)) Q

theorem Reads.length_pos {single : Bool} {Item : Bytes → Bytes → Prop} {v x : Bytes}
    (hI : Reads single Item) (h : Item v x) : 0 < x.length := by
  refine List.length_pos_iff.mpr fun hx => ?_
  have : isBlankz (view []) = false := by
    have := hI.startsText v x [] h
    rwa [hx] at this
  exact absurd this (by decide)

section Quoted

variable {single : Bool} {Item : Bytes → Bytes → Prop} {Ends : Place → Prop} {lineBreak : Break}
  {r string value b : Bytes} {s : Scanner Bytes} {start m : Mark} {p : Place}

/-- Where the closing quote is the end of the text. -/
def Closes (single : Bool) (r : Bytes) : Prop :=
  ∃ rest, r = quote single :: rest ∧ (single = true → view rest 0 ≠ octet '\'')

theorem Closes.startsText (h : Closes single r) : StartsText r := by
  obtain ⟨rest, rfl, -⟩ := h
  exact startsText_quote single rest

theorem Closes.isQuote (h : Closes single r) : isQuote single (view r) = true := by
  obtain ⟨rest, rfl, -⟩ := h
  exact isQuote_quote single rest

theorem text_blank {Q : Bytes × Bool → Scanner Bytes → Prop} (h : (isBlank (view b) || isBreak (view b)) = true)
    (hq : Q (string, false) (s.reading m b)) :
    Yields (scanFlowScalarText single start string) (s.reading m b) Q := by
  refine repeatedly_leave ?_ hq
  have hz : isBlankz (view b) = true := by
    unfold isBlankz isBlankzAt isBreakzAt
    change (isBlank (view b) || (isBreak (view b) || _)) = true
    rw [← Bool.or_assoc, h, Bool.true_or]
  rw [look_bind, hz]
  rfl

theorem text_closes {Q : Bytes × Bool → Scanner Bytes → Prop} (h : Closes single r)
    (hq : Q (string, false) (s.reading m r)) :
    Yields (scanFlowScalarText single start string) (s.reading m r) Q := by
  refine repeatedly_leave ?_ hq
  have hz : isBlankz (view r) = false := h.startsText
  have hd : (single && checkAt (view r) '\'' 0 && checkAt (view r) '\'' 1) = false := by
    obtain ⟨rest, rfl, hr⟩ := h
    cases single with
    | true =>
      have : checkAt (view (quote true :: rest)) '\'' 1 = false := by
        rw [checkAt, view_cons_succ]
        exact beq_eq_false_iff_ne.mpr (hr rfl)
      rw [this, Bool.and_false]
    | false => rfl
  rw [look_bind, hz, Bool.not_false, if_pos rfl, look_bind, hd, if_neg Bool.false_ne_true, look_bind,
    h.isQuote, if_pos rfl]
  rfl

/-- A folding with nothing pending. -/
def AtRest (f : Folding) : Prop :=
  f.whitespaces = [] ∧ f.leadingBreak = [] ∧ f.trailingBreaks = []

end Quoted

end Scanner

/-! ## What is written -/

section Laid

variable {Item : Bytes → Bytes → Prop} {lineBreak : Break} {value b : Bytes}

end Laid

namespace Emitter

/-- A new line in the place of a space starts one, except behind a space. -/
def Foldable (spaces : Bool) (s : Emitter Unit) : Prop :=
  s.indention = false ∨ s.indent.toNat < s.column ∨ (spaces = true ∧ s.indent.toNat ≤ s.column)

theorem Foldable.added {s : Emitter Unit} {spaces spaces' : Bool} {b : Bytes} {n : Nat}
    (h : Foldable spaces s) (hn : 0 < n) : Foldable spaces' (s.added b n) := by
  rcases h with h | h | ⟨-, h⟩
  · exact .inl h
  · exact .inr (.inl (Nat.lt_add_right n h))
  · exact .inr (.inl (Nat.lt_of_le_of_lt h (Nat.lt_add_of_pos_right hn)))

end Emitter

end LibYaml
