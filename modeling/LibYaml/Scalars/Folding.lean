import LibYaml.Scalars.Breaks

/-!
# Folded lines

A flow scalar is written with new lines in the place of some of its spaces, and with the line breaks
of its value.  `Laid` says of a written text which value it stands for; the scanner's loop over the
blanks between two runs of text finds that value.
-/

namespace LibYaml

open Fallible Emitter
open EStateM (Result)

/-- What the last thing written is: text, a space of the value, a break, or the indentation of a new
line. -/
inductive Place
  | text | space | lines | indent
deriving DecidableEq

/-- The rest of a written scalar and of its value; `Item v x` says that the text `x` stands for `v`,
`Ends p` that the scalar may end where the last thing written is `p`. -/
inductive Laid (Item : Bytes → Bytes → Prop) (Ends : Place → Prop) (lineBreak : Break) :
    Place → Bytes → Bytes → Prop
  | done {p : Place} (hp : Ends p) : Laid Item Ends lineBreak p [] []
  | item {p : Place} {v x value b : Bytes} (hp : p ≠ .lines) (h : Item v x)
      (hb : Laid Item Ends lineBreak .text value b) :
      Laid Item Ends lineBreak p (v ++ value) (x ++ b)
  | space {p : Place} {value b : Bytes} (hp : p = .text ∨ p = .space)
      (hb : Laid Item Ends lineBreak .space value b) :
      Laid Item Ends lineBreak p (blank :: value) (blank :: b)
  /-- A space in whose place there is a new line. -/
  | fold {n : Nat} {value b : Bytes} (hn : 0 < n) (hb : Laid Item Ends lineBreak .indent value b) :
      Laid Item Ends lineBreak .text (blank :: value)
        (breakBytes lineBreak ++ (List.replicate n blank ++ b))
  /-- A line feed behind text is written twice, as one alone would be folded. -/
  | feed {value b : Bytes} (hb : Laid Item Ends lineBreak .lines value b) :
      Laid Item Ends lineBreak .text (0x0A :: value)
        (breakBytes lineBreak ++ (breakBytes lineBreak ++ b))
  | separator {c value b : Bytes} (hc : IsLineBreak c) (hne : c ≠ [0x0A])
      (hb : Laid Item Ends lineBreak .lines value b) :
      Laid Item Ends lineBreak .text (c ++ value) (c ++ b)
  | line {c value b : Bytes} (hc : IsLineBreak c) (hb : Laid Item Ends lineBreak .lines value b) :
      Laid Item Ends lineBreak .lines (c ++ value) (brokenAs lineBreak c ++ b)
  | indent {n : Nat} {value b : Bytes} (hn : 0 < n) (hb : Laid Item Ends lineBreak .indent value b) :
      Laid Item Ends lineBreak .lines value (List.replicate n blank ++ b)

/-- Neither a blank nor a break nor the end comes next. -/
def StartsText (b : Bytes) : Prop := isBlankz (view b) = false

section Views

variable {b c r : Bytes}

theorem not_blank_of_startsText (h : StartsText b) : isBlank (view b) = false := by
  unfold StartsText isBlankz isBlankzAt at h
  exact (Bool.or_eq_false_iff.mp h).1

theorem not_break_of_startsText (h : StartsText b) : isBreak (view b) = false := by
  unfold StartsText isBlankz isBlankzAt isBreakzAt at h
  exact (Bool.or_eq_false_iff.mp (Bool.or_eq_false_iff.mp h).2).1

theorem not_z_of_startsText (h : StartsText b) : isZ (view b) = false := by
  unfold StartsText isBlankz isBlankzAt isBreakzAt at h
  exact (Bool.or_eq_false_iff.mp (Bool.or_eq_false_iff.mp h).2).2

/-- A break is no blank. -/
theorem not_blank_of_break {v : View} (h : isBreak v = true) : isBlank v = false := by
  unfold isBlank isBlankAt isSpaceAt isTabAt checkAt
  rcases isBreak_cases h with h | h | ⟨h, -⟩ | ⟨h, -⟩ <;> rw [h] <;> rfl

theorem noFeed_of_startsText {lineBreak : Break} (h : StartsText b) : NoFeed lineBreak b := by
  intro _ hf
  have := not_break_of_startsText h
  unfold isBreak isBreakAt checkAt at this
  rw [hf] at this
  simp at this

theorem startsText_append {c r : Bytes} (hc : IsCharacter c) (h : StartsText c) : StartsText (c ++ r) :=
  (Local.isBlankz (n := 0) _ _ (agree_character hc)).trans h

end Views

namespace Scanner

/-! ## Blanks and breaks -/

/-- A folding behind the first break of a run or, in one, behind one more. -/
def Folding.broken (f : Folding) (c : Bytes) : Folding :=
  if f.leadingBlanks then { f with trailingBreaks := f.trailingBreaks ++ c }
  else { f with whitespaces := [], leadingBreak := f.leadingBreak ++ c, leadingBlanks := true }

section Blanks

variable {s : Scanner Bytes} {m start : Mark} {b c r : Bytes} {lineBreak : Break}
  {violates : Folding → Mark → View → Bool} {f : Folding} {Q : Folding → Scanner Bytes → Prop}

end Blanks

/-- The folding that has met what `Laid` has laid so far. -/
def Met : Place → Folding → Prop
  | .text, f => f.leadingBlanks = false ∧ f.whitespaces = [] ∧ f.leadingBreak = [] ∧
      f.trailingBreaks = []
  | .space, f => f.leadingBlanks = false ∧ f.leadingBreak = [] ∧ f.trailingBreaks = []
  | .lines, f => f.leadingBlanks = true ∧ f.whitespaces = [] ∧
      (f.leadingBreak.headD 0 = octet '\n' → f.trailingBreaks ≠ []) ∧
      (f.trailingBreaks ≠ [] → f.trailingBreaks.headD 0 ≠ 0)
  | .indent, f => f.leadingBlanks = true ∧ f.whitespaces = [] ∧
      (f.trailingBreaks ≠ [] → f.trailingBreaks.headD 0 ≠ 0)

namespace Met

variable {p : Place} {f : Folding} {string c : Bytes}

theorem indent_of_lines (h : Met .lines f) : Met .indent f := ⟨h.1, h.2.1, h.2.2.2⟩

theorem space_of_text (h : Met .text f) : Met .space f := ⟨h.1, h.2.2⟩

/-- Before the first break the blanks count. -/
theorem fold_blanks (h : Met .space f) : f.fold = { string := f.string ++ f.whitespaces } := by
  obtain ⟨string, leadingBreak, trailingBreaks, whitespaces, leadingBlanks⟩ := f
  obtain ⟨rfl, rfl, rfl⟩ := h
  rfl

/-- Behind it the breaks do, but for a first line feed. -/
theorem fold_breaks (h : Met .indent f) : f.fold =
    { string := f.string ++
        (if f.leadingBreak.headD 0 = octet '\n' then
          if f.trailingBreaks = [] then [blank] else f.trailingBreaks
        else f.leadingBreak ++ f.trailingBreaks)
      leadingBlanks := true } := by
  obtain ⟨string, leadingBreak, trailingBreaks, whitespaces, leadingBlanks⟩ := f
  obtain ⟨rfl, rfl, h⟩ := h
  unfold Folding.fold
  by_cases hl : leadingBreak.headD 0 = octet '\n'
  · cases trailingBreaks with
    | nil => simp [-List.headD_eq_head?_getD, hl, blank]
    | cons b bs =>
      have hb : b ≠ 0 := h (List.cons_ne_nil b bs)
      simp [-List.headD_eq_head?_getD, hl, hb]
  · simp [-List.headD_eq_head?_getD, hl]

/-- Nothing stays pending behind a folding but its string. -/
theorem fold (h : Met p f) : f.fold = { string := f.fold.string, leadingBlanks := f.leadingBlanks } := by
  have hs (h : Met .space f) : f.fold = { string := f.fold.string, leadingBlanks := f.leadingBlanks } := by
    rw [h.fold_blanks, h.1]
  have hi (h : Met .indent f) : f.fold = { string := f.fold.string, leadingBlanks := f.leadingBlanks } := by
    rw [h.fold_breaks, h.1]
  cases p with
  | text => exact hs h.space_of_text
  | space => exact hs h
  | lines => exact hi h.indent_of_lines
  | indent => exact hi h

/-- The first break of a run. -/
theorem broken_text (h : Met .text f) :
    f.broken c = { string := f.string, leadingBreak := c, leadingBlanks := true } := by
  obtain ⟨string, leadingBreak, trailingBreaks, whitespaces, leadingBlanks⟩ := f
  obtain ⟨rfl, rfl, rfl, rfl⟩ := h
  rfl

theorem string_of_text (h : Met .text f) : f.fold.string = f.string := by
  rw [h.space_of_text.fold_blanks, h.2.1, List.append_nil]

theorem folded (h : Met .text f) : Met .indent (f.broken [0x0A]) ∧
    (f.broken [0x0A]).fold.string = f.fold.string ++ [blank] := by
  rw [h.string_of_text, h.broken_text]
  exact ⟨⟨rfl, rfl, fun h => absurd rfl h⟩, rfl⟩

end Met

/-- What the blanks and breaks of a laid text leave: a folding with what they stood for, at text. -/
def WentThrough (Item : Bytes → Bytes → Prop) (Ends : Place → Prop) (lineBreak : Break) (r : Bytes)
    (s : Scanner Bytes) (f : Folding) (value b : Bytes) (f' : Folding) (t : Scanner Bytes) : Prop :=
  ∃ v v' p b' m, value = v ++ v' ∧ t = s.reading m (b' ++ r) ∧ 1 ≤ m.column ∧
    Laid Item Ends lineBreak p v' b' ∧ p ≠ .lines ∧ Met p f' ∧ f'.fold.string = f.fold.string ++ v ∧
    b' <:+ b ∧ StartsText (b' ++ r)

namespace WentThrough

variable {Item : Bytes → Bytes → Prop} {Ends : Place → Prop} {lineBreak : Break} {r value b v c : Bytes}
  {s : Scanner Bytes} {m : Mark} {f g f' : Folding} {t : Scanner Bytes}

theorem here {p : Place} (hm : 1 ≤ m.column) (h : Laid Item Ends lineBreak p value b) (hp : p ≠ .lines)
    (hf : Met p f) (hs : StartsText (b ++ r)) :
    WentThrough Item Ends lineBreak r s f value b f (s.reading m (b ++ r)) :=
  ⟨[], value, p, b, m, rfl, rfl, hm, h, hp, hf, (List.append_nil _).symm, List.suffix_refl b, hs⟩

theorem behind (h : WentThrough Item Ends lineBreak r s g value b f' t)
    (hg : g.fold.string = f.fold.string ++ v) :
    WentThrough Item Ends lineBreak r s f (v ++ value) (c ++ b) f' t := by
  obtain ⟨v₁, v', p, b', m, hv, ht, hm, hl, hp, hf, hs, hb, hst⟩ := h
  refine ⟨v ++ v₁, v', p, b', m, ?_, ht, hm, hl, hp, hf, ?_, hb.trans (List.suffix_append c b), hst⟩
  · rw [hv, List.append_assoc]
  · rw [hs, hg, List.append_assoc]

end WentThrough

section Blanks

variable {Item : Bytes → Bytes → Prop} {Ends : Place → Prop} {lineBreak : Break} {r : Bytes}
  {s : Scanner Bytes} {start : Mark} {violates : Folding → Mark → View → Bool}

theorem noFeed_brokenAs {c : Bytes} (hc : IsLineBreak c) : NoFeed lineBreak (brokenAs lineBreak c ++ r) := by
  rintro rfl
  rcases hc with rfl | rfl | rfl
  · rw [brokenAs_feed]
    exact (by decide : octet '\r' ≠ octet '\n')
  · rw [brokenAs_separator]
    exact (by decide : (0xE2 : UInt8) ≠ octet '\n')
  · rw [brokenAs_separator]
    exact (by decide : (0xE2 : UInt8) ≠ octet '\n')

theorem noFeed_spaces {n : Nat} (hn : 0 < n) : NoFeed lineBreak (List.replicate n blank ++ r) := by
  intro _
  cases n with
  | zero => exact absurd hn (Nat.lt_irrefl 0)
  | succ n => exact (by decide : blank ≠ octet '\n')

end Blanks

end Scanner

end LibYaml
