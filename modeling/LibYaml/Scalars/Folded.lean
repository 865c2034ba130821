import LibYaml.Scalars.Literal

/-!
# Folded scalars

The writer doubles a break that the scanner would fold, and folds long lines at their spaces.  It
folds lines that start with a blank too, and there the scanner keeps the break.
-/

namespace LibYaml

open Fallible Emitter
open EStateM (Result)

namespace Emitter

/-- The character of a line feed. -/
def feed : Bytes := [octet '\n']

/-- The first character behind the breaks that come next. -/
def behindBreaks (cs : List Bytes) : View := view ((cs.dropWhile fun c => isBreak (view c)).headD [])

/-- Whether the writer puts a break in front of the break `c`. -/
def doubles (c : Bytes) (cs : List Bytes) (breaks leadingSpaces : Bool) : Bool :=
  !breaks && !leadingSpaces && check (view c) '\n' && !isBlankz (behindBreaks (c :: cs))

/-- Characters of a block scalar, as the analysis allows them. -/
structure Blocky (cs : List Bytes) : Prop where
  character : ∀ c ∈ cs, IsCharacter c
  printable : ∀ c ∈ cs, isPrintable (view c) = true
  noSpaceBreak : NoSpaceBreak cs
  noTrailing : ∀ c ∈ cs.getLast?, isSpace (view c) = false

namespace Blocky

variable {c : Bytes} {cs : List Bytes}

theorem tail (h : Blocky (c :: cs)) : Blocky cs where
  character := fun d hd => h.character d (List.mem_cons_of_mem _ hd)
  printable := fun d hd => h.printable d (List.mem_cons_of_mem _ hd)
  noSpaceBreak := (List.isChain_cons.mp h.noSpaceBreak).2
  noTrailing := by
    cases cs with
    | nil => nofun
    | cons d ds =>
      have := h.noTrailing
      rwa [List.getLast?_cons_cons] at this

/-- Behind a space there is no break, and it is not the last character. -/
theorem next (h : Blocky (c :: cs)) (hc : isSpace (view c) = true) :
    ∃ d ds, cs = d :: ds ∧ isBreak (view d) = false := by
  cases cs with
  | nil =>
    have := h.noTrailing c rfl
    rw [hc] at this
    cases this
  | cons d ds => exact ⟨d, ds, rfl, (List.isChain_cons.mp h.noSpaceBreak).1 d rfl hc⟩

end Blocky

section Writing

variable {s : Emitter Unit} {bestWidth : Int} {lineBreak : Break} {indent column : Nat} {d : Bytes}
  {ds : List Bytes} {leadingSpaces : Bool}

end Writing

end Emitter

/-! ## The lines that are spoiled -/

/-- The lines of a value with these characters. -/
def lines (cs : List Bytes) : List (List Bytes) := cs.splitOnP fun c => isBreak (view c)

section Lines

variable {width : Int} {c : Bytes} {cs : List Bytes} {breaks leadingSpaces : Bool} {n : Nat}

end Lines

/-! ## The value -/

namespace Scanner

section Prefix

variable {literal breaks : Bool} {b : BlockScalar} {c : Bytes}

end Prefix

/-- What the scanner holds of the characters `before`, with the characters `cs` to come.  The last
two arguments are the writer's; the one in front says whether the scanner is behind a break. -/
inductive Taken (b : BlockScalar) (before cs : List Bytes) : Bool → Bool → Bool → Prop
  /-- Within a line. -/
  | inside {leadingSpaces : Bool} (hb : b.Inside) (hs : b.string = before.flatten)
      (hl : b.leadingBlank = leadingSpaces) : Taken b before cs false false leadingSpaces
  /-- Behind breaks that the scanner keeps. -/
  | kept {leadingSpaces : Bool} (ha : b.all = before.flatten)
      (hv : b.value (chomping before.reverse) = before.flatten) (hoff : brokenOff true before = true)
      (hk : b.leadingBreak.headD 0 = octet '\n' → b.leadingBlank = false → isBlankz (behindBreaks cs) = true) :
      Taken b before cs true true leadingSpaces
  /-- Behind breaks of which the scanner drops the first. -/
  | doubled {leadingSpaces : Bool} (hs : b.string ++ b.trailingBreaks = before.flatten)
      (hb : b.leadingBreak = feed) (ht : b.trailingBreaks.headD 0 ≠ 0) (hl : b.leadingBlank = false)
      (hn : isBlankz (behindBreaks cs) = false) : Taken b before cs true true leadingSpaces
  /-- Behind a new line in the place of a space. -/
  | folded (hs : b.string ++ [blank] = before.flatten) (hb : b.leadingBreak = feed)
      (ht : b.trailingBreaks = []) (hl : b.leadingBlank = false)
      (hn : isBlankz (view (cs.headD [])) = false) : Taken b before cs true false false

section Taking

variable {b : BlockScalar} {before cs : List Bytes} {c : Bytes} {ended breaks leadingSpaces : Bool}

theorem chomping_of_break (hc : isBreak (view c) = true) (before : List Bytes) :
    chomping (c :: before.reverse) = if brokenOff true before then .keep else .clip := by
  rcases List.eq_nil_or_concat before with rfl | ⟨before, d, rfl⟩
  · simp only [List.reverse_nil, chomping, hc]
    rfl
  · rw [List.concat_eq_append, List.reverse_append, List.reverse_singleton, List.singleton_append,
      brokenOff_append]
    simp only [chomping, hc]
    rfl

theorem behindBreaks_break (hc : isBreak (view c) = true) : behindBreaks (c :: cs) = behindBreaks cs := by
  unfold behindBreaks
  rw [List.dropWhile_cons, if_pos hc]

theorem behindBreaks_text (hc : isBreak (view c) = false) : behindBreaks (c :: cs) = view c := by
  unfold behindBreaks
  rw [List.dropWhile_cons, hc, if_neg Bool.false_ne_true, List.headD_cons]

theorem headD_eq_view (c : Bytes) : c.headD 0 = view c 0 := by
  cases c <;> rfl

/-- A break that comes next. -/
theorem Taken.lineBreak (h : Taken b before (c :: cs) ended breaks leadingSpaces)
    (hc : isBreak (view c) = true) :
    Taken (b.takeAll false ((if doubles c cs breaks leadingSpaces then [feed] else []) ++ [c]) ended)
      (before ++ [c]) cs true true leadingSpaces := by
  have hreverse : (before ++ [c]).reverse = c :: before.reverse := by simp
  have hoff : brokenOff true (before ++ [c]) = true := by
    rw [brokenOff_append]
    exact hc
  have hfeed : isBreak (view feed) = true := by decide
  cases h with
  | inside hb hs hl =>
    obtain ⟨hb1, hb2⟩ := hb
    by_cases hd : doubles c cs false leadingSpaces = true
    · rw [if_pos hd]
      unfold doubles at hd
      rw [behindBreaks_break hc] at hd
      simp only [Bool.and_eq_true, Bool.not_eq_true'] at hd
      obtain ⟨⟨⟨-, rfl⟩, hline⟩, hnext⟩ := hd
      refine .doubled ?_ ?_ ?_ ?_ hnext
      all_goals simp only [List.singleton_append, BlockScalar.takeAll, BlockScalar.take, hfeed, hc,
        if_true, Bool.false_eq_true, if_false]
      · rw [hb2, List.nil_append, hs]
        simp
      · rw [hb2, List.nil_append, headD_eq_view, beq_iff_eq.mp hline]
        decide
      · exact hl
    · rw [if_neg hd]
      refine .kept ?_ ?_ hoff fun hline hblank => ?_
      · simp [BlockScalar.takeAll, BlockScalar.take, BlockScalar.all, hc, hb2, hs]
      · rw [hreverse, chomping_of_break hc]
        split <;> simp [BlockScalar.takeAll, BlockScalar.take, BlockScalar.value, hc, hb2, hs]
      · simp only [List.nil_append, BlockScalar.takeAll, BlockScalar.take, hc, if_true,
          Bool.false_eq_true, if_false] at hline hblank
        rw [headD_eq_view] at hline
        have hline : check (view c) '\n' = true := beq_iff_eq.mpr hline
        refine Bool.of_not_eq_false fun hn => hd ?_
        unfold doubles
        rw [behindBreaks_break hc, ← hl, hblank, hline, hn]
        rfl
  | kept ha hv hoff' hk =>
    have hd : doubles c cs true leadingSpaces = false := rfl
    rw [hd, if_neg Bool.false_ne_true]
    rw [behindBreaks_break hc] at hk
    have hall : (b.take false true c).all = (before ++ [c]).flatten := by
      simp [BlockScalar.take, BlockScalar.all, hc, ← ha]
    refine .kept hall ?_ hoff ?_
    · rw [hreverse, chomping_of_break hc, hoff', if_pos rfl]
      exact hall
    · simpa only [List.nil_append, BlockScalar.takeAll, BlockScalar.take, hc, if_true] using hk
  | doubled hs hb ht hl hn =>
    have hd : doubles c cs true leadingSpaces = false := rfl
    rw [hd, if_neg Bool.false_ne_true]
    rw [behindBreaks_break hc] at hn
    refine .doubled ?_ ?_ ?_ ?_ hn
    all_goals simp only [List.nil_append, BlockScalar.takeAll, BlockScalar.take, hc, if_true]
    · rw [← List.append_assoc, hs]
      simp
    · exact hb
    · cases hT : b.trailingBreaks with
      | nil =>
        rw [hT] at ht
        exact absurd rfl ht
      | cons t ts =>
        rw [hT] at ht
        exact ht
    · exact hl
  | folded hs hb ht hl hn =>
    have : isBreak (view c) = false := (Bool.or_eq_false_iff.mp (Bool.or_eq_false_iff.mp hn).2).1
    rw [hc] at this
    cases this

/-- A character within a line that is laid as it is. -/
theorem Taken.text (h : Taken b before (c :: cs) ended breaks leadingSpaces)
    (hc : isBreak (view c) = false) (hz : isZ (view c) = false) :
    Taken (b.take false ended c) (before ++ [c]) cs false false
      (if breaks then isBlank (view c) else leadingSpaces) := by
  have hflat : (before ++ [c]).flatten = before.flatten ++ c := by simp
  have hstart (hs : b.fold false (isBlank (view c)) = before.flatten) :
      Taken (b.take false true c) (before ++ [c]) cs false false (isBlank (view c)) := by
    unfold BlockScalar.take
    rw [hc, if_neg Bool.false_ne_true, if_pos rfl, hs]
    exact .inside ⟨rfl, rfl⟩ hflat.symm rfl
  cases h with
  | inside hb hs hl =>
    unfold BlockScalar.take
    rw [hc, if_neg Bool.false_ne_true, if_neg Bool.false_ne_true, if_neg Bool.false_ne_true, hs, ← hflat]
    exact .inside hb rfl hl
  | kept ha hv hoff hk =>
    rw [behindBreaks_text hc] at hk
    refine hstart ?_
    have hkeep : (b.leadingBreak.headD 0 == octet '\n' && !b.leadingBlank && !isBlank (view c)) = false := by
      refine Bool.eq_false_iff.mpr fun h => ?_
      simp only [Bool.and_eq_true, Bool.not_eq_true', beq_iff_eq] at h
      have hbz : (isBlank (view c) || (isBreak (view c) || isZ (view c))) = true := hk h.1.1 h.1.2
      rw [h.2, hc, hz] at hbz
      cases hbz
    unfold BlockScalar.fold
    simp only [Bool.not_false, Bool.true_and, hkeep, Bool.false_eq_true, if_false]
    exact ha
  | doubled hs hb ht hl hn =>
    rw [behindBreaks_text hc] at hn
    have hblank : isBlank (view c) = false := (Bool.or_eq_false_iff.mp hn).1
    refine hstart ?_
    have hz : (b.trailingBreaks.headD 0 == 0) = false := beq_eq_false_iff_ne.mpr ht
    unfold BlockScalar.fold
    rw [hb, hl, hblank, hz]
    exact hs
  | folded hs hb ht hl hn =>
    have hblank : isBlank (view c) = false := (Bool.or_eq_false_iff.mp hn).1
    have hfold : b.fold false (isBlank (view c)) = before.flatten := by
      unfold BlockScalar.fold
      rw [hb, hl, hblank, ht]
      exact (List.append_nil _).trans hs
    have hnew := hstart hfold
    rw [hblank] at hnew
    exact hnew

/-- A new line in the place of a space, on a line that does not start with a blank. -/
theorem Taken.fold (h : Taken b before (c :: cs) ended false false) (hc : c = [blank])
    (hn : isBlankz (view (cs.headD [])) = false) :
    Taken (b.take false ended feed) (before ++ [c]) cs true false false := by
  have hfeed : isBreak (view feed) = true := by decide
  cases h with
  | inside hb hs hl =>
    refine .folded ?_ ?_ ?_ ?_ hn
    all_goals simp only [BlockScalar.take, hfeed, if_true, Bool.false_eq_true, if_false]
    · simp [hs, hc]
    · exact hb.2
    · exact hl
  | folded hs hb ht hl hn =>
    rw [hc] at hn
    cases hn

/-- At the end the value has been taken. -/
theorem Taken.done (h : Taken b before [] ended breaks leadingSpaces) :
    b.value (chomping before.reverse) = before.flatten := by
  cases h with
  | inside hb hs hl =>
    unfold BlockScalar.value
    split <;> simp [hb.1, hb.2, hs]
  | kept ha hv hoff hk => exact hv
  | doubled hs hb ht hl hn => exact absurd hn (by decide)
  | folded hs hb ht hl hn => exact absurd hn (by decide)

end Taking

end Scanner

section Laying

variable {bestWidth : Int} {indent : Nat}

end Laying

namespace Emitter

end Emitter

/-- An emitter with short lines. -/
def narrow : Emitter (List Bool) := { inBlock with bestWidth := 5 }

end LibYaml
