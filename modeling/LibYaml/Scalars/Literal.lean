import LibYaml.Scalars.Block

/-!
# Literal scalars

The header says how many breaks end the value and, where its first line would not show it, how far
its lines are indented; the rest is the value with its lines indented.
-/

namespace LibYaml

open Fallible Emitter
open EStateM (Result)

/-! ## The header -/

namespace Emitter

open Scanner (Chomping hintText chompText brokenOff)

/-- The chomping for a value with these characters, the last first. -/
def chomping : List Bytes → Chomping
  | [] => .strip
  | c :: rest =>
    if !isBreak (view c) then .strip
    else match rest with
      | [] => .keep
      | d :: _ => if isBreak (view d) then .keep else .clip

/-- The indentation indicator that a value with these characters needs. -/
def increment (bestIndent : Int) (cs : List Bytes) : Nat :=
  if isSpace (view (cs.headD [])) || isBreak (view (cs.headD [])) then bestIndent.toNat else 0

section Writing

variable {s : Emitter Unit}

end Writing

end Emitter

/-! ## The value -/

namespace Scanner

section Value

variable {literal breaks : Bool} {b : BlockScalar} {c : Bytes} {cs : List Bytes}

/-- All that has been taken. -/
def BlockScalar.all (b : BlockScalar) : Bytes := b.string ++ b.leadingBreak ++ b.trailingBreaks

/-- A scalar within a line. -/
def BlockScalar.Inside (b : BlockScalar) : Prop := b.leadingBreak = [] ∧ b.trailingBreaks = []

end Value

end Scanner

/-! ## The collections around a scalar -/

/-- The indentation of the emitter and that of the scanner among the same block collections.  The
indicators and keys of a collection stand at the emitter's indentation, and the scanner rolls to
the column they stand in. -/
inductive BlockContext (bestIndent : Int) : Int → Int → Prop
  | root : BlockContext bestIndent (-1) (-1)
  | collection {outer around : Int} (indentless : Bool) (h : BlockContext bestIndent outer around) :
      BlockContext bestIndent (deeper outer bestIndent false indentless)
        (max around (deeper outer bestIndent false indentless))

theorem BlockContext.agree {bestIndent outer around : Int} (hb : 0 ≤ bestIndent)
    (h : BlockContext bestIndent outer around) : around = outer ∧ -1 ≤ outer := by
  induction h with
  | root => exact ⟨rfl, Int.le_refl _⟩
  | collection indentless _ ih =>
    unfold deeper
    split_ifs <;> omega

namespace Scanner

/-- Rolling takes the scanner's indentation as far as the column. -/
theorem rollIndent_indent {ι : Type} {s t : Scanner ι} {column : Nat} {number : Option Nat}
    {data : TokenData} {mark : Mark} (hf : s.flowLevel = 0)
    (h : rollIndent column number data mark s = .ok () t) : t.indent = max s.indent column := by
  unfold rollIndent at h
  rw [bind_of_ok (get_apply s)] at h
  by_cases hi : s.indent < (column : Int)
  · rw [Int.max_eq_right (Int.le_of_lt hi)]
    by_cases hc : maxInt < column
    · simp only [hf, hi, hc, decide_true, Bool.and_self, onlyIf, if_true] at h
      cases h
    · simp only [hf, hi, decide_true, Bool.and_self, onlyIf, if_true, if_neg hc] at h
      cases number with
      | none =>
        cases h
        rfl
      | some number =>
        obtain ⟨_, _, ⟨⟩, h⟩ := bind_ok h
        obtain ⟨_, _, ⟨⟩, h⟩ := bind_ok h
        simp only [insertToken] at h
        split_ifs at h
        cases h
        rfl
  · simp only [hi, decide_false, Bool.and_false, onlyIf, Bool.false_eq_true, if_false] at h
    cases h
    exact (Int.max_eq_left (Int.not_lt.mp hi)).symm

end Scanner

section Context

variable {σ : Type} {s : Emitter σ} {outer around : Int} {cs : List Bytes}

end Context

end LibYaml
