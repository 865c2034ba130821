import Mathlib.Data.List.Chain
import LibYaml.Scalars.Folding

/-!
# What the analysis of a value rules out

A flag that a character sets stays set, so where a style is allowed no character set the flags
against it.
-/

namespace LibYaml

namespace Emitter

open Fallible

/-- A flag against some style that is not set in `g` is not set in `f`. -/
structure Kept (f g : ScalarFlags) : Prop where
  blockIndicators : g.blockIndicators = false → f.blockIndicators = false
  flowIndicators : g.flowIndicators = false → f.flowIndicators = false
  lineBreaks : g.lineBreaks = false → f.lineBreaks = false
  specialCharacters : g.specialCharacters = false → f.specialCharacters = false
  leadingSpace : g.leadingSpace = false → f.leadingSpace = false
  leadingBreak : g.leadingBreak = false → f.leadingBreak = false
  trailingSpace : g.trailingSpace = false → f.trailingSpace = false
  trailingBreak : g.trailingBreak = false → f.trailingBreak = false
  breakSpace : g.breakSpace = false → f.breakSpace = false
  spaceBreak : g.spaceBreak = false → f.spaceBreak = false

namespace Kept

variable {f g h : ScalarFlags}

theorem refl (f : ScalarFlags) : Kept f f := by
  constructor <;> exact id

theorem trans (hfg : Kept f g) (hgh : Kept g h) : Kept f h where
  blockIndicators := hfg.blockIndicators ∘ hgh.blockIndicators
  flowIndicators := hfg.flowIndicators ∘ hgh.flowIndicators
  lineBreaks := hfg.lineBreaks ∘ hgh.lineBreaks
  specialCharacters := hfg.specialCharacters ∘ hgh.specialCharacters
  leadingSpace := hfg.leadingSpace ∘ hgh.leadingSpace
  leadingBreak := hfg.leadingBreak ∘ hgh.leadingBreak
  trailingSpace := hfg.trailingSpace ∘ hgh.trailingSpace
  trailingBreak := hfg.trailingBreak ∘ hgh.trailingBreak
  breakSpace := hfg.breakSpace ∘ hgh.breakSpace
  spaceBreak := hfg.spaceBreak ∘ hgh.spaceBreak

end Kept

section Flags

variable {unicode start last followed : Bool} {p : View} {f : ScalarFlags}

theorem kept_characterFlags : Kept f (characterFlags unicode p start last followed f) := by
  unfold characterFlags indicatorFlags
  constructor <;> intro h <;> cases start <;>
    simp only [Bool.false_eq_true, if_false, if_true] at h <;>
    split_ifs at h <;> simp_all

theorem kept_scanFlags : ∀ (cs : List Bytes) (start : Bool) (f : ScalarFlags),
    Kept f (scanFlags unicode cs start f)
  | [], _, f => .refl f
  | _ :: cs, _, _ => kept_characterFlags.trans (kept_scanFlags cs false _)

theorem characterFlags_lineBreaks (h : (characterFlags unicode p start last followed f).lineBreaks = false) :
    isBreak p = false := by
  unfold characterFlags indicatorFlags at h
  cases start <;> simp only [Bool.false_eq_true, if_false, if_true] at h <;> split_ifs at h <;> simp_all

end Flags

section Scan

variable {unicode : Bool}

theorem scan_lineBreaks : ∀ {cs : List Bytes} {start : Bool} {f : ScalarFlags},
    (scanFlags unicode cs start f).lineBreaks = false → ∀ c ∈ cs, isBreak (view c) = false
  | [], _, _, _ => nofun
  | c :: cs, _, _, h => by
    have hc := (kept_scanFlags cs false _).lineBreaks h
    exact List.forall_mem_cons.mpr ⟨characterFlags_lineBreaks hc, scan_lineBreaks h⟩

/-- No space stands in front of a break. -/
def NoSpaceBreak (cs : List Bytes) : Prop :=
  cs.IsChain fun c d => isSpace (view c) = true → isBreak (view d) = false

end Scan

end Emitter

end LibYaml
