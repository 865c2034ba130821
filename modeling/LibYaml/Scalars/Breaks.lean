import LibYaml.Emitter.Page
import LibYaml.Scanner.Text

/-!
# Line breaks

The breaks that a scalar may keep in a style other than the double-quoted one: a line feed, which is
written as the emitter's break and read as a line feed, and the two separators of Unicode.
-/

namespace LibYaml

open Fallible Emitter
open EStateM (Result)

/-- A break of a value that is printable. -/
def IsLineBreak (c : Bytes) : Prop :=
  c = [0x0A] ∨ c = [0xE2, 0x80, 0xA8] ∨ c = [0xE2, 0x80, 0xA9]

/-- Behind a CR there comes no LF that would belong to it. -/
def NoFeed (lineBreak : Break) (r : Bytes) : Prop := lineBreak = .cr → view r 0 ≠ octet '\n'

section Breaks

variable {c r string : Bytes} {lineBreak : Break} {s : Scanner Bytes} {m : Mark}

theorem IsLineBreak.isBreak (h : IsLineBreak c) : isBreak (view c) = true := by
  rcases h with rfl | rfl | rfl <;> decide

theorem isBreak_cases {v : View} (h : isBreak v = true) :
    v 0 = 0x0D ∨ v 0 = 0x0A ∨ (v 0 = 0xC2 ∧ v 1 = 0x85) ∨
      (v 0 = 0xE2 ∧ v 1 = 0x80 ∧ (v 2 = 0xA8 ∨ v 2 = 0xA9)) := by
  unfold isBreak isBreakAt checkAt at h
  simp only [Bool.or_eq_true, Bool.and_eq_true, beq_iff_eq, Nat.zero_add] at h
  rcases h with (((h | h) | h) | h) | h
  · exact .inl h
  · exact .inr (.inl h)
  · exact .inr (.inr (.inl h))
  · exact .inr (.inr (.inr ⟨h.1.1, h.1.2, .inl h.2⟩))
  · exact .inr (.inr (.inr ⟨h.1.1, h.1.2, .inr h.2⟩))

theorem brokenAs_feed : brokenAs lineBreak [0x0A] = breakBytes lineBreak := by
  unfold brokenAs
  rw [if_pos (by decide)]

theorem brokenAs_separator {b : UInt8} : brokenAs lineBreak [0xE2, 0x80, b] = [0xE2, 0x80, b] := by
  have : check (view [0xE2, 0x80, b]) '\n' = false := by
    change ((0xE2 : UInt8) == octet '\n') = false
    decide
  unfold brokenAs
  rw [this, if_neg Bool.false_ne_true]

theorem brokenAs_length_pos (hl : lineBreak ≠ .any) (h : IsLineBreak c) :
    0 < (brokenAs lineBreak c).length := by
  rcases h with rfl | rfl | rfl
  · rw [brokenAs_feed]
    cases lineBreak with
    | any => exact absurd rfl hl
    | cr | ln | crln => decide
  · rw [brokenAs_separator]
    decide
  · rw [brokenAs_separator]
    decide

/-- What a written break starts with is a break. -/
theorem isBreak_brokenAs (hl : lineBreak ≠ .any) (h : IsLineBreak c) :
    LibYaml.isBreak (view (brokenAs lineBreak c ++ r)) = true := by
  rcases h with rfl | rfl | rfl
  · rw [brokenAs_feed]
    cases lineBreak with
    | any => exact absurd rfl hl
    | cr | ln | crln => rfl
  · rw [brokenAs_separator]
    rfl
  · rw [brokenAs_separator]
    rfl

theorem readLine_break (hl : lineBreak ≠ .any) (h : IsLineBreak c) (hr : NoFeed lineBreak r) :
    ∃ n, Scanner.readLine string (s.reading m (brokenAs lineBreak c ++ r))
      = .ok (string ++ c) (s.reading (m.down n) r) := by
  unfold Scanner.readLine
  rw [Scanner.look_bind]
  rcases h with rfl | rfl | rfl
  · rw [brokenAs_feed]
    cases lineBreak with
    | any => exact absurd rfl hl
    | cr =>
      have hf : isCrlf (view (breakBytes .cr ++ r)) = false := by
        have : view (breakBytes .cr ++ r) 1 = view r 0 := view_cons_succ _ _ _
        rw [isCrlf, checkAt, checkAt, this, beq_eq_false_iff_ne.mpr (hr rfl), Bool.and_false]
      rw [hf]
      exact ⟨1, rfl⟩
    | ln => exact ⟨1, rfl⟩
    | crln => exact ⟨2, rfl⟩
  · rw [brokenAs_separator]
    exact ⟨1, rfl⟩
  · rw [brokenAs_separator]
    exact ⟨1, rfl⟩

end Breaks

/-! ## Every break -/

/-- What ends a line. -/
inductive LineEnding
  | cr | lf | crlf | nel | ls | ps
deriving DecidableEq, Repr

namespace LineEnding

def bytes : LineEnding → Bytes
  | .cr => [0x0D]
  | .lf => [0x0A]
  | .crlf => [0x0D, 0x0A]
  | .nel => [0xC2, 0x85]
  | .ls => [0xE2, 0x80, 0xA8]
  | .ps => [0xE2, 0x80, 0xA9]

/-- What is read for it: the separators of Unicode stay, the others are line feeds. -/
def value : LineEnding → Bytes
  | .ls => [0xE2, 0x80, 0xA8]
  | .ps => [0xE2, 0x80, 0xA9]
  | _ => [0x0A]

/-- A CR does not take an LF behind it for itself. -/
def Stands (e : LineEnding) (r : Bytes) : Prop := e = .cr → view r 0 ≠ octet '\n'

variable {e : LineEnding} {r string : Bytes} {s : Scanner Bytes} {m : Mark}

theorem bytes_length_pos (e : LineEnding) : 0 < e.bytes.length := by
  cases e <;> decide

theorem isBreak_bytes (e : LineEnding) (r : Bytes) : isBreak (view (e.bytes ++ r)) = true := by
  cases e <;> rfl

theorem isCrlf_cr (h : Stands .cr r) : isCrlf (view (cr.bytes ++ r)) = false := by
  have hnext : view (cr.bytes ++ r) 1 = view r 0 := view_cons_succ _ _ _
  rw [isCrlf, checkAt, checkAt, hnext, beq_eq_false_iff_ne.mpr (h rfl), Bool.and_false]

theorem readLine_bytes (h : e.Stands r) :
    ∃ n, Scanner.readLine string (s.reading m (e.bytes ++ r)) = .ok (string ++ e.value) (s.reading (m.down n) r) := by
  unfold Scanner.readLine
  rw [Scanner.look_bind]
  cases e with
  | cr =>
    rw [isCrlf_cr h]
    exact ⟨1, rfl⟩
  | crlf => exact ⟨2, rfl⟩
  | lf | nel | ls | ps => exact ⟨1, rfl⟩

theorem isCharacter_bytes (h : e ≠ .crlf) : IsCharacter e.bytes := by
  cases e with
  | crlf => exact absurd rfl h
  | cr | lf | nel | ls | ps => exact ⟨nofun, by decide⟩

theorem isCrlf_bytes (h : e.Stands r) (hne : e ≠ .crlf) : isCrlf (view (e.bytes ++ r)) = false := by
  cases e with
  | cr => exact isCrlf_cr h
  | crlf => exact absurd rfl hne
  | lf | nel | ls | ps => rfl

theorem skipLine_bytes (h : e.Stands r) :
    ∃ n, Scanner.skipLine (s.reading m (e.bytes ++ r)) = .ok () (s.reading (m.down n) r) := by
  by_cases hne : e = .crlf
  · subst hne
    exact ⟨2, rfl⟩
  · have hd : (e.bytes ++ r).drop e.bytes.length = r := List.drop_left
    unfold Scanner.skipLine
    rw [Scanner.look_bind, isCrlf_bytes h hne, if_neg Bool.false_ne_true, Scanner.look_bind,
      if_pos (isBreak_bytes e r), Scanner.look_bind, width_character (isCharacter_bytes hne)]
    refine ⟨1, ?_⟩
    change Result.ok () (Scanner.passBreak e.bytes.length (s.reading m (e.bytes ++ r))) = _
    unfold Scanner.passBreak Scanner.reading
    exact congrArg (fun input => Result.ok () { s with mark := m.down 1, input := input }) hd

end LineEnding

end LibYaml
