import LibYaml.Scanner.Together

/-!
# Call after call

What a sequence of calls of `yaml_parser_scan` returns.  Two scanners whose inputs show the same
characters return the same to the end, and a failure is one that has been recorded: from then on
there is nothing but empty tokens.
-/

namespace LibYaml

open Fallible

theorem Agree.trans : ∀ {n : Nat} {u v w : View}, Agree n u v → Agree n v w → Agree n u w
  | 0, _, _, _, _, _ => trivial
  | n + 1, u, v, w, h, h' => by
    refine ⟨h.head.trans h'.head, fun hne => ?_⟩
    have hne' : v 0 ≠ 0 := h.head ▸ hne
    have hwidth : width u = width v := width_congr h.head
    obtain ⟨hpos, hbytes, hnext⟩ := h.2 hne
    obtain ⟨-, hbytes', hnext'⟩ := h'.2 hne'
    exact ⟨hpos, fun k hk => (hbytes k hk).trans (hbytes' k (hwidth ▸ hk)), hnext.trans hnext'⟩

/-- Inputs that are passed character by character: `Rel k n i j` says that `k` characters have been passed,
and that the next `n`, or those up to the NUL, are in both buffers. -/
structure Lockstep (ι κ : Type) [Input ι] [Input κ] where
  Rel : Nat → Nat → ι → κ → Prop
  Broken : Nat → ι → κ → Prop
  mono : ∀ {k n n' i j}, n' ≤ n → Rel k n i j → Rel k n' i j
  agree : ∀ {k n i j}, Rel k n i j → Agree n (Input.view i) (Input.view j)
  broken : ∀ {k n i j}, Rel k n i j → Broken k i j
  encoding : ∀ {k n i j}, Rel k (n + 1) i j → Input.encoding i = Input.encoding j
  cache : ∀ {k n i j} (m : Nat), m ≤ 8 → Rel k n i j →
    match Input.cache m i, Input.cache m j with
    | .ok _ i', .ok _ j' =>
      Rel k m i' j' ∧ Agree n (Input.view i) (Input.view i')
        ∧ Input.size i' ≤ Input.size i ∧ Input.size j' ≤ Input.size j
    | .error e i', .error f j' => e = f ∧ Broken k i' j'
    | _, _ => False
  step : ∀ {k n i j}, Rel k (n + 1) i j → isZ (Input.view i) = false →
    Rel (k + 1) n (Input.advance (width (Input.view i)) i) (Input.advance (width (Input.view j)) j)
      ∧ Input.size (Input.advance (width (Input.view i)) i) < Input.size i
      ∧ Input.size (Input.advance (width (Input.view j)) j) < Input.size j

namespace Lockstep

variable {ι κ : Type} [Input ι] [Input κ]

theorem isZ_of_isBreak {v : View} (h : isBreak v = true) : isZ v = false := by
  have hb := isBreak_octet h
  rw [isZ, isZAt]
  refine beq_eq_false_iff_ne.mpr fun h0 => ?_
  rw [isBreak, isBreakAt, checkAt, checkAt, h0] at h
  exact absurd h (by simp; decide)

/-- A step over the two characters of a CR LF. -/
theorem crlf (L : Lockstep ι κ) {k n : Nat} {i : ι} {j : κ} (h : L.Rel k (n + 2) i j)
    (hc : isCrlf (Input.view i) = true) :
    L.Rel (k + 2) n (Input.advance 1 (Input.advance 1 i)) (Input.advance 1 (Input.advance 1 j))
      ∧ Input.size (Input.advance 1 (Input.advance 1 i)) + 1 < Input.size i
      ∧ Input.size (Input.advance 1 (Input.advance 1 j)) + 1 < Input.size j := by
  rw [isCrlf, Bool.and_eq_true, checkAt, checkAt, beq_iff_eq, beq_iff_eq] at hc
  obtain ⟨hcr, hlf⟩ := hc
  have hwidth {v : View} {a : Char} (ha : octet a < 0x80) (hv : v 0 = octet a) : width v = 1 := width_ascii (hv ▸ ha)
  have hcr' : Input.view j 0 = octet '\r' := (L.agree h).head ▸ hcr
  obtain ⟨h₁, hi₁, hj₁⟩ := L.step h (by rw [isZ, isZAt, hcr]; decide)
  rw [hwidth (by decide) hcr, hwidth (by decide) hcr'] at h₁
  rw [hwidth (by decide) hcr] at hi₁
  rw [hwidth (by decide) hcr'] at hj₁
  have hlf₁ : Input.view (Input.advance 1 i) 0 = octet '\n' := by rw [Input.view_advance, behind, hlf]
  have hlf₁' : Input.view (Input.advance 1 j) 0 = octet '\n' := (L.agree h₁).head ▸ hlf₁
  obtain ⟨h₂, hi₂, hj₂⟩ := L.step h₁ (by rw [isZ, isZAt, hlf₁]; decide)
  rw [hwidth (by decide) hlf₁, hwidth (by decide) hlf₁'] at h₂
  rw [hwidth (by decide) hlf₁] at hi₂
  rw [hwidth (by decide) hlf₁'] at hj₂
  exact ⟨h₂, by omega, by omega⟩

def simulation (L : Lockstep ι κ) : Simulation ι κ where
  Rel m := L.Rel m.index
  Broken m := L.Broken m.index
  mono := L.mono
  agree := L.agree
  broken := L.broken
  encoding := L.encoding
  cache := L.cache
  past h hv := L.step h (beq_eq_false_iff_ne.mpr hv.1)
  below h hv := L.step h (isZ_of_isBreak hv)
  crlf h hv := L.crlf h hv
  ended h := h

end Lockstep

namespace Scanner

variable {ι κ : Type} [Input ι] [Input κ] {R : Simulation ι κ} {s : Scanner ι} {t : Scanner κ}

/-- What `n` calls return, and the scanner behind them. -/
def calls : Nat → Scanner ι → List (Except Fault Token) × Scanner ι
  | 0, s => ([], s)
  | n + 1, s =>
    match scan s with
    | .ok token t => (.ok token :: (calls n t).1, (calls n t).2)
    | .error e t => (.error e :: (calls n t).1, (calls n t).2)

/-- Behind a failure nothing is scanned any more. -/
structure Halted (R : Simulation ι κ) (s : Scanner ι) (t : Scanner κ) : Prop where
  error : s.error.isSome = true
  onto : t = s.onto t.input
  broken : R.Broken s.mark s.input t.input

/-- Two scanners between two calls. -/
def Abreast (R : Simulation ι κ) (s : Scanner ι) (t : Scanner κ) : Prop :=
  (∃ delivered, Resting delivered s) ∧ Beside R s t ∨ Halted R s t

theorem Abreast.onto (h : Abreast R s t) : t = s.onto t.input := by
  rcases h with ⟨-, h⟩ | h
  · exact h.onto
  · exact h.onto

theorem Abreast.broken (h : Abreast R s t) : R.Broken s.mark s.input t.input := by
  rcases h with ⟨-, h⟩ | h
  · exact R.broken h.rel
  · exact h.broken

theorem abreast_init {i : ι} {j : κ} (h : R.Rel .zero 0 i j) : Abreast R (init i) (init j) :=
  .inl ⟨⟨[], resting_init i⟩, rfl, h, fun _ hk => absurd hk List.not_mem_nil⟩

theorem scan_of_halted (h : s.error.isSome = true) : scan s = .ok emptyToken s := by
  unfold scan
  rw [if_pos (.inr h)]

/-- A call between tokens leaves the scanner between tokens, or fails with a problem. -/
theorem scan_resting {delivered : List Token} (h : Resting delivered s) :
    match scan s with
    | .ok _ s' => ∃ delivered, Resting delivered s'
    | .error e _ => e = .outOfFuel ∨ ∃ problem, e = .reported problem := by
  unfold scan
  split_ifs with hc
  · exact ⟨delivered, h⟩
  · have hspec := scanToken_spec s h
    cases hr : scanToken s with
    | ok token s' =>
      rw [hr] at hspec
      exact ⟨_, hspec⟩
    | error e s' =>
      rw [hr] at hspec
      have hended : e = .outOfFuel ∨ ∃ problem, e = .reported problem :=
        hspec.imp_right fun ⟨problem, he, _⟩ => ⟨problem, he⟩
      cases e with
      | reported problem => exact .inr ⟨problem, rfl⟩
      | silent => exact hended
      | undefined => exact hended
      | outOfFuel => exact hended

theorem scan_abreast (h : Abreast R s t) :
    match scan s, scan t with
    | .ok token s', .ok token' t' => token = token' ∧ Abreast R s' t'
    | .error e s', .error f t' => e = f ∧ (∃ problem, e = .reported problem) ∧ Abreast R s' t'
    | _, _ => False := by
  rcases h with ⟨⟨delivered, hrest⟩, h⟩ | h
  · have hs := scan_beside s t h
    have hspec := scan_resting hrest
    cases hr : scan s <;> cases hr' : scan t <;> rw [hr, hr'] at hs <;> rw [hr] at hspec <;> try exact hs.elim
    · exact ⟨hs.1, .inl ⟨hspec, hs.2⟩⟩
    · obtain ⟨rfl, hs⟩ := hs
      obtain ⟨problem, rfl⟩ := hspec.resolve_left hs.fault
      exact ⟨rfl, ⟨problem, rfl⟩, .inr ⟨by rw [hs.error problem rfl]; rfl, hs.onto, hs.broken⟩⟩
  · have ht : t.error.isSome = true := by
      rw [h.onto]
      exact h.error
    rw [scan_of_halted h.error, scan_of_halted ht]
    exact ⟨rfl, .inr h⟩

/-- Both return the same, and what fails says why. -/
theorem calls_abreast : ∀ (n : Nat) {s : Scanner ι} {t : Scanner κ}, Abreast R s t →
    (calls n s).1 = (calls n t).1 ∧ (∀ e, .error e ∈ (calls n s).1 → ∃ problem, e = .reported problem)
      ∧ Abreast R (calls n s).2 (calls n t).2
  | 0, _, _, h => ⟨rfl, fun _ he => absurd he List.not_mem_nil, h⟩
  | n + 1, s, t, h => by
    have hs := scan_abreast h
    unfold calls
    cases hr : scan s <;> cases hr' : scan t <;> rw [hr, hr'] at hs <;> try exact hs.elim
    · obtain ⟨rfl, hs⟩ := hs
      obtain ⟨heq, herr, hab⟩ := calls_abreast n hs
      refine ⟨congrArg _ heq, fun e he => ?_, hab⟩
      rcases List.mem_cons.mp he with he | he
      · cases he
      · exact herr e he
    · obtain ⟨rfl, ⟨problem, rfl⟩, hs⟩ := hs
      obtain ⟨heq, herr, hab⟩ := calls_abreast n hs
      refine ⟨congrArg _ heq, fun e he => ?_, hab⟩
      rcases List.mem_cons.mp he with he | he
      · cases he
        exact ⟨problem, rfl⟩
      · exact herr e he

end Scanner

end LibYaml
