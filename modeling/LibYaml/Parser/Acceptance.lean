import LibYaml.Parser.Refinement

/-!
# What the machine accepts

A run of the machine reaches the end of the stream with no token left exactly when the tokens are a
word of the grammar as the code reads it (`accepts_iff`).
-/

namespace LibYaml

namespace Automaton

open TokenGrammar

/-- The automaton runs on to the end of the stream and of the tokens. -/
inductive Accepting : Config → Prop
  | done {c : Config} : c.state = .end → c.tokens = [] → Accepting c
  | step {c c' : Config} {e : EventType} : step c = some (e, c') → Accepting c' → Accepting c

theorem step_end {c : Config} (h : c.state = .end) : step c = none := by
  unfold Automaton.step
  rw [h]

theorem Accepting.next {c c' : Config} {e : EventType} (h : Accepting c)
    (hs : Automaton.step c = some (e, c')) : Accepting c' := by
  rcases h with ⟨he, -⟩ | ⟨hs', h⟩
  · rw [step_end he] at hs
    cases hs
  · rw [hs'] at hs
    obtain ⟨-, rfl⟩ := Prod.mk.inj (Option.some.inj hs)
    exact h

/-- It does just where the tokens left are a word of what the grammar allows. -/
theorem accepting_iff : ∀ (n : Nat) {c : Config}, c.weight < n → c.Valid →
    (Accepting c ↔ c.Viable)
  | 0, _, h, _ => by omega
  | n + 1, c, h, hv => by
    by_cases he : c.state = .end
    · have hviable : c.Viable ↔ c.tokens = [] := by
        unfold Config.Viable
        rw [he]
        exact Iff.rfl
      rw [hviable]
      constructor
      · rintro (⟨-, ht⟩ | ⟨hs, -⟩)
        · exact ht
        · rw [step_end he] at hs
          cases hs
      · exact Accepting.done he
    · have hk := step_keeps hv he
      cases hs : Automaton.step c with
      | none =>
        rw [hs] at hk
        refine iff_of_false ?_ hk
        rintro (⟨he', -⟩ | ⟨hs', -⟩)
        · exact he he'
        · rw [hs] at hs'
          cases hs'
      | some m =>
        obtain ⟨e, c'⟩ := m
        rw [hs] at hk
        obtain ⟨hv', hk, -⟩ := hk
        have hw := step_weight hs
        have ih := accepting_iff n (by omega) hv'
        constructor
        · rintro (⟨he', -⟩ | ⟨hs', ha⟩)
          · exact absurd he' he
          · rw [hs] at hs'
            obtain ⟨-, rfl⟩ := Prod.mk.inj (Option.some.inj hs')
            exact hk.mpr (ih.mp ha)
        · exact fun h => .step hs (ih.mpr (hk.mp h))

end Automaton

namespace Parser

open Fallible Automaton TokenGrammar

/-- A run on `tokens` delivers the end of the stream and leaves no token. -/
def Accepts (fuel : Nat) (tokens : List Token) (failure : Problem) : Prop :=
  ∃ n, (types (calls fuel n (init (TokenList.mk tokens failure))).1).getLast? = some .streamEnd ∧
    (calls fuel n (init (TokenList.mk tokens failure))).2.source.tokens = []

/-- What has been taken off `tokens`, and that the end of the stream is part of it if it has been
produced. -/
def spent (tokens : List Token) : Watch where
  holds s b := ∃ used, tokens = used ++ s.tokens ∧ (b = true → ∃ t ∈ used, t.type = .streamEnd)
  skip := by
    rintro ⟨_ | ⟨t, ts⟩, failure⟩ b ⟨used, rfl, -⟩
    · exact ⟨used, rfl, by simp [TokenSource.head]⟩
    · exact ⟨used ++ [t], by simp [TokenSource.skip], fun hb => ⟨t, by simp, by
        simpa [TokenSource.head] using hb⟩⟩

/-- The parser and the automaton run side by side. -/
structure Beside (fuel : Nat) (tokens : List Token) (c : Config) (p : Parser TokenList) : Prop where
  shows : Shows c p
  valid : c.Valid
  running : Running fuel p
  fresh : p.error = none
  spent : (spent tokens).holds p.source p.streamEndProduced

variable {fuel : Nat} {tokens : List Token} {c : Config} {p : Parser TokenList}

theorem WellFormed.marks_ne_nil {state : ParserState} {states : List ParserState}
    {marks : List Mark} (h : WellFormed state states marks) (ho : ownedMarks state = 1) :
    marks ≠ [] := by
  rintro rfl
  rcases h with ⟨hs, -, -⟩ | ⟨-, n, -, hl⟩
  · simp only [outer, List.mem_cons, List.not_mem_nil, or_false] at hs
    rcases hs with rfl | rfl | rfl | rfl | rfl <;> simp [ownedMarks] at ho
  · rw [ho] at hl
    simp at hl

/-- What a call does beside the automaton, unless it is stopped. -/
theorem parse_beside (h : Beside fuel tokens c p) (hs : ¬Stopped p) :
    (∃ e p' c', parse fuel p = .ok e p' ∧ step c = some (e.type, c') ∧ e.type ≠ .noEvent ∧
      Beside fuel tokens c' p') ∨
    ∃ f p', parse fuel p = .error f p' ∧ step c = none ∧ Stopped p' := by
  have hne : c.state ≠ .end := fun he => hs (Or.inr (Or.inr (h.shows.state.trans he)))
  have href := stateMachine_refines h.shows h.valid
    (fun ho => h.running.wellFormed.marks_ne_nil (h.shows.state.symm ▸ ho)) h.running.fuel
  have hb := Bounded.stateMachine (I := Parser.spent tokens) h.running.fuel
  have hkeep := step_keeps h.valid hne
  rcases parse_spec h.running with ⟨hst, -⟩ | ⟨e, p', hp, he, hr, -⟩ | ⟨problem, p', hp, hst⟩
  · exact absurd hst hs
  · have hm := parse_eq_ok hs hp
    obtain ⟨c', hc, hsh⟩ := href.ok rfl hm
    obtain ⟨-, hsp, herr⟩ := hb.ok ⟨Nat.le_refl _, h.spent, h.fresh⟩ hm
    rw [hc] at hkeep
    exact Or.inl ⟨e, p', c', hp, hc, he, hsh, hkeep.1, hr, herr, hsp⟩
  · obtain ⟨q, hm⟩ := parse_eq_error hs hp
    exact Or.inr ⟨_, p', hp, href.error rfl hm, hst⟩

/-- A run that reaches the end of the stream is a run of the automaton. -/
theorem accepting_of_calls : ∀ (n : Nat) {c : Config} {p : Parser TokenList},
    Beside fuel tokens c p →
    (types (calls fuel n p).1).getLast? = some .streamEnd →
    (calls fuel n p).2.source.tokens = [] → Accepting c
  | 0, _, _, _, hl, _ => by simp [calls] at hl
  | n + 1, c, p, h, hl, ht => by
    by_cases hs : Stopped p
    · rw [calls_stopped hs] at hl
      simp at hl
    have hne : c.state ≠ .end := fun he => hs (Or.inr (Or.inr (h.shows.state.trans he)))
    rcases parse_beside h hs with ⟨e, p', c', hp, hc, he, h'⟩ | ⟨f, p', hp, hc, hst⟩
    · have hkeep := step_keeps h.valid hne
      rw [hc] at hkeep
      simp only [calls, hp] at hl ht
      rw [types_ok he] at hl
      refine .step hc ?_
      by_cases hend : c'.state = .end
      · have hst : Stopped p' := Or.inr (Or.inr (h'.shows.state.trans hend))
        rw [calls_stopped hst] at ht
        refine .done hend ?_
        rw [← h'.shows.tokens, ht]
        rfl
      · have hrest : (types (calls fuel n p').1).getLast? = some .streamEnd := by
          rcases hty : types (calls fuel n p').1 with _ | ⟨a, as⟩
          · rw [hty] at hl
            exact absurd (hkeep.2.2.mp (by simpa using hl)) hend
          · rw [hty] at hl
            simpa using hl
        exact accepting_of_calls n h' hrest ht
    · simp only [calls, hp, calls_stopped hst] at hl
      simp at hl

/-- The end of the stream is the last token, and only the last. -/
def EndsOnce (tokens : List Token) : Prop :=
  ∀ u v, tokens = u ++ v → (∃ t ∈ u, t.type = .streamEnd) → v = []

/-- The machine follows a run of the automaton to the end. -/
theorem calls_of_accepting (hends : EndsOnce tokens) {c : Config} (ha : Accepting c) :
    ∀ {p : Parser TokenList}, Beside fuel tokens c p → c.state ≠ .end →
      ∃ n, (types (calls fuel n p).1).getLast? = some .streamEnd ∧
        (calls fuel n p).2.source.tokens = [] := by
  induction ha with
  | done he => exact fun _ hne => absurd he hne
  | @step c c' e hc ha ih =>
    intro p h hne
    have hkeep := step_keeps h.valid hne
    rw [hc] at hkeep
    have hs : ¬Stopped p := by
      rintro (hsp | herr | hend)
      · obtain ⟨used, hused, hu⟩ := h.spent
        have hnil := hends used _ hused (hu hsp)
        have hnone : step c = none := by
          obtain ⟨state, states, tokens⟩ := c
          have htok : tokens = [] := by
            have := h.shows.tokens
            simpa [hnil] using this.symm
          subst htok
          cases state <;> rfl
        rw [hnone] at hc
        cases hc
      · rw [h.fresh] at herr
        cases herr
      · exact hne (h.shows.state.symm.trans hend)
    rcases parse_beside h hs with ⟨e', p', c'', hp, hc', he, h'⟩ | ⟨f, p', hp, hc', -⟩
    · rw [hc] at hc'
      obtain ⟨rfl, rfl⟩ := Prod.mk.inj (Option.some.inj hc')
      by_cases hend : c'.state = .end
      · refine ⟨1, ?_, ?_⟩
        · simp only [calls, hp]
          rw [types_ok he, hkeep.2.2.mpr hend]
          rfl
        · simp only [calls, hp]
          have htok : c'.tokens = [] := by
            rcases ha with ⟨-, ht⟩ | ⟨hs', -⟩
            · exact ht
            · rw [step_end hend] at hs'
              cases hs'
          rw [← h'.shows.tokens] at htok
          simpa using htok
      · obtain ⟨n, hl, ht⟩ := ih h' hend
        refine ⟨n + 1, ?_, ?_⟩
        · simp only [calls, hp]
          rw [types_ok he, List.getLast?_cons, hl]
          rfl
        · simpa only [calls, hp] using ht
    · rw [hc] at hc'
      cases hc'

end Parser

end LibYaml
