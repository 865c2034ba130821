import LibYaml.Scanner.Ending

/-!
# The course of a run

As long as no STREAM-END token has been fetched the scanner goes on, and from then on it stands at the end
of the input: then there is nothing left to fetch but STREAM-END tokens, and outside flow collections no
block is open.
-/

namespace LibYaml

open Fallible Brackets

/-- Inputs that show a NUL at their end only, and stay there. -/
structure Terminal (ι : Type) [Input ι] where
  lockstep : Lockstep ι ι
  AtEnd : ι → Prop
  ends : ∀ {k n i}, lockstep.Rel k (n + 1) i i → isZ (Input.view i) = true → AtEnd i
  nul : ∀ {i}, AtEnd i → isZ (Input.view i) = true
  rests : ∀ {i}, AtEnd i → ∀ n, match Input.cache n i with
    | .ok _ i' => AtEnd i'
    | .error _ _ => True

theorem isZ_eq {v : View} (h : isZ v = true) : v 0 = 0 := by
  rw [isZ, isZAt, beq_iff_eq] at h
  exact h

/-- What is not looked at any more once the NUL has been seen. -/
theorem not_check {v : View} {a : Char} (h : isZ v = true) (ha : octet a ≠ 0) : check v a = false := by
  rw [check, checkAt, isZ_eq h]
  exact beq_eq_false_iff_ne.mpr (Ne.symm ha)

namespace Scanner

section Closing

variable {ι : Type} {delivered : List Token} {s : Scanner ι}

/-- Outside flow collections no block is open. -/
def Closed (s : Scanner ι) : Prop := s.flowLevel = 0 → s.indents = []

/-- Below the lowest block there is none. -/
theorem Sound.closed (h : Sound delivered s) (hi : s.flowLevel = 0 → s.indent ≤ -1) : Closed s := by
  intro hflow
  have hbottom := h.bottom
  have hcolumns := h.columns
  have hindent := hi hflow
  cases hk : s.indents with
  | nil => rfl
  | cons i below =>
    rw [hk, List.getLast?_cons_cons] at hbottom
    rw [hk] at hcolumns
    have hlast := (List.pairwise_cons.mp hcolumns).1 (-1) (List.mem_of_getLast? hbottom)
    omega

theorem Closed.indent (h : Closed s) (hs : Sound delivered s) (hflow : s.flowLevel = 0) : s.indent = -1 := by
  have hbottom := hs.bottom
  rw [h hflow] at hbottom
  exact Option.some.inj hbottom

theorem unrollIndent_idle {column : Int} (h : s.flowLevel = 0 → s.indent ≤ column) : unrollIndent column s = .ok ⟨⟩ s := by
  unfold unrollIndent
  rw [bind_of_ok (get_apply s)]
  by_cases hflow : s.flowLevel = 0
  · have := h hflow
    rw [decide_eq_true hflow, onlyIf, if_pos rfl, loop, bind_assoc, bind_of_ok (get_apply s), if_neg (by omega)]
    rfl
  · rw [decide_eq_false hflow]
    rfl

theorem unrollIndent_down {column : Int} : Holds (fun _ : Scanner ι => True) (unrollIndent column)
    (fun _ s => s.flowLevel = 0 → s.indent ≤ column) fun _ _ => True := by
  refine Holds.getThen fun s _ => Holds.ite (fun _ => ?_) fun hflow => Holds.pure fun t ht h0 => ?_
  · refine (Holds.loop (P := fun _ _ => True) (fun _ _ _ => trivial) (fun _ => ?_) _ ()).each trivial
    refine Holds.getThen fun t _ => Holds.ite (fun _ => ?_) fun hlt => Holds.pure fun u hu _ => ?_
    · refine Holds.bind (Q := fun _ _ => True) (Holds.modify fun _ _ => trivial) fun _ =>
        Holds.bind (Q := fun _ _ => True) (fun u _ => ?_) fun _ => Holds.pure fun _ _ => trivial
      cases popIndent u <;> trivial
    · rw [show u = t from hu]
      omega
  · rw [show t = s from ht] at h0
    exact absurd (decide_eq_true h0) hflow

end Closing

variable {ι : Type} [Input ι] {T : Terminal ι} {delivered : List Token} {s t u o : Scanner ι}

/-! ## At the end -/

def AtEnd (T : Terminal ι) (s : Scanner ι) : Prop := T.AtEnd s.input

theorem cache_atEnd {n : Nat} : Holds (AtEnd T) (cache n) (fun _ => AtEnd T) fun _ _ => True := by
  intro s hs
  have := T.rests hs n
  unfold cache
  cases hr : Input.cache n s.input with
  | ok u i =>
    rw [hr] at this
    exact this
  | error e i => trivial

/-- What the NUL rules out is not done. -/
theorem look_atEnd {α : Type} {c : View → Bool} {x y : ScanM ι α} {Q : α → Scanner ι → Prop} {E : Fault → Scanner ι → Prop}
    (hc : ∀ v, isZ v = true → c v = false) (hy : Holds (AtEnd T) y Q E) :
    Holds (AtEnd T) (look c >>= fun b => if b = true then x else y) Q E := by
  intro s hs
  rw [bind_of_ok (show look c s = .ok (c (Input.view s.input)) s from rfl), hc _ (T.nul hs), if_neg Bool.false_ne_true]
  exact hy s hs

theorem repeatedly_atEnd {α β : Type} {body : α → ScanM ι (Round α β)} {a : α}
    (h : ∀ a, Holds (AtEnd T) (body a) (Round.elim (fun _ => AtEnd T) fun _ => AtEnd T) fun _ _ => True) :
    Holds (AtEnd T) (repeatedly body a) (fun _ => AtEnd T) fun _ _ => True :=
  Holds.getThen fun _ hs =>
    (Holds.loop (P := fun _ => AtEnd T) (Q := fun _ => AtEnd T) (fun _ _ _ => trivial) h _ a).each hs

theorem skipWhile_atEnd {c : View → Bool} (hc : ∀ v, isZ v = true → c v = false) :
    Holds (AtEnd T) (skipWhile c) (fun _ => AtEnd T) fun _ _ => True :=
  repeatedly_atEnd fun _ => look_atEnd hc fun _ h => h

theorem skipToText_atEnd : Holds (AtEnd T) skipToText (fun _ => AtEnd T) fun _ _ => True := by
  have hskip {c : View → Bool} {x y : ScanM ι Unit} (hc : ∀ v, isZ v = true → c v = false)
      (hy : Holds (AtEnd T) y (fun _ => AtEnd T) fun _ _ => True) :
      Holds (AtEnd T) (look c >>= fun b => onlyIf b x >>= fun _ => y) (fun _ => AtEnd T) fun _ _ => True := by
    intro s hs
    rw [bind_of_ok (show look c s = .ok (c (Input.view s.input)) s from rfl), hc _ (T.nul hs)]
    exact hy s hs
  have hkeep {α : Type} {f : Scanner ι → α} :
      Holds (AtEnd T) (fun s => .ok (f s) s : ScanM ι α) (fun _ => AtEnd T) fun _ _ => True := fun _ h => h
  have hbom (first : Bool) (v : View) (hv : isZ v = true) : (first && isBom v) = false := by
    rw [isBom, isZ_eq hv]
    exact Bool.and_false _
  have hblank (tabs : Bool) (v : View) (hv : isZ v = true) : (check v ' ' || (tabs && check v '\t')) = false := by
    rw [not_check hv (by decide), not_check hv (by decide), Bool.and_false]
    rfl
  refine cache_atEnd.bind fun _ => Holds.bind (Q := fun _ => AtEnd T) hkeep fun mark => ?_
  refine hskip (hbom _) (cache_atEnd.bind fun _ => Holds.bind (Q := fun _ => AtEnd T) hkeep fun tabs => ?_)
  exact (skipWhile_atEnd (hblank tabs)).bind fun _ => look_atEnd (fun v hv => not_check hv (by decide)) fun _ h => h

theorem not_isBreak {v : View} (h : isZ v = true) : isBreak v = false := by
  rw [isBreak, isBreakAt, checkAt, checkAt, isZ_eq h]
  rfl

theorem scanToNextToken_atEnd : Holds (AtEnd T) scanToNextToken (fun _ => AtEnd T) fun _ _ => True :=
  repeatedly_atEnd fun _ => skipToText_atEnd.bind fun _ => look_atEnd (fun _ => not_isBreak) fun _ h => h

/-! ## The course -/

/-- The end has not come yet. -/
structure Going (T : Terminal ι) (delivered : List Token) (s : Scanner ι) : Prop where
  beside : Beside T.lockstep.simulation s s
  tokens : ∀ token ∈ delivered ++ s.tokens, ¬Ending token

/-- Behind the end there is nothing but the end. -/
structure Over (T : Terminal ι) (delivered : List Token) (s : Scanner ι) : Prop where
  atEnd : AtEnd T s
  closed : Closed s
  last : ∃ token ∈ delivered ++ s.tokens, Ending token
  tokens : (delivered ++ s.tokens).Pairwise fun token later => Ending token → Ending later

theorem Going.only (h : Going T delivered s) : Only (¬Ending ·) s :=
  fun token ht => h.tokens token (List.mem_append_right _ ht)

theorem Going.further (h : Going T delivered s) (hb : Beside T.lockstep.simulation t t) (ht : Only (¬Ending ·) t) :
    Going T delivered t :=
  ⟨hb, fun token hm => (List.mem_append.mp hm).elim (fun hm => h.tokens token (List.mem_append_left _ hm)) (ht token)⟩

def Course (T : Terminal ι) (delivered : List Token) (s : Scanner ι) : Prop := Going T delivered s ∨ Over T delivered s

theorem Over.of (h : Over T delivered s) (hi : AtEnd T t) (hf : t.flowLevel = s.flowLevel) (hind : t.indents = s.indents)
    (ht : t.tokens = s.tokens) : Over T delivered t := by
  refine ⟨hi, fun hflow => ?_, ?_, ?_⟩
  · rw [hind]
    exact h.closed (hf ▸ hflow)
  · rw [ht]
    exact h.last
  · rw [ht]
    exact h.tokens

/-- What walks over nothing. -/
theorem Over.walks {x : ScanM ι Unit} (hx : Walks x) (hend : Holds (AtEnd T) x (fun _ => AtEnd T) fun _ _ => True) :
    Holds (Over T delivered) x (fun _ => Over T delivered) fun _ _ => True := by
  intro s hs
  have hw := hx s s.mark s (.start s)
  have he := hend s hs.atEnd
  cases hr : x s with
  | ok u t =>
    rw [hr] at hw he
    obtain ⟨-, hind, hflow, htokens, -⟩ := fields_of_kept hw.kept
    exact hs.of he hflow hind htokens
  | error e t => trivial

/-- What is left to do for a STREAM-END token. -/
structure Shut (T : Terminal ι) (delivered : List Token) (s : Scanner ι) : Prop where
  atEnd : AtEnd T s
  closed : Closed s
  tokens : (delivered ++ s.tokens).Pairwise fun token later => Ending token → Ending later

theorem unrollIndent_shut (hs : Settled delivered s) (hend : AtEnd T s)
    (h : (∀ token ∈ delivered ++ s.tokens, ¬Ending token) ∨ Over T delivered s) (ht : unrollIndent (-1) s = .ok ⟨⟩ t) :
    Shut T delivered t := by
  rcases h with h | h
  · have hsettled := (unrollIndent_keys (fun _ _ => True) le_rfl).ok ⟨hs, trivial⟩ ht
    have hdown := unrollIndent_down.ok trivial ht
    have hadds : Only (¬Ending ·) t := (Adds.unrollIndent fun _ => by unfold Ending; exact TokenType.noConfusion).ok
      (fun token hm => h token (List.mem_append_right _ hm)) ht
    have hblind := (Blind.unrollIndent : Blind False (unrollIndent (-1)) (unrollIndent (ι := ι) (-1))) s s.input
    unfold BlindAt at hblind
    rw [ht, show unrollIndent (-1) (s.onto s.input) = .ok ⟨⟩ t from ht] at hblind
    refine ⟨?_, hsettled.1.toSound.closed hdown, ?_⟩
    · rw [AtEnd, hblind.2.2.input]
      exact hend
    · refine List.pairwise_of_forall_mem_list fun token hm later _ he => absurd he ?_
      rcases List.mem_append.mp hm with hm | hm
      · exact h token (List.mem_append_left _ hm)
      · exact hadds token hm
  · rw [unrollIndent_idle fun hflow => (h.closed.indent hs.toSound hflow).le] at ht
    cases ht
    exact ⟨h.atEnd, h.closed, h.tokens⟩

omit [Input ι] in
theorem removeSimpleKey_ok {u : Unit} (h : removeSimpleKey s = .ok u t) : t = { s with simpleKeys := t.simpleKeys } := by
  unfold removeSimpleKey at h
  obtain ⟨key, s', hk, h⟩ := bind_ok h
  have hs' : s' = s := by
    unfold topSimpleKey at hk
    cases hkeys : s.simpleKeys with
    | nil =>
      rw [hkeys] at hk
      cases hk
    | cons key' keys =>
      rw [hkeys] at hk
      cases hk
      rfl
  obtain ⟨⟨⟩, s'', hc, h⟩ := bind_ok h
  have hs'' : s'' = s' := by
    unfold onlyIf at hc
    split_ifs at hc <;> cases hc
    rfl
  rw [hs'', hs'] at h
  cases h
  rfl

theorem fetchStreamEnd_over (hs : Settled delivered s) (hend : AtEnd T s)
    (h : (∀ token ∈ delivered ++ s.tokens, ¬Ending token) ∨ Over T delivered s) (ht : fetchStreamEnd s = .ok ⟨⟩ t) :
    Over T delivered t := by
  unfold fetchStreamEnd at ht
  rw [bind_of_ok (modify_apply _ s)] at ht
  obtain ⟨⟨⟩, s', hunroll, ht⟩ := bind_ok ht
  have hshut : Shut T delivered s' := by
    split_ifs at hunroll with hcolumn
    · exact unrollIndent_shut hs hend h hunroll
    · exact unrollIndent_shut (s := { s with mark := ⟨s.mark.index, s.mark.line + 1, 0⟩ })
        (hs.of_kept rfl ⟨le_rfl, Nat.le_succ _⟩) hend (h.imp_right fun h => h.of h.atEnd rfl rfl rfl) hunroll
  obtain ⟨⟨⟩, s'', hremove, ht⟩ := bind_ok ht
  have hfields := removeSimpleKey_ok hremove
  cases ht
  have htokens : delivered ++ (s''.tokens ++ [⟨.streamEnd, s''.mark, s''.mark⟩])
      = (delivered ++ s'.tokens) ++ [⟨.streamEnd, s''.mark, s''.mark⟩] := by
    rw [hfields, List.append_assoc]
  refine ⟨?_, fun hflow => ?_, ⟨⟨.streamEnd, s''.mark, s''.mark⟩, ?_, rfl⟩, ?_⟩
  · have hatEnd := hshut.atEnd
    rw [hfields]
    exact hatEnd
  · rw [hfields] at hflow ⊢
    exact hshut.closed hflow
  · exact List.mem_append_right _ (List.mem_append_right _ (List.mem_singleton.mpr rfl))
  · change (delivered ++ (s''.tokens ++ [(⟨.streamEnd, s''.mark, s''.mark⟩ : Token)])).Pairwise _
    rw [htokens]
    refine List.pairwise_append.mpr ⟨hshut.tokens, List.pairwise_singleton _ _, fun token _ later hl _ => ?_⟩
    rw [List.mem_singleton.mp hl]
    rfl

theorem fetchToken_ended (hz : isZ (Input.view s.input) = true) : fetchToken s = fetchStreamEnd s := by
  unfold fetchToken
  simp only [bind_apply, inFlow, getMark, look, hz, if_true]

/-- What is fetched first is not the end. -/
theorem fetchStreamStart_adds : Adds (¬Ending ·) (fetchStreamStart (ι := ι)) := by
  intro s hs token ht
  rcases List.mem_append.mp ht with ht | ht
  · exact hs token ht
  · rw [List.mem_singleton.mp ht]
    exact TokenType.noConfusion

/-- Before the stream has been started there is no end to be found. -/
theorem fetchNextToken_adds : Holds (fun s : Scanner ι => s.streamStartProduced = false ∧ Only (¬Ending ·) s)
    fetchNextToken (fun _ => Only (¬Ending ·)) fun _ _ => True := by
  refine Holds.bind (Q := fun _ s => s.streamStartProduced = false ∧ Only (¬Ending ·) s) ?_ fun _ => ?_
  · intro s hs
    have hw := Walks.cache (n := 1) s s.mark s (.start s)
    have hadds := Adds.cache (n := 1) (P := (¬Ending ·)) s hs.2
    cases hr : cache 1 s with
    | ok u t =>
      rw [hr] at hw hadds
      exact ⟨(fields_of_kept hw.kept).2.2.2.2.2.2.trans hs.1, hadds⟩
    | error e t => trivial
  · intro s hs
    rw [bind_of_ok (get_apply s), hs.1, if_neg Bool.false_ne_true]
    exact fetchStreamStart_adds s hs.2

theorem approach_adds : Adds (¬Ending ·) (approach (ι := ι)) :=
  Adds.cache.bind fun _ => Adds.bind (.walks Walks.scanToNextToken) fun _ => Adds.staleSimpleKeys.bind fun _ =>
    .getThen fun _ => (Adds.unrollIndent fun _ => by unfold Ending; exact TokenType.noConfusion).bind fun _ => Adds.cache

theorem staleSimpleKeys_over (h : Over T delivered s) (ht : staleSimpleKeys s = .ok ⟨⟩ t) : Over T delivered t := by
  rw [(staleSimpleKeys_ok ht).1]
  exact h.of h.atEnd rfl rfl rfl

omit [Input ι] in
theorem Walks.tokens {x : ScanM ι Unit} (hx : Walks x) (ht : x s = .ok ⟨⟩ t) : t.tokens = s.tokens := by
  have hw := hx s s.mark s (.start s)
  rw [ht] at hw
  exact (fields_of_kept hw.kept).2.2.2.1

/-- At the end the place of the next token is where the scanner is. -/
theorem approach_over (hs : Settled delivered s) (h : Over T delivered s) (ht : approach s = .ok ⟨⟩ t) :
    Over T delivered t ∧ t.tokens = s.tokens := by
  unfold approach at ht
  obtain ⟨⟨⟩, s₁, hcache, ht⟩ := bind_ok ht
  have hs₁ := Walks.cache.settled.ok hs hcache
  have h₁ := (Over.walks Walks.cache cache_atEnd).ok h hcache
  obtain ⟨⟨⟩, s₂, hnext, ht⟩ := bind_ok ht
  have hs₂ := Walks.scanToNextToken.settled.ok hs₁ hnext
  have h₂ := (Over.walks Walks.scanToNextToken scanToNextToken_atEnd).ok h₁ hnext
  obtain ⟨⟨⟩, s₃, hstale, ht⟩ := bind_ok ht
  have hs₃ := staleSimpleKeys_spec.ok hs₂ hstale
  have h₃ := staleSimpleKeys_over h₂ hstale
  rw [bind_of_ok (get_apply s₃)] at ht
  have hidle : unrollIndent s₃.mark.column s₃ = .ok ⟨⟩ s₃ :=
    unrollIndent_idle fun hflow => by rw [h₃.closed.indent hs₃.1.toSound hflow]; omega
  rw [bind_of_ok hidle] at ht
  refine ⟨(Over.walks Walks.cache cache_atEnd).ok h₃ ht, ?_⟩
  have hstale₃ : s₃.tokens = s₂.tokens := by rw [(staleSimpleKeys_ok hstale).1]
  rw [Walks.cache.tokens ht, hstale₃, Walks.scanToNextToken.tokens hnext, Walks.cache.tokens hcache]

/-- Fetching a token goes on, or comes to the end. -/
theorem fetchNextToken_course (hs : Between delivered s) (h : Course T delivered s) (ht : fetchNextToken s = .ok ⟨⟩ t) :
    Course T delivered t := by
  rcases h with h | h
  · have hbeside : Beside T.lockstep.simulation t t := by
      have := fetchNextToken_further s s h.beside.here
      rw [ht] at this
      exact this.2.beside
    cases hstarted : s.streamStartProduced with
    | false => exact .inl (h.further hbeside (fetchNextToken_adds.ok ⟨hstarted, h.only⟩ ht))
    | true =>
      have hsettled := hs.resolve_left fun ⟨_, hs⟩ => by
        obtain ⟨-, -, -, -, -, -, hnot⟩ := fields_of_kept hs
        rw [hstarted] at hnot
        cases hnot
      rw [fetchNextToken_started hstarted] at ht
      obtain ⟨⟨⟩, u, happroach, ht⟩ := bind_ok ht
      have honly := approach_adds.ok h.only happroach
      have hu := (approach_spec.ok hsettled happroach).1
      have hrel : T.lockstep.Rel u.mark.index 4 u.input u.input := by
        have := approach_here (R := T.lockstep.simulation) s s h.beside.here
        rw [happroach] at this
        exact this.2.rel
      cases hz : isZ (Input.view u.input) with
      | true =>
        rw [fetchToken_ended hz] at ht
        refine .inr (fetchStreamEnd_over hu (T.ends hrel hz) (.inl fun token hm => ?_) ht)
        rcases List.mem_append.mp hm with hm | hm
        · exact h.tokens token (List.mem_append_left _ hm)
        · exact honly token hm
      | false => exact .inl (h.further hbeside (fetchToken_adds.ok ⟨honly, hz⟩ ht))
  · have hsettled := hs.resolve_left fun ⟨hd, hs⟩ => by
      obtain ⟨-, -, -, htokens, -⟩ := fields_of_kept hs
      have htokens : s.tokens = [] := htokens
      obtain ⟨token, hm, -⟩ := h.last
      rw [hd, htokens] at hm
      cases hm
    rw [fetchNextToken_started hsettled.started] at ht
    obtain ⟨⟨⟩, u, happroach, ht⟩ := bind_ok ht
    have hover := (approach_over hsettled h happroach).1
    rw [fetchToken_ended (T.nul hover.atEnd)] at ht
    exact .inr (fetchStreamEnd_over (approach_spec.ok hsettled happroach).1 hover.atEnd (.inr hover) ht)

theorem staleSimpleKeys_course (h : Course T delivered s) (ht : staleSimpleKeys s = .ok ⟨⟩ t) : Course T delivered t := by
  rcases h with h | h
  · have hbeside := Beside.blind (R := T.lockstep.simulation) Blind.staleSimpleKeys s s h.beside
    rw [ht] at hbeside
    exact .inl (h.further hbeside.2 (Adds.staleSimpleKeys.ok h.only ht))
  · exact .inr (staleSimpleKeys_over h ht)

/-- Inside a call, too. -/
theorem Inside.course (h : Inside s t) (hs : Between delivered s) (hc : Course T delivered s) : Course T delivered t := by
  induction h with
  | start => exact hc
  | stale _ ht ih => exact staleSimpleKeys_course ih ht
  | fetch h ht ih => exact fetchNextToken_course (h.between hs) ih ht

/-- What a call does is done inside it. -/
theorem fetchMoreTokens_inside (ht : fetchMoreTokens s = .ok ⟨⟩ t) :
    ∃ u, Inside s u ∧ t = { u with tokenAvailable := true } := by
  have hagain : Holds (Inside s) (do
      fetchNextToken
      return .again () : ScanM ι (Round Unit Unit)) (Round.elim (fun _ => Inside s) fun _ => Inside s)
      fun _ _ => True := by
    intro u hu
    rw [bind_apply]
    cases hr : fetchNextToken u with
    | ok a v => exact hu.fetch hr
    | error e v => trivial
  have hround : Holds (Inside s) (moreTokens (ι := ι)) (Round.elim (fun _ => Inside s) fun _ => Inside s)
      fun _ _ => True := by
    intro u hu
    unfold moreTokens
    rw [bind_of_ok (get_apply u)]
    split_ifs
    · exact hagain u hu
    · rw [bind_apply]
      cases hr : staleSimpleKeys u with
      | error e v => trivial
      | ok a v =>
        dsimp only
        rw [bind_of_ok (get_apply v)]
        split_ifs
        · exact hagain v (hu.stale hr)
        · exact hu.stale hr
  rw [fetchMoreTokens_eq, bind_of_ok (get_apply s)] at ht
  obtain ⟨⟨⟩, u, hloop, ht⟩ := bind_ok ht
  cases ht
  exact ⟨u, (Holds.loop (P := fun _ => Inside s) (Q := fun _ => Inside s) (fun _ _ _ => trivial) (fun _ => hround) _ ()).ok
    .start hloop, rfl⟩

/-- What does not matter between two calls. -/
theorem Course.deliver {later : List Token} (h : Course T delivered s) (ht : later ++ t.tokens = delivered ++ s.tokens)
    (hm : t.mark = s.mark) (hi : t.input = s.input) (hk : t.simpleKeys = s.simpleKeys) (hf : t.flowLevel = s.flowLevel)
    (hind : t.indents = s.indents) : Course T later t := by
  rcases h with h | h
  · refine .inl ⟨⟨rfl, ?_, ?_⟩, ?_⟩
    · rw [hm, hi]
      exact h.beside.rel
    · rw [Behind, hm, hk]
      exact h.beside.behind
    · rw [ht]
      exact h.tokens
  · refine .inr ⟨?_, fun hflow => ?_, ?_, ?_⟩
    · rw [AtEnd, hi]
      exact h.atEnd
    · rw [hind]
      exact h.closed (hf ▸ hflow)
    · rw [ht]
      exact h.last
    · rw [ht]
      exact h.tokens

theorem fetchMoreTokens_course (hs : Between delivered s) (h : Course T delivered s)
    (ht : fetchMoreTokens s = .ok ⟨⟩ t) : Course T delivered t := by
  obtain ⟨u, hu, rfl⟩ := fetchMoreTokens_inside ht
  exact (hu.course hs h).deliver rfl rfl rfl rfl rfl rfl

theorem scanToken_course {token : Token} (hs : Resting delivered s) (h : Course T delivered s)
    (ht : scanToken s = .ok token t) : Course T (delivered ++ [token]) t := by
  unfold scanToken at ht
  rw [bind_of_ok (get_apply s)] at ht
  obtain ⟨⟨⟩, u, hfetch, ht⟩ := bind_ok ht
  have hu : Course T delivered u := by
    unfold onlyIf at hfetch
    split_ifs at hfetch
    · exact fetchMoreTokens_course hs.between h hfetch
    · cases hfetch
      exact h
  obtain ⟨head, v, hdequeue, ht⟩ := bind_ok ht
  unfold dequeueToken at hdequeue
  cases htokens : u.tokens with
  | nil =>
    rw [htokens] at hdequeue
    cases hdequeue
  | cons head rest =>
    rw [htokens] at hdequeue
    cases hdequeue
    cases ht
    refine hu.deliver ?_ rfl rfl rfl rfl rfl
    rw [htokens, List.append_assoc, List.singleton_append]

theorem scan_course {token : Token} (hs : Resting delivered s) (h : Course T delivered s) (ht : scan s = .ok token t)
    (htype : token.type ≠ .noToken) : Course T (delivered ++ [token]) t := by
  unfold scan at ht
  split_ifs at ht with hc
  · cases ht
    exact absurd rfl htype
  · cases hr : scanToken s with
    | ok token' t' =>
      rw [hr] at ht
      cases ht
      exact scanToken_course hs h hr
    | error e t' =>
      rw [hr] at ht
      cases e <;> cases ht

theorem Terminal.beside {input : ι} (h : T.lockstep.Rel 0 0 input input) :
    Beside T.lockstep.simulation (init input) (init input) :=
  ⟨rfl, h, fun _ hk => absurd hk List.not_mem_nil⟩

theorem Reached.course {input : ι} (h : Reached input delivered s) (hi : T.lockstep.Rel 0 0 input input) :
    Course T delivered s := by
  induction h with
  | start => exact .inl ⟨⟨rfl, hi, fun _ hk => absurd hk List.not_mem_nil⟩, fun _ ht => absurd ht List.not_mem_nil⟩
  | scan h hs ht ih => exact scan_course h.resting ih hs ht
  | peek h hs ih => exact fetchMoreTokens_course h.resting.between ih hs
  | @skip delivered rest s token h ha ht ih =>
    refine ih.deliver ?_ rfl rfl rfl rfl rfl
    change delivered ++ [token] ++ s.tokens.tail = delivered ++ s.tokens
    rw [ht, List.append_assoc]
    rfl

/-! ## The stacks -/

/-- The columns of the blocks from the outermost on, and the places of the simple keys. -/
structure Stacked (s : Scanner ι) : Prop where
  columns : (s.indents.reverse ++ [s.indent]).Pairwise (· < ·)
  bottom : (s.indents.reverse ++ [s.indent]).head? = some (-1)
  levels : s.simpleKeys.length = s.flowLevel + 1

omit [Input ι] in
theorem Sound.stacked (h : Sound delivered s) : Stacked s := by
  have hreverse : s.indents.reverse ++ [s.indent] = (s.indent :: s.indents).reverse := List.reverse_cons.symm
  refine ⟨?_, ?_, h.levels⟩
  · rw [hreverse, List.pairwise_reverse]
    exact h.columns
  · rw [hreverse, List.head?_reverse]
    exact h.bottom

omit [Input ι] in
theorem Between.stacked (h : Between delivered s) (hs : s.streamStartProduced = true) : Stacked s := by
  refine (h.resolve_left fun ⟨_, h⟩ => ?_).toSound.stacked
  obtain ⟨-, -, -, -, -, -, hnot⟩ := fields_of_kept h
  rw [hs] at hnot
  cases hnot

omit [Input ι] in
/-- Where memory has not run out the stacks are in order behind a failure, too. -/
theorem Ended.stacked {problem : Problem} (h : Ended delivered (.reported problem) s) (hm : problem ≠ .memory)
    (hs : s.streamStartProduced = true) : Stacked s := by
  obtain ⟨_, he, -, h⟩ := h.resolve_left Fault.noConfusion
  cases he
  rcases h hm with h | h
  · obtain ⟨-, -, -, -, -, -, hnot⟩ := fields_of_kept h
    rw [hs] at hnot
    cases hnot
  · exact h.stacked

/-- How a call fails. -/
theorem scan_ended {e : Fault} (h : Resting delivered s) (hs : scan s = .error e t) :
    ∃ u, scanToken s = .error e u ∧ Ended delivered e u ∧ t = { u with error := t.error } := by
  unfold scan at hs
  split_ifs at hs
  have hspec := scanToken_spec s h
  cases hr : scanToken s with
  | ok token u =>
    rw [hr] at hs
    cases hs
  | error e' u =>
    rw [hr] at hs hspec
    cases e' <;> cases hs <;> exact ⟨_, rfl, hspec, rfl⟩

/-! ## What has been handed over with the end -/

/-- Once the end has been handed over, what is still queued are no blocks, and no block is open. -/
theorem Course.balanced (h : Course T delivered s) (hs : Between delivered s) (hend : ∃ token ∈ delivered, Ending token)
    (hflow : s.flowLevel = 0) : Opened 0 (brackets delivered) := by
  obtain ⟨token, hm, htoken⟩ := hend
  have hover := h.resolve_left fun h => h.tokens token (List.mem_append_left _ hm) htoken
  have hsettled := hs.resolve_left fun ⟨hd, _⟩ => by
    rw [hd] at hm
    cases hm
  have hblocks := hsettled.blocks
  have hrest : brackets s.tokens = [] := by
    refine List.filterMap_eq_nil_iff.mpr fun later hl => ?_
    have hlater : later.type = .streamEnd := (List.pairwise_append.mp hover.tokens).2.2 token hm later hl htoken
    rw [hlater]
    rfl
  rw [hover.closed hflow, brackets_append, hrest, List.append_nil] at hblocks
  exact hblocks

/-- Where the end has been handed over the input has come to its end. -/
theorem Course.atEnd (h : Course T delivered s) (hend : ∃ token ∈ delivered, Ending token) : AtEnd T s := by
  obtain ⟨token, hm, htoken⟩ := hend
  exact (h.resolve_left fun h => h.tokens token (List.mem_append_left _ hm) htoken).atEnd

theorem calls_halted (h : s.error.isSome = true) : ∀ (n : Nat), ∀ x ∈ (calls n s).1, x = .ok emptyToken
  | 0, _, hx => absurd hx List.not_mem_nil
  | n + 1, x, hx => by
    unfold calls at hx
    rw [scan_of_halted h] at hx
    rcases List.mem_cons.mp hx with hx | hx
    · exact hx
    · exact calls_halted h n x hx

/-- What is returned has been handed over in the course of the run. -/
theorem calls_course {token : Token} (htoken : Ending token) : ∀ (n : Nat) {delivered : List Token} {s : Scanner ι},
    Resting delivered s → Beside T.lockstep.simulation s s → Course T delivered s →
    .ok token ∈ (calls n s).1 → ∃ later t, Course T later t ∧ token ∈ later
  | 0, _, _, _, _, _, hx => absurd hx List.not_mem_nil
  | n + 1, delivered, s, hs, hb, hc, hx => by
    have hempty : ¬(.ok token : Except Fault Token) = .ok emptyToken := fun h => by
      cases h
      exact TokenType.noConfusion htoken
    have hbeside := scan_beside s s hb
    unfold calls at hx
    by_cases hrest : s.streamEndProduced = true ∨ s.error.isSome = true
    · have hscan : scan s = .ok emptyToken s := if_pos hrest
      rw [hscan] at hx
      rcases List.mem_cons.mp hx with hx | hx
      · exact absurd hx hempty
      · exact calls_course htoken n hs hb hc hx
    · have hspec := scanToken_spec s hs
      cases hr : scanToken s with
      | ok head t =>
        have hscan : scan s = .ok head t := by
          unfold scan
          rw [if_neg hrest, hr]
        rw [hr] at hspec
        rw [hscan] at hx hbeside
        have hcourse := scanToken_course hs hc hr
        rcases List.mem_cons.mp hx with hx | hx
        · cases hx
          exact ⟨_, t, hcourse, List.mem_append_right _ (List.mem_singleton.mpr rfl)⟩
        · exact calls_course htoken n hspec hbeside.2 hcourse hx
      | error e t =>
        have hended := scan_resting hs
        cases hr' : scan s with
        | ok head t' =>
          unfold scan at hr'
          rw [if_neg hrest, hr] at hr'
          cases e <;> cases hr'
        | error e' t' =>
          rw [hr'] at hx hended hbeside
          obtain ⟨problem, rfl⟩ := hended.resolve_left hbeside.2.fault
          rcases List.mem_cons.mp hx with hx | hx
          · cases hx
          · exact absurd (calls_halted (by rw [hbeside.2.error problem rfl]; rfl) n _ hx) hempty

/-- What the calls of a run without failures return has been handed over. -/
theorem reached_calls {input : ι} : ∀ (n : Nat) {delivered : List Token} {s : Scanner ι}, Reached input delivered s →
    (∀ x ∈ (calls n s).1, ∃ token, x = .ok token ∧ token.type ≠ .noToken) →
    ∃ later, Reached input (delivered ++ later) (calls n s).2 ∧ (calls n s).1 = later.map .ok
  | 0, delivered, _, h, _ => ⟨[], by rwa [List.append_nil], rfl⟩
  | n + 1, delivered, s, h, hx => by
    unfold calls at hx ⊢
    cases hr : scan s with
    | error e t =>
      rw [hr] at hx
      obtain ⟨token, he, -⟩ := hx _ List.mem_cons_self
      cases he
    | ok token t =>
      rw [hr] at hx
      obtain ⟨head, he, htype⟩ := hx _ List.mem_cons_self
      cases he
      obtain ⟨later, hlater, hcalls⟩ := reached_calls n (h.scan hr htype) fun x hm => hx x (List.mem_cons_of_mem _ hm)
      refine ⟨token :: later, ?_, congrArg _ hcalls⟩
      rwa [List.append_cons]

end Scanner

end LibYaml
