import LibYaml.Scanner.Course
import LibYaml.Parser.Sources

/-!
# The tokens of an input

What the scanner hands over to the parser is a list: each token that is fetched but the last takes the
scanner on in its input, and behind the end no token is put in front of it.  So the queue comes to the end
of the stream after finitely many tokens, or the scanner fails.
-/

namespace LibYaml

open Fallible

namespace Scanner

section Peek

variable {ι : Type} [Input ι] {s t : Scanner ι} {token : Token} {rest : List Token} {fault : Fault}

/-- The head of the queue. -/
def headToken : ScanM ι Token := fun s =>
  match s.tokens with
  | [] => .error .silent s
  | token :: _ => .ok token s

omit [Input ι] in
theorem headToken_ok (h : s.tokens = token :: rest) : headToken s = .ok token s := by
  unfold headToken
  rw [h]

theorem peek_eq : TokenSource.peek s = (onlyIf (!s.tokenAvailable) fetchMoreTokens >>= fun _ => headToken) s := by
  rw [bind_apply]
  simp only [TokenSource.peek]
  cases onlyIf (!s.tokenAvailable) fetchMoreTokens s with
  | ok u t =>
    unfold headToken
    cases t.tokens <;> rfl
  | error fault t => rfl

/-- Looking at the next token fetches it, or finds it there. -/
theorem peek_ok (h : TokenSource.peek s = .ok token t) :
    t.tokenAvailable = true ∧ (∃ rest, t.tokens = token :: rest) ∧ (t = s ∨ fetchMoreTokens s = .ok ⟨⟩ t) := by
  rw [peek_eq] at h
  obtain ⟨⟨⟩, u, hu, h⟩ := bind_ok h
  unfold headToken at h
  cases htokens : u.tokens with
  | nil =>
    rw [htokens] at h
    cases h
  | cons head rest =>
    rw [htokens] at h
    cases h
    unfold onlyIf at hu
    split_ifs at hu with ha
    · obtain ⟨v, -, rfl⟩ := fetchMoreTokens_inside hu
      exact ⟨rfl, ⟨rest, htokens⟩, .inr hu⟩
    · cases hu
      exact ⟨by simpa using ha, ⟨rest, htokens⟩, .inl rfl⟩

/-- A token that has been fetched is there. -/
theorem peek_available (ha : s.tokenAvailable = true) (ht : s.tokens = token :: rest) :
    TokenSource.peek s = .ok token s := by
  rw [peek_eq, ha]
  exact headToken_ok ht

theorem steady : Steady (Scanner ι) := by
  intro s t token h
  obtain ⟨ha, ⟨rest, ht⟩, -⟩ := peek_ok h
  refine ⟨peek_available ha ht, ?_⟩
  change t.tokens.head? = some token
  rw [ht]
  rfl

end Peek

/-! ## What has been handed over -/

section Handed

variable {ι : Type} [Input ι] {delivered : List Token} {s t : Scanner ι} {token : Token}

theorem Resting.peek (h : Resting delivered s) (hp : TokenSource.peek s = .ok token t) : Resting delivered t := by
  obtain ⟨-, -, rfl | hf⟩ := peek_ok hp
  · exact h
  · have hspec := fetchMoreTokens_spec.ok h.between hf
    exact ⟨.inr hspec.1, fun _ => hspec.2⟩

theorem Resting.skip (h : Resting delivered s) (hp : TokenSource.peek s = .ok token s) :
    Resting (delivered ++ [token]) (TokenSource.skip s) := by
  obtain ⟨ha, ⟨rest, ht⟩, -⟩ := peek_ok hp
  have hsettled := (h.between.settled (h.available ha).tokens).deliver
    (s.tokens.head?.any (·.type = .streamEnd)) ht (h.available ha).free
  refine ⟨.inr ?_, fun ha => absurd ha Bool.false_ne_true⟩
  change Settled (delivered ++ [token]) { s with
    tokenAvailable := false, tokensParsed := s.tokensParsed + 1
    streamEndProduced := s.tokens.head?.any (·.type = .streamEnd), tokens := s.tokens.tail }
  rw [ht] at hsettled ⊢
  exact hsettled

/-- What has been handed over and what is still to come are the tokens of the input. -/
def account (ι : Type) [Input ι] (tokens : List Token) : Account (Scanner ι) where
  Rel s list := ∃ delivered, Resting delivered s ∧ delivered ++ list.tokens = tokens
  peek := fun ⟨delivered, h, hl⟩ hp => ⟨delivered, h.peek hp, hl⟩
  skip := by
    rintro s token rest problem ⟨delivered, h, hl⟩ hp -
    exact ⟨delivered ++ [token], h.skip hp, by rw [← hl, List.append_assoc]; rfl⟩

end Handed

/-! ## The queue comes to an end -/

section Ending

variable {ι : Type} [Input ι] {T : Terminal ι} {delivered : List Token} {s t u : Scanner ι} {token : Token}

/-- What the scanner has still before it. -/
def ahead (s : Scanner ι) : Nat := pending s + Input.size s.input

/-- A token that is not the last takes the scanner on. -/
theorem fetchNextToken_ahead (h : Going T delivered s) (ht : fetchNextToken s = .ok ⟨⟩ t) (hg : Going T delivered t) :
    ahead t < ahead s := by
  have hfurther := fetchNextToken_further s s h.beside.here
  rw [ht] at hfurther
  obtain ⟨-, hfurther⟩ := hfurther
  have hleft := hfurther.left
  have hpending : pending t = 0 := if_pos hfurther.started
  simp only at hleft
  unfold ahead
  rcases hfurther.moved with ⟨-, hi⟩ | ⟨-, -, token, hm, htype⟩
  · simp only at hi
    omega
  · exact absurd htype (hg.only token hm)

omit [Input ι] in
/-- Outside flow collections there is no block to be closed. -/
theorem fetchStreamEnd_tokens (hs : Sound delivered s) (h : Closed s) (ht : fetchStreamEnd s = .ok ⟨⟩ t) :
    ∃ token, Ending token ∧ t.tokens = s.tokens ++ [token] := by
  unfold fetchStreamEnd at ht
  rw [bind_of_ok (modify_apply _ s)] at ht
  obtain ⟨⟨⟩, u, hunroll, ht⟩ := bind_ok ht
  have hidle {v : Scanner ι} (hv : v.flowLevel = 0 → v.indent ≤ -1) (he : unrollIndent (-1) v = .ok ⟨⟩ u) : u = v := by
    rw [unrollIndent_idle hv] at he
    cases he
    rfl
  have hu : u.tokens = s.tokens := by
    split_ifs at hunroll with hcolumn
    · rw [hidle (fun hflow => (h.indent hs hflow).le) hunroll]
    · have hindent : s.flowLevel = 0 → s.indent ≤ -1 := fun hflow => (h.indent hs hflow).le
      rw [hidle (v := ({ s with mark := ⟨s.mark.index, s.mark.line + 1, 0⟩ })) hindent hunroll]
  obtain ⟨⟨⟩, v, hremove, ht⟩ := bind_ok ht
  have hv : v.tokens = u.tokens := by rw [removeSimpleKey_ok hremove]
  cases ht
  exact ⟨⟨.streamEnd, v.mark, v.mark⟩, rfl, by rw [← hu, ← hv]⟩

/-- Behind the end only the end is fetched. -/
theorem Over.fetch (hs : Between delivered s) (h : Over T delivered s) (ht : fetchNextToken s = .ok ⟨⟩ t) :
    Over T delivered t ∧ ∃ token, Ending token ∧ t.tokens = s.tokens ++ [token] := by
  have hs : Settled delivered s := hs.resolve_left fun ⟨hd, hs⟩ => by
    obtain ⟨-, -, -, htokens, -⟩ := fields_of_kept hs
    have htokens : s.tokens = [] := htokens
    obtain ⟨token, hm, -⟩ := h.last
    rw [hd, htokens] at hm
    cases hm
  rw [fetchNextToken_started hs.started] at ht
  obtain ⟨⟨⟩, u, happroach, ht⟩ := bind_ok ht
  obtain ⟨hover, htokens⟩ := approach_over hs h happroach
  have hsettled := (approach_spec.ok hs happroach).1
  rw [fetchToken_ended (T.nul hover.atEnd)] at ht
  refine ⟨fetchStreamEnd_over hsettled hover.atEnd (.inr hover) ht, ?_⟩
  rw [← htokens]
  exact fetchStreamEnd_tokens hsettled.toSound hover.closed ht

/-- What comes before the end of the stream. -/
def plain (tokens : List Token) : Nat := (tokens.filter (·.type ≠ .streamEnd)).length

theorem plain_append {tokens : List Token} (h : Ending token) : plain (tokens ++ [token]) = plain tokens := by
  have : ([token].filter (·.type ≠ .streamEnd)) = [] := by simp [show token.type = .streamEnd from h]
  rw [plain, List.filter_append, this, List.append_nil, plain]

theorem plain_cons {tokens : List Token} (h : ¬Ending token) : plain (token :: tokens) = plain tokens + 1 := by
  have : token.type ≠ .streamEnd := h
  simp [plain, this]

/-- Inside a call behind the end. -/
theorem Inside.over (h : Inside s u) (hs : Between delivered s) (ho : Over T delivered s) :
    Over T delivered u ∧ plain u.tokens = plain s.tokens := by
  induction h with
  | start => exact ⟨ho, rfl⟩
  | stale _ ht ih =>
    refine ⟨staleSimpleKeys_over ih.1 ht, ?_⟩
    rw [← ih.2, (staleSimpleKeys_ok ht).1]
  | fetch h ht ih =>
    obtain ⟨hover, token, htoken, htokens⟩ := ih.1.fetch (h.between hs) ht
    exact ⟨hover, by rw [htokens, plain_append htoken, ih.2]⟩

/-- Inside a call before the end: nothing is fetched, the scanner goes on, or it comes to the end. -/
theorem Inside.going (h : Inside s u) (hs : Between delivered s) (hg : Going T delivered s) :
    Over T delivered u ∨ Going T delivered u ∧ (u.tokens = s.tokens ∧ ahead u = ahead s ∨ ahead u < ahead s) := by
  induction h with
  | start => exact .inr ⟨hg, .inl ⟨rfl, rfl⟩⟩
  | @stale t u _ ht ih =>
    rcases ih with ih | ⟨ih, hless⟩
    · exact .inl (staleSimpleKeys_over ih ht)
    · have hsame : u.tokens = t.tokens ∧ ahead u = ahead t := by
        rw [(staleSimpleKeys_ok ht).1]
        exact ⟨rfl, rfl⟩
      rcases staleSimpleKeys_course (.inl ih) ht with hgoing | hover
      · refine .inr ⟨hgoing, ?_⟩
        rw [hsame.1, hsame.2]
        exact hless
      · exact .inl hover
  | @fetch t u h ht ih =>
    rcases ih with ih | ⟨ih, hless⟩
    · exact .inl (ih.fetch (h.between hs) ht).1
    · rcases fetchNextToken_course (h.between hs) (.inl ih) ht with hgoing | hover
      · have := fetchNextToken_ahead ih ht hgoing
        refine .inr ⟨hgoing, .inr ?_⟩
        rcases hless with ⟨-, heq⟩ | hlt
        · omega
        · omega
      · exact .inl hover

/-- What a look at the next token comes to. -/
theorem peek_cases (h : Resting delivered s) (hb : Beside T.lockstep.simulation s s) :
    (∃ problem t, TokenSource.peek s = .error (.reported problem) t)
      ∨ ∃ token t u, TokenSource.peek s = .ok token t ∧ Inside s u ∧ t = { u with tokenAvailable := true } := by
  cases ha : s.tokenAvailable with
  | true =>
    obtain ⟨token, rest, ht⟩ := List.exists_cons_of_ne_nil (h.available ha).tokens
    refine .inr ⟨token, s, s, peek_available ha ht, .start, ?_⟩
    rw [← ha]
  | false =>
    rw [peek_eq, ha]
    have hbeside := fetchMoreTokens_beside s s hb
    cases hf : fetchMoreTokens s with
    | error e t =>
      rw [hf] at hbeside
      obtain ⟨problem, rfl, -⟩ := (fetchMoreTokens_spec.error h.between hf).resolve_left hbeside.2.fault
      exact .inl ⟨problem, t, by rw [bind_apply, show onlyIf (!false) fetchMoreTokens s = _ from hf]⟩
    | ok a t =>
      obtain ⟨-, hd⟩ := fetchMoreTokens_spec.ok h.between hf
      obtain ⟨token, rest, ht⟩ := List.exists_cons_of_ne_nil hd.tokens
      obtain ⟨u, hu, heq⟩ := fetchMoreTokens_inside hf
      exact .inr ⟨token, t, u, by rw [bind_of_ok (show onlyIf (!false) fetchMoreTokens s = _ from hf), headToken_ok ht],
        hu, heq⟩

/-- Behind a token the run goes on. -/
theorem Course.skip (h : Course T delivered s) (hp : TokenSource.peek s = .ok token s) :
    Course T (delivered ++ [token]) (TokenSource.skip s) := by
  obtain ⟨-, ⟨rest, ht⟩, -⟩ := peek_ok hp
  refine h.deliver ?_ rfl rfl rfl rfl rfl
  change delivered ++ [token] ++ s.tokens.tail = delivered ++ s.tokens
  rw [ht, List.append_assoc]
  rfl

/-- A scanner at rest, before the end has been handed over. -/
structure Waiting (T : Terminal ι) (delivered : List Token) (s : Scanner ι) : Prop where
  resting : Resting delivered s
  beside : Beside T.lockstep.simulation s s
  plain : ∀ token ∈ delivered, ¬Ending token

theorem Waiting.next (h : Waiting T delivered s) (hp : TokenSource.peek s = .ok token t) (hi : Inside s u)
    (ht : t = { u with tokenAvailable := true }) (htoken : ¬Ending token) :
    Waiting T (delivered ++ [token]) (TokenSource.skip t) := by
  have hbeside := hi.beside h.beside
  refine ⟨(h.resting.peek hp).skip (steady _ _ _ hp).1, ?_, fun later hm => ?_⟩
  · rw [ht]
    exact ⟨rfl, hbeside.rel, hbeside.behind⟩
  · rcases List.mem_append.mp hm with hm | hm
    · exact h.plain later hm
    · rw [List.mem_singleton.mp hm]
      exact htoken

/-- What lies behind the head of the queue. -/
theorem skip_tokens (hp : TokenSource.peek s = .ok token t) : t.tokens = token :: (TokenSource.skip t).tokens := by
  obtain ⟨-, ⟨rest, ht⟩, -⟩ := peek_ok hp
  change t.tokens = token :: t.tokens.tail
  rw [ht]
  rfl

/-- From the end of the input on. -/
theorem Over.lists : ∀ (n : Nat) {delivered : List Token} {s : Scanner ι}, plain s.tokens ≤ n →
    Waiting T delivered s → Over T delivered s → ∃ list, Lists s list
  | n, delivered, s, hn, hw, ho => by
    rcases peek_cases hw.resting hw.beside with ⟨problem, t, hp⟩ | ⟨token, t, u, hp, hi, ht⟩
    · exact ⟨_, .failed hp⟩
    · by_cases htoken : token.type = .streamEnd
      · exact ⟨⟨[token], .memory⟩, .ended hp htoken⟩
      · obtain ⟨hover, hplain⟩ := hi.over hw.resting.between ho
        have htokens := skip_tokens hp
        have hu : t.tokens = u.tokens := by rw [ht]
        rw [← hu, htokens, plain_cons htoken] at hplain
        cases n with
        | zero => omega
        | succ n =>
          have hcourse : Course T delivered t := (Course.deliver (.inr hover) (by rw [ht]) (by rw [ht]) (by rw [ht])
            (by rw [ht]) (by rw [ht]) (by rw [ht]))
          have hnext := hw.next hp hi ht htoken
          have hover' : Over T (delivered ++ [token]) (TokenSource.skip t) := by
            refine (hcourse.skip (steady _ _ _ hp).1).resolve_left fun hg => ?_
            obtain ⟨later, hm, hlater⟩ := hover.last
            refine hg.tokens later ?_ hlater
            rw [List.append_assoc, List.singleton_append, ← htokens, hu]
            exact hm
          obtain ⟨list, hl⟩ := Over.lists n (by omega) hnext hover'
          exact ⟨⟨token :: list.tokens, list.failure⟩, .more hp htoken hl⟩

/-- Before the end of the input each call finds its token in the queue, goes on, or comes to the end. -/
theorem Going.lists : ∀ (m n : Nat) {delivered : List Token} {s : Scanner ι}, ahead s < m → s.tokens.length < n →
    Waiting T delivered s → Going T delivered s → ∃ list, Lists s list
  | 0, _, _, _, hm, _, _, _ => absurd hm (Nat.not_lt_zero _)
  | _ + 1, 0, _, _, _, hn, _, _ => absurd hn (Nat.not_lt_zero _)
  | m + 1, n + 1, delivered, s, hm, hn, hw, hg => by
    rcases peek_cases hw.resting hw.beside with ⟨problem, t, hp⟩ | ⟨token, t, u, hp, hi, ht⟩
    · exact ⟨_, .failed hp⟩
    · by_cases htoken : token.type = .streamEnd
      · exact ⟨⟨[token], .memory⟩, .ended hp htoken⟩
      · have htokens := skip_tokens hp
        have hu : t.tokens = u.tokens := by rw [ht]
        have hahead : ahead (TokenSource.skip t) = ahead u := by rw [ht]; rfl
        have hnext := hw.next hp hi ht htoken
        have hcourse : Course T (delivered ++ [token]) (TokenSource.skip t) := by
          have hcourse := hi.course hw.resting.between (.inl hg)
          exact (hcourse.deliver (by rw [ht]) (by rw [ht]) (by rw [ht]) (by rw [ht]) (by rw [ht])
            (by rw [ht]) : Course T delivered t).skip (steady _ _ _ hp).1
        have hlist : ∃ list, Lists (TokenSource.skip t) list := by
          rcases hcourse with hgoing | hover
          · rcases hi.going hw.resting.between hg with hover | ⟨-, ⟨hsame, heq⟩ | hless⟩
            · obtain ⟨later, hm, hlater⟩ := hover.last
              refine absurd hlater (hgoing.tokens later ?_)
              rw [List.append_assoc, List.singleton_append, ← htokens, hu]
              exact hm
            · rw [← hu, htokens] at hsame
              rw [← hsame, List.length_cons] at hn
              exact Going.lists (m + 1) n (by omega) (by omega) hnext hgoing
            · exact Going.lists m _ (by omega) (Nat.lt_succ_self _) hnext hgoing
          · exact Over.lists _ le_rfl hnext hover
        obtain ⟨list, hl⟩ := hlist
        exact ⟨⟨token :: list.tokens, list.failure⟩, .more hp htoken hl⟩

/-- Whatever the input is, the scanner hands over finitely many tokens. -/
theorem exists_lists {input : ι} (h : T.lockstep.Rel 0 0 input input) : ∃ list, Lists (init input) list := by
  have hb : Beside T.lockstep.simulation (init input) (init input) := Terminal.beside h
  have hw : Waiting T [] (init input) := ⟨resting_init input, hb, fun _ hm => absurd hm List.not_mem_nil⟩
  exact Going.lists _ _ (Nat.lt_succ_self _) (Nat.lt_succ_self _) hw ⟨hb, fun _ hm => absurd hm List.not_mem_nil⟩

end Ending

end Scanner

end LibYaml
