import LibYaml.Parser.EventOrder

/-!
# Calls and tokens

A call that takes no token leads to a state of a lower rank, and no rank exceeds 2 (`parse_paid`).  So
of three events in a row at least one is paid for with a token, and a run of the parser is over after
three times as many calls as there are tokens, and one more.
-/

namespace LibYaml

namespace Parser

open Fallible

/-- How many events may follow one another from a state without a token. -/
def rank : ParserState → Nat
  | .implicitDocumentStart | .documentContent | .indentlessSequenceEntry | .flowSequenceEntryMappingValue => 2
  | .documentEnd | .blockNode | .flowNode | .blockMappingValue | .flowSequenceEntryMappingKey
  | .flowSequenceEntryMappingEnd | .flowMappingValue | .flowMappingEmptyValue => 1
  | _ => 0

/-- What lies below a state: an indentless sequence is a key or a value of a block mapping, and the content
of a document is followed by its end. -/
def Rests : ParserState → List ParserState → Prop
  | .indentlessSequenceEntry, below => ∃ s rest, below = s :: rest ∧ (s = .blockMappingKey ∨ s = .blockMappingValue)
  | .documentContent, below => ∃ rest, below = .documentEnd :: rest
  | .blockNodeOrIndentlessSequence, _ => False
  | _, _ => True

def Seated : List ParserState → Prop
  | [] => True
  | s :: below => Rests s below ∧ Seated below

theorem rank_le (s : ParserState) : rank s ≤ 2 := by
  cases s <;> decide

/-- So many tokens are left at most, and the states below are these. -/
def Has (N : Nat) (states : List ParserState) (p : Parser TokenList) : Prop :=
  p.source.tokens.length ≤ N ∧ p.states = states

/-- A token has been taken, or the rank is lower than it was. -/
def Paid (N r : Nat) (p : Parser TokenList) : Prop :=
  (p.source.tokens.length < N ∨ p.source.tokens.length ≤ N ∧ rank p.state < r) ∧ Seated (p.state :: p.states)

section Steps

variable {α : Type} {N M r : Nat} {states : List ParserState} {s : ParserState} {e : Event} {mark : Mark}
  {Q : α → Parser TokenList → Prop}

theorem Has.mono {p : Parser TokenList} (h : Has N states p) (hN : N ≤ M) : Has M states p := ⟨le_trans h.1 hN, h.2⟩

/-- What follows a look at the next token may count on there being one. -/
theorem peekThen {f : Token → ParseM TokenList α} {P : Parser TokenList → Prop}
    (hP : ∀ p, P p → p.source.tokens.length ≤ N) (h : ∀ token, 0 < N → Holds P (f token) Q fun _ _ => True) :
    Holds P (peekToken >>= f) Q fun _ _ => True := by
  intro p hp
  rw [bind_apply, peekToken_list]
  cases htokens : p.source.tokens with
  | nil => trivial
  | cons token tokens =>
    have hN := hP p hp
    rw [htokens, List.length_cons] at hN
    exact h token (by omega) p hp

theorem Has.peek {f : Token → ParseM TokenList α}
    (h : ∀ token k, N = k + 1 → Holds (Has (k + 1) states) (f token) Q fun _ _ => True) :
    Holds (Has N states) (peekToken >>= f) Q fun _ _ => True := by
  refine peekThen (fun _ h => h.1) fun token hN => ?_
  obtain ⟨k, rfl⟩ : ∃ k, N = k + 1 := ⟨N - 1, by omega⟩
  exact h token k rfl

theorem skipToken_has : Holds (Has N states) skipToken (fun _ => Has (N - 1) states) fun _ _ => True := by
  rintro p ⟨hN, hs⟩
  refine ⟨?_, hs⟩
  simp only [TokenSource.skip, List.length_tail]
  omega

theorem setState_has : Holds (Has N states) (setState s) (fun _ p => Has N states p ∧ p.state = s) fun _ _ => True :=
  fun _ h => ⟨h, rfl⟩

theorem pushState_has : Holds (Has N states) (pushState s) (fun _ => Has N (s :: states)) fun _ _ => True :=
  fun _ h => ⟨h.1, congrArg (s :: ·) h.2⟩

/-- The state that is returned to has been seated there. -/
theorem popState_has (hS : Seated states) :
    Holds (Has N states) popState (fun _ p => p.source.tokens.length ≤ N ∧ Seated (p.state :: p.states))
      fun _ _ => True := by
  rintro p ⟨hN, hs⟩
  unfold popState
  rw [hs]
  cases states with
  | nil => trivial
  | cons s rest => exact ⟨hN, hS⟩

theorem pushMark_has : Holds (Has N states) (pushMark mark) (fun _ => Has N states) fun _ _ => True := fun _ h => h

theorem popMark_has : Holds (Has N states) popMark (fun _ => Has N states) fun _ _ => True := by
  intro p hp
  unfold popMark
  cases p.marks with
  | nil => trivial
  | cons m rest => exact hp

theorem ceases {f : Fault} : Holds (Has N states) (throw f : ParseM TokenList α) Q fun _ _ => True := Holds.throw fun _ _ => trivial

/-- Where a token has been taken any state is paid for. -/
theorem setPure_paid (hN : N < M) (hR : Rests s states) (hS : Seated states) :
    Holds (Has N states) (do setState s; pure e) (fun _ => Paid M r) fun _ _ => True := by
  refine setState_has.bind fun _ => Holds.pure ?_
  rintro p ⟨⟨hp, hs⟩, rfl⟩
  refine ⟨.inl (by omega), ?_⟩
  rw [hs]
  exact ⟨hR, hS⟩

theorem setPure_lower (hr : rank s < r) (hR : Rests s states) (hS : Seated states) :
    Holds (Has N states) (do setState s; pure e) (fun _ => Paid N r) fun _ _ => True := by
  refine setState_has.bind fun _ => Holds.pure ?_
  rintro p ⟨⟨hp, hs⟩, rfl⟩
  refine ⟨.inr ⟨hp, hr⟩, ?_⟩
  rw [hs]
  exact ⟨hR, hS⟩

theorem popPure_paid (hN : N < M) (hS : Seated states) :
    Holds (Has N states) (do popState; pure e) (fun _ => Paid M r) fun _ _ => True :=
  (popState_has hS).bind fun _ => Holds.pure fun _ h => ⟨.inl (by have := h.1; omega), h.2⟩

theorem popSkip_paid (hN : N - 1 < M) (hS : Seated states) :
    Holds (Has N states) (do popState; skipToken; pure e) (fun _ => Paid M r) fun _ _ => True := by
  refine (popState_has hS).bind fun _ => Holds.bind (Q := fun _ p => p.source.tokens.length < M ∧
    Seated (p.state :: p.states)) ?_ fun _ => Holds.pure fun _ h => ⟨.inl h.1, h.2⟩
  rintro p ⟨hp, hs⟩
  refine ⟨?_, hs⟩
  simp only [TokenSource.skip, List.length_tail]
  omega

end Steps

/-! ## Nodes -/

section Nodes

variable {N M r : Nat} {states : List ParserState} {s after : ParserState} {token : Token}

/-- Where properties have been read a token has been taken. -/
theorem parseProperties_has : Holds (Has (N + 1) states) (parseProperties token)
    (fun props p => Has (N + 1) states p ∧ (props.anchor = none ∧ props.tag = none ∨ Has N states p)) fun _ _ => True := by
  have hpeek {k : Nat} {props : Token → Properties} (hk : k ≤ N) :
      Holds (Has k states) (do let next ← peekToken; pure (props next))
        (fun props p => Has (N + 1) states p ∧ (props.anchor = none ∧ props.tag = none ∨ Has N states p)) fun _ _ => True :=
    Has.peek fun _ j hj => Holds.pure fun _ h => ⟨h.mono (by omega), .inr (h.mono (by omega))⟩
  unfold parseProperties
  split
  · refine skipToken_has.bind fun _ => Has.peek fun next k hk => ?_
    split
    · exact skipToken_has.bind fun _ => hpeek (by omega)
    · exact Holds.pure fun _ h => ⟨h.mono (by omega), .inr (h.mono (by omega))⟩
  · refine skipToken_has.bind fun _ => Has.peek fun next k hk => ?_
    split
    · exact skipToken_has.bind fun _ => hpeek (by omega)
    · exact Holds.pure fun _ h => ⟨h.mono (by omega), .inr (h.mono (by omega))⟩
  · exact Holds.pure fun _ h => ⟨h, .inl ⟨rfl, rfl⟩⟩

theorem resolveTag_has {props : Properties} : Holds (Has N states) (resolveTag props)
    (fun tag p => Has N states p ∧ (props.tag = none → tag = none)) fun _ _ => True := by
  intro p hp
  unfold resolveTag
  rcases props.tag with _ | ⟨handle, suffix⟩
  · exact ⟨hp, fun _ => rfl⟩
  · by_cases hh : cstr handle = []
    · simp only [hh, if_true]
      exact ⟨hp, fun h => by cases h⟩
    · simp only [hh, if_false]
      cases p.tagDirectives.find? (fun d => cstr d.handle = cstr handle) with
      | some d => exact ⟨hp, fun h => by cases h⟩
      | none => trivial

/-- What parsing a node needs: a token has been taken already, or the rank is not 0; and an indentless
sequence may only start where one may lie. -/
structure Room (N M r : Nat) (states : List ParserState) (indentless : Bool) : Prop where
  le : N ≤ M
  paid : N < M ∨ 1 ≤ r
  seated : Seated states
  indentless : indentless = true → N < M ∧ Rests .indentlessSequenceEntry states

/-- The state in which a collection is opened. -/
theorem opened_paid {e : Event} {indentless : Bool} (h : Room N M r states indentless) (hs : rank s = 0)
    (hR : Rests s states) : Holds (Has N states) (do setState s; pure e) (fun _ => Paid M r) fun _ _ => True := by
  refine setState_has.bind fun _ => Holds.pure ?_
  rintro p ⟨⟨hp, hst⟩, rfl⟩
  have hle := h.le
  refine ⟨?_, ?_⟩
  · rcases h.paid with hN | hr
    · exact .inl (by omega)
    · exact .inr ⟨by omega, by omega⟩
  · rw [hst]
    exact ⟨hR, h.seated⟩

theorem parseContent_paid {block indentless : Bool} {props : Properties} {tag : Option Bytes}
    (h : Room N M r states indentless) (hN : N - 1 < M)
    (hp : props.anchor.isSome = true ∨ tag.isSome = true → N < M) :
    Holds (Has N states) (parseContent block indentless props tag) (fun _ => Paid M r) fun _ _ => True := by
  unfold parseContent
  simp only []
  refine Holds.ite (fun hi => ?_) fun _ => ?_
  · obtain ⟨hlt, hR⟩ := h.indentless hi.1
    exact setPure_paid hlt hR h.seated
  split
  · exact popSkip_paid hN h.seated
  · exact opened_paid h rfl trivial
  · exact opened_paid h rfl trivial
  · refine Holds.ite (fun _ => opened_paid h rfl trivial) fun _ => Holds.ite (fun _ => opened_paid h rfl trivial) fun _ => ?_
    exact Holds.ite (fun hprops => popPure_paid (hp hprops) h.seated) fun _ => ceases

theorem parseNode_paid {block indentless : Bool} (h : Room N M r states indentless) :
    Holds (Has N states) (parseNode block indentless) (fun _ => Paid M r) fun _ _ => True := by
  unfold parseNode
  refine Has.peek fun token k hk => ?_
  subst hk
  have hle := h.le
  split
  · exact popSkip_paid (by omega) h.seated
  · refine parseProperties_has.bind fun props => ?_
    rintro p ⟨hp, hnone | hp'⟩
    · refine (resolveTag_has.bind fun tag q hq => ?_) p hp
      refine parseContent_paid h (by omega) (fun hprops => ?_) q hq.1
      rw [hnone.1, hq.2 hnone.2] at hprops
      simp at hprops
    · have hread : Room k M r states indentless :=
        ⟨by omega, .inl (by omega), h.seated, fun hi => ⟨by omega, (h.indentless hi).2⟩⟩
      exact (resolveTag_has.bind fun tag q hq =>
        parseContent_paid hread (by omega) (fun _ => by omega) q hq.1) p hp'

/-- A node that is parsed with a state below it, once a token has been taken. -/
theorem pushNode_paid {block : Bool} (hN : N < M) (hR : Rests s states) (hS : Seated states) :
    Holds (Has N states) (do pushState s; parseNode block false) (fun _ => Paid M r) fun _ _ => True :=
  pushState_has.bind fun _ => parseNode_paid ⟨Nat.le_of_lt hN, .inl hN, ⟨hR, hS⟩, fun h => by cases h⟩

theorem parseDocumentContent_paid (hS : Seated (.documentContent :: states)) :
    Holds (Has N states) parseDocumentContent (fun _ => Paid N 2) fun _ _ => True := by
  obtain ⟨⟨rest, rfl⟩, hS⟩ := hS
  refine Has.peek fun token k hk => Holds.ite (fun _ => ?_) fun _ => ?_
  · rintro p ⟨hp, hs⟩
    rw [hk]
    simp only [bind_apply, popState, hs, processEmptyScalar, pure_apply]
    exact ⟨.inr ⟨hp, (by decide : rank .documentEnd < 2)⟩, hS⟩
  · rw [← hk]
    exact parseNode_paid ⟨le_rfl, .inr (by decide), hS, fun h => by cases h⟩

/-! ## Collections -/

theorem openCollection_has {first : Bool} : Holds (Has N states) (openCollection first)
    (fun _ p => Has N states p ∧ (first = true → Has (N - 1) states p ∧ 0 < N)) fun _ _ => True := by
  cases first with
  | true =>
    refine Has.peek fun token k hk => pushMark_has.bind fun _ => ?_
    subst hk
    exact skipToken_has.weaken (fun _ h => h) (fun _ _ h => ⟨h.mono (by omega), fun _ => ⟨h, by omega⟩⟩) fun _ _ h => h
  | false => exact Holds.pure fun _ h => ⟨h, fun h => by cases h⟩

theorem openCollection_keeps {first : Bool} :
    Holds (Has N states) (openCollection first) (fun _ => Has N states) fun _ _ => True :=
  openCollection_has.weaken (fun _ h => h) (fun _ _ h => h.1) fun _ _ h => h

theorem closeCollection_paid {data : EventData} (hN : N - 1 < M) (hS : Seated states) :
    Holds (Has N states) (closeCollection token data) (fun _ => Paid M r) fun _ _ => True := by
  refine (popState_has hS).bind fun _ => ?_
  refine Holds.bind (Q := fun _ p => p.source.tokens.length ≤ N ∧ Seated (p.state :: p.states)) (fun p hp => ?_)
    fun _ => Holds.bind (Q := fun _ p => p.source.tokens.length < M ∧ Seated (p.state :: p.states)) ?_
    fun _ => Holds.pure fun _ h => ⟨.inl h.1, h.2⟩
  · unfold popMark
    cases p.marks with
    | nil => trivial
    | cons m rest => exact hp
  · rintro p ⟨hp, hs⟩
    refine ⟨?_, hs⟩
    simp only [TokenSource.skip, List.length_tail]
    omega

theorem failCollection_paid {context problem : String} :
    Holds (Has N states) (failCollection context problem token) (fun _ => Paid M r) fun _ _ => True :=
  popMark_has.bind fun _ => ceases

theorem parseOptionalNode_paid {follow : List TokenType} {block indentless : Bool} (hN : N < M)
    (hR : Rests after states) (hS : Seated states)
    (hi : indentless = true → after = .blockMappingKey ∨ after = .blockMappingValue) :
    Holds (Has (N + 1) states) (parseOptionalNode token follow after block indentless) (fun _ => Paid M r)
      fun _ _ => True := by
  refine skipToken_has.bind fun _ => Has.peek fun next k hk => ?_
  subst hk
  refine Holds.ite (fun _ => setPure_paid hN hR hS) fun _ => pushState_has.bind fun _ => ?_
  exact parseNode_paid ⟨Nat.le_of_lt hN, .inl hN, ⟨hR, hS⟩, fun h => ⟨hN, after, states, rfl, hi h⟩⟩

theorem parseBlockSequenceEntry_paid {first : Bool} (hS : Seated states) :
    Holds (Has N states) (parseBlockSequenceEntry first) (fun _ => Paid N r) fun _ _ => True := by
  refine openCollection_keeps.bind fun _ => Has.peek fun token k hk => ?_
  subst hk
  refine Holds.ite (fun _ => parseOptionalNode_paid (by omega) trivial hS fun h => by cases h) fun _ => ?_
  exact Holds.ite (fun _ => closeCollection_paid (by omega) hS) fun _ => failCollection_paid

theorem parseIndentlessSequenceEntry_paid (hS : Seated (.indentlessSequenceEntry :: states)) :
    Holds (Has N states) parseIndentlessSequenceEntry (fun _ => Paid N 2) fun _ _ => True := by
  refine Has.peek fun token k hk => ?_
  subst hk
  refine Holds.ite (fun _ => parseOptionalNode_paid (by omega) hS.1 hS.2 fun h => by cases h) fun _ => ?_
  obtain ⟨⟨s, rest, rfl, hs⟩, hS⟩ := hS
  rintro p ⟨hp, hst⟩
  simp only [bind_apply, popState, hst, pure_apply]
  refine ⟨.inr ⟨hp, ?_⟩, hS⟩
  rcases hs with rfl | rfl
  · exact (by decide : rank .blockMappingKey < 2)
  · exact (by decide : rank .blockMappingValue < 2)

theorem parseBlockMappingKey_paid {first : Bool} (hS : Seated states) :
    Holds (Has N states) (parseBlockMappingKey first) (fun _ => Paid N r) fun _ _ => True := by
  refine openCollection_keeps.bind fun _ => Has.peek fun token k hk => ?_
  subst hk
  refine Holds.ite (fun _ => parseOptionalNode_paid (by omega) trivial hS fun _ => .inr rfl) fun _ => ?_
  exact Holds.ite (fun _ => closeCollection_paid (by omega) hS) fun _ => failCollection_paid

theorem parseBlockMappingValue_paid (hS : Seated states) :
    Holds (Has N states) parseBlockMappingValue (fun _ => Paid N 1) fun _ _ => True := by
  refine Has.peek fun token k hk => ?_
  subst hk
  refine Holds.ite (fun _ => parseOptionalNode_paid (by omega) trivial hS fun _ => .inl rfl) fun _ => ?_
  exact setPure_lower (by decide) trivial hS

/-- In front of an entry a token has been taken: the one that opens the collection, or the separator. -/
theorem flowSeparator_has {first : Bool} {context problem : String} :
    Holds (fun p => Has (N + 1) states p ∧ (first = true → Has N states p)) (flowSeparator first context problem token)
      (fun _ => Has N states) fun _ _ => True := by
  have hskip : Holds (Has (N + 1) states) (do skipToken; peekToken) (fun _ => Has N states) fun _ _ => True := by
    refine skipToken_has.bind fun _ p hp => ?_
    rw [peekToken_list]
    cases p.source.tokens with
    | nil => trivial
    | cons t ts => exact hp
  have hfail : Holds (Has (N + 1) states) (do
      let mark ← popMark
      throw (parserErrorContext context mark problem token.startMark) : ParseM TokenList Token) (fun _ => Has N states)
      fun _ _ => True := popMark_has.bind fun _ => ceases
  unfold flowSeparator
  refine Holds.ite (fun h => Holds.pure fun _ hp => hp.2 h) fun _ => Holds.ite (fun _ => ?_) fun _ => ?_
  · exact hskip.weaken (fun _ h => h.1) (fun _ _ h => h) fun _ _ h => h
  · exact hfail.weaken (fun _ h => h.1) (fun _ _ h => h) fun _ _ h => h

/-- What is done in a flow collection up to an entry of it. -/
theorem flowEntry_paid {first : Bool} {context problem : String} {closing : TokenType} {data : EventData}
    {entries : Token → ParseM TokenList Event} (hS : Seated states)
    (h : ∀ entry k, k < N → Holds (Has k states) (entries entry) (fun _ => Paid N r) fun _ _ => True) :
    Holds (Has N states) (do
      openCollection first
      let token ← peekToken
      if token.type = closing then closeCollection token data
      else do
        let entry ← flowSeparator first context problem token
        entries entry) (fun _ => Paid N r) fun _ _ => True := by
  refine openCollection_has.bind fun _ => peekThen (fun _ h => h.1.1) fun token hN => ?_
  obtain ⟨k, rfl⟩ : ∃ k, N = k + 1 := ⟨N - 1, by omega⟩
  refine Holds.ite (fun _ => ?_) fun _ => ?_
  · exact (closeCollection_paid (by omega) hS).weaken (fun _ h => h.1) (fun _ _ h => h) fun _ _ h => h
  · exact (flowSeparator_has.bind fun entry => h entry k (by omega)).weaken
      (fun _ h => ⟨h.1, fun hf => (h.2 hf).1⟩) (fun _ _ h => h) fun _ _ h => h

theorem setSkip_paid {e : Event} (hN : N - 1 < M) (hR : Rests s states) (hS : Seated states) :
    Holds (Has N states) (do setState s; skipToken; pure e) (fun _ => Paid M r) fun _ _ => True := by
  refine setState_has.bind fun _ => Holds.bind (Q := fun _ p => Has (N - 1) states p ∧ p.state = s) ?_
    fun _ => Holds.pure ?_
  · rintro p ⟨⟨hp, hs⟩, hst⟩
    refine ⟨⟨?_, hs⟩, hst⟩
    simp only [TokenSource.skip, List.length_tail]
    omega
  · rintro p ⟨⟨hp, hs⟩, rfl⟩
    refine ⟨.inl (by omega), ?_⟩
    rw [hs]
    exact ⟨hR, hS⟩

theorem parseFlowSequenceEntry_paid {first : Bool} (hS : Seated states) :
    Holds (Has N states) (parseFlowSequenceEntry first) (fun _ => Paid N r) fun _ _ => True := by
  refine flowEntry_paid hS fun entry k hk => Holds.ite (fun _ => setSkip_paid (by omega) trivial hS) fun _ => ?_
  exact Holds.ite (fun _ => closeCollection_paid (by omega) hS) fun _ => pushNode_paid hk trivial hS

theorem parseFlowSequenceEntryMappingKey_paid (hS : Seated states) :
    Holds (Has N states) parseFlowSequenceEntryMappingKey (fun _ => Paid N 1) fun _ _ => True := by
  refine Has.peek fun token k hk => Holds.ite (fun _ => pushState_has.bind fun _ => ?_) fun _ => ?_
  · rw [hk]
    exact parseNode_paid ⟨le_rfl, .inr le_rfl, ⟨trivial, hS⟩, fun h => by cases h⟩
  · exact skipToken_has.bind fun _ => setPure_paid (by omega) trivial hS

theorem parseFlowValue_paid {follow : List TokenType} (hr : rank after < r) (hR : Rests after states)
    (hS : Seated states) :
    Holds (Has N states) (parseFlowValue follow after) (fun _ => Paid N r) fun _ _ => True := by
  refine Has.peek fun token k hk => ?_
  subst hk
  refine Holds.ite (fun _ => skipToken_has.bind fun _ => Has.peek fun next j hj => ?_) fun _ => setPure_lower hr hR hS
  exact Holds.ite (fun _ => setPure_paid (by omega) hR hS) fun _ => pushNode_paid (by omega) hR hS

theorem parseFlowSequenceEntryMappingEnd_paid (hS : Seated states) :
    Holds (Has N states) parseFlowSequenceEntryMappingEnd (fun _ => Paid N 1) fun _ _ => True := by
  refine Has.peek fun token k hk => ?_
  subst hk
  exact setPure_lower (by decide) trivial hS

theorem parseFlowMappingKey_paid {first : Bool} (hS : Seated states) :
    Holds (Has N states) (parseFlowMappingKey first) (fun _ => Paid N r) fun _ _ => True := by
  refine flowEntry_paid hS fun entry k hk => Holds.ite (fun _ => ?_) fun _ => ?_
  · refine skipToken_has.bind fun _ => Has.peek fun next j hj => ?_
    exact Holds.ite (fun _ => setPure_paid (by omega) trivial hS) fun _ => pushNode_paid (by omega) trivial hS
  · exact Holds.ite (fun _ => closeCollection_paid (by omega) hS) fun _ => pushNode_paid hk trivial hS

theorem parseFlowMappingValue_paid {empty : Bool} (hS : Seated states) :
    Holds (Has N states) (parseFlowMappingValue empty) (fun _ => Paid N 1) fun _ _ => True := by
  cases empty with
  | true =>
    refine Has.peek fun token k hk => ?_
    subst hk
    exact setPure_lower (by decide) trivial hS
  | false => exact parseFlowValue_paid (by decide) trivial hS

/-! ## Stream and documents -/

theorem appendTagDirective_has {value : TagDirective} {duplicates : Bool} {mark : Mark} :
    Holds (Has N states) (appendTagDirective value duplicates mark) (fun _ => Has N states) fun _ _ => True := by
  intro p hp
  unfold appendTagDirective
  split_ifs
  · exact hp
  · trivial
  · exact hp

theorem appendDefaultTagDirectives_has {mark : Mark} : ∀ {directives : List TagDirective},
    Holds (Has N states) (appendDefaultTagDirectives mark directives) (fun _ => Has N states) fun _ _ => True
  | [] => Holds.pure fun _ h => h
  | _ :: _ => appendTagDirective_has.bind fun _ => appendDefaultTagDirectives_has

theorem scanDirectives_has : ∀ {fuel : Nat} {version : Option VersionDirective} {directives : List TagDirective}
    {token : Token} {N : Nat}, Holds (Has N states) (scanDirectives fuel version directives token)
      (fun _ => Has N states) fun _ _ => True
  | 0, _, _, _, _ => ceases
  | fuel + 1, version, directives, token, N => by
    have hnext {version : Option VersionDirective} {directives : List TagDirective} :
        Holds (Has (N - 1) states) (do let next ← peekToken; scanDirectives fuel version directives next)
          (fun _ => Has N states) fun _ _ => True :=
      Has.peek fun _ _ _ => scanDirectives_has.weaken (fun _ h => h) (fun _ _ h => h.mono (by omega)) fun _ _ h => h
    unfold scanDirectives
    split
    · exact Holds.ite (fun _ => ceases) fun _ => Holds.ite (fun _ => ceases) fun _ => skipToken_has.bind fun _ => hnext
    · exact appendTagDirective_has.bind fun _ => skipToken_has.bind fun _ => hnext
    · exact Holds.pure fun _ h => h

theorem processDirectives_has {fuel : Nat} :
    Holds (Has N states) (processDirectives fuel) (fun _ => Has N states) fun _ _ => True :=
  peekThen (fun _ h => h.1) fun _ _ => scanDirectives_has.bind fun _ => appendDefaultTagDirectives_has.bind fun _ =>
    Holds.pure fun _ h => h

theorem skipDocumentEnds_has : ∀ {fuel : Nat} {token : Token} {N : Nat},
    Holds (Has N states) (skipDocumentEnds fuel token) (fun _ => Has N states) fun _ _ => True
  | 0, _, _ => ceases
  | fuel + 1, token, N => by
    unfold skipDocumentEnds
    refine Holds.ite (fun _ => skipToken_has.bind fun _ => Has.peek fun _ _ _ => ?_) fun _ => Holds.pure fun _ h => h
    exact skipDocumentEnds_has.weaken (fun _ h => h) (fun _ _ h => h.mono (by omega)) fun _ _ h => h

theorem parseStreamStart_paid (hS : Seated states) :
    Holds (Has N states) parseStreamStart (fun _ => Paid N r) fun _ _ => True := by
  refine Has.peek fun token k hk => ?_
  split
  · exact setSkip_paid (by omega) trivial hS
  · exact ceases

theorem parseDocumentStart_paid {fuel : Nat} {implicit : Bool} (hr : implicit = true → 2 ≤ r) (hS : Seated states) :
    Holds (Has N states) (parseDocumentStart fuel implicit) (fun _ => Paid N r) fun _ _ => True := by
  have hfirst {first : Token} : Holds (Has N states) (if implicit then pure first else skipDocumentEnds fuel first)
      (fun _ => Has N states) fun _ _ => True :=
    Holds.ite (fun _ => Holds.pure fun _ h => h) fun _ => skipDocumentEnds_has
  refine peekThen (fun _ h => h.1) fun first hN => hfirst.bind fun token => ?_
  refine Holds.ite (fun h => ?_) fun _ => Holds.ite (fun _ => ?_) fun _ => setSkip_paid (by omega) trivial hS
  · have hr := hr h.1
    exact processDirectives_has.bind fun _ => pushState_has.bind fun _ =>
      setPure_lower (show 1 < r by omega) trivial ⟨trivial, hS⟩
  · refine processDirectives_has.bind fun _ => Has.peek fun token k hk => Holds.ite (fun _ => ?_) fun _ => ceases
    exact pushState_has.bind fun _ => setSkip_paid (by omega) ⟨_, rfl⟩ ⟨trivial, hS⟩

theorem parseDocumentEnd_paid (hS : Seated states) :
    Holds (Has N states) parseDocumentEnd (fun _ => Paid N 1) fun _ _ => True := by
  have hreset {e : Event} : Holds (Has N states) (do
      modify fun p : Parser TokenList => { p with tagDirectives := [], state := .documentStart }
      pure e : ParseM TokenList Event) (fun _ => Paid N 1) fun _ _ => True := by
    rintro p ⟨hp, hs⟩
    refine ⟨.inr ⟨hp, (by decide : rank .documentStart < 1)⟩, trivial, ?_⟩
    rw [hs]
    exact hS
  refine peekThen (fun _ h => h.1) fun token hN => Holds.ite (fun _ => ?_) fun _ => hreset
  exact (skipToken_has.weaken (fun _ h => h) (fun _ _ h => h.mono (by omega)) fun _ _ h => h).bind fun _ => hreset

/-! ## The calls -/

theorem stateMachine_paid {fuel : Nat} : Holds (fun p : Parser TokenList => p.source.tokens.length = N
    ∧ Seated (p.state :: p.states) ∧ rank p.state = r) (stateMachine fuel) (fun _ => Paid N r) fun _ _ => True := by
  unfold stateMachine
  refine Holds.getThen fun p hp => ?_
  obtain ⟨hN, hS, hr⟩ := hp
  have hhas {x : ParseM TokenList Event} (hx : Holds (Has N p.states) x (fun _ => Paid N r) fun _ _ => True) :
      Holds (· = p) x (fun _ => Paid N r) fun _ _ => True := hx.each ⟨Nat.le_of_eq hN, rfl⟩
  have hnode {block : Bool} (h : 1 ≤ r) :
      Holds (· = p) (parseNode block false) (fun _ => Paid N r) fun _ _ => True :=
    hhas (parseNode_paid ⟨le_rfl, .inr h, hS.2, fun h => by cases h⟩)
  cases hs : p.state <;> rw [hs] at hr hS <;> subst hr
  case streamStart => exact hhas (parseStreamStart_paid hS.2)
  case implicitDocumentStart => exact hhas (parseDocumentStart_paid (fun _ => le_rfl) hS.2)
  case documentStart => exact hhas (parseDocumentStart_paid (fun h => by cases h) hS.2)
  case documentContent => exact hhas (parseDocumentContent_paid hS)
  case documentEnd => exact hhas (parseDocumentEnd_paid hS.2)
  case blockNode => exact hnode le_rfl
  case blockNodeOrIndentlessSequence => exact hS.1.elim
  case flowNode => exact hnode le_rfl
  case blockSequenceFirstEntry => exact hhas (parseBlockSequenceEntry_paid hS.2)
  case blockSequenceEntry => exact hhas (parseBlockSequenceEntry_paid hS.2)
  case indentlessSequenceEntry => exact hhas (parseIndentlessSequenceEntry_paid hS)
  case blockMappingFirstKey => exact hhas (parseBlockMappingKey_paid hS.2)
  case blockMappingKey => exact hhas (parseBlockMappingKey_paid hS.2)
  case blockMappingValue => exact hhas (parseBlockMappingValue_paid hS.2)
  case flowSequenceFirstEntry => exact hhas (parseFlowSequenceEntry_paid hS.2)
  case flowSequenceEntry => exact hhas (parseFlowSequenceEntry_paid hS.2)
  case flowSequenceEntryMappingKey => exact hhas (parseFlowSequenceEntryMappingKey_paid hS.2)
  case flowSequenceEntryMappingValue => exact hhas (parseFlowValue_paid (by decide) trivial hS.2)
  case flowSequenceEntryMappingEnd => exact hhas (parseFlowSequenceEntryMappingEnd_paid hS.2)
  case flowMappingFirstKey => exact hhas (parseFlowMappingKey_paid hS.2)
  case flowMappingKey => exact hhas (parseFlowMappingKey_paid hS.2)
  case flowMappingValue => exact hhas (parseFlowMappingValue_paid hS.2)
  case flowMappingEmptyValue => exact hhas (parseFlowMappingValue_paid hS.2)
  case «end» => exact Holds.throw fun _ _ => trivial

/-- What the tokens left may still pay for. -/
def budget (p : Parser TokenList) : Nat := 3 * p.source.tokens.length + rank p.state

theorem Paid.budget {p : Parser TokenList} (h : Paid N r p) : budget p < 3 * N + r := by
  have := rank_le p.state
  unfold Parser.budget
  rcases h.1 with h | h
  · omega
  · omega

end Nodes

section Runs

variable {fuel : Nat} {q : Parser TokenList}

theorem parse_paid {e : Event} {q' : Parser TokenList} (hS : Seated (q.state :: q.states)) (hs : ¬Stopped q)
    (hp : parse fuel q = .ok e q') : budget q' < budget q ∧ Seated (q'.state :: q'.states) := by
  have h := stateMachine_paid.ok ⟨rfl, hS, rfl⟩ (parse_eq_ok hs hp)
  exact ⟨h.budget, h.2⟩

/-- Events that are delivered one after another use up the budget. -/
theorem calls_paid : ∀ (n : Nat) {q : Parser TokenList}, Seated (q.state :: q.states) →
    (∀ x ∈ (calls fuel n q).1, ∃ e, x = .ok e ∧ e.type ≠ .noEvent) →
    n + budget (calls fuel n q).2 ≤ budget q ∧ Seated ((calls fuel n q).2.state :: (calls fuel n q).2.states)
  | 0, q, hS, _ => ⟨by rw [Nat.zero_add]; exact le_rfl, hS⟩
  | n + 1, q, hS, hx => by
    have hs : ¬Stopped q := fun hs => by
      rw [calls_stopped hs] at hx
      obtain ⟨e, he, hne⟩ := hx _ List.mem_cons_self
      cases he
      exact hne rfl
    cases hp : parse fuel q with
    | error f q' =>
      simp only [calls, hp] at hx
      obtain ⟨e, he, -⟩ := hx _ List.mem_cons_self
      cases he
    | ok e q' =>
      simp only [calls, hp] at hx ⊢
      obtain ⟨hlt, hS'⟩ := parse_paid hS hs hp
      obtain ⟨hle, hS''⟩ := calls_paid n hS' fun x hm => hx x (List.mem_cons_of_mem _ hm)
      exact ⟨by omega, hS''⟩

end Runs

end Parser

end LibYaml
