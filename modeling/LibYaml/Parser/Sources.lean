import LibYaml.Parser.EventOrder

/-!
# Where the tokens come from

The parser takes one token after another from its source, up to the end of the stream, and comes back
to none of them.  So it delivers the same events whether it reads from a source or from the list of
the tokens that the source hands over (`calls_listed`).
-/

namespace LibYaml

open Fallible EventGrammar

section Lists

variable {σ : Type} [TokenSource σ]

/-- What a source hands over: tokens up to the end of the stream, or up to a failure. -/
inductive Lists : σ → TokenList → Prop
  | failed {s t : σ} {problem : Problem} (h : TokenSource.peek s = .error (.reported problem) t) :
      Lists s ⟨[], problem⟩
  | ended {s t : σ} {token : Token} {problem : Problem} (h : TokenSource.peek s = .ok token t)
      (he : token.type = .streamEnd) : Lists s ⟨[token], problem⟩
  | more {s t : σ} {token : Token} {tokens : List Token} {problem : Problem}
      (h : TokenSource.peek s = .ok token t) (he : token.type ≠ .streamEnd)
      (hl : Lists (TokenSource.skip t) ⟨tokens, problem⟩) : Lists s ⟨token :: tokens, problem⟩

/-- A token that has been looked at stays at the head. -/
def Steady (σ : Type) [TokenSource σ] : Prop :=
  ∀ (s t : σ) (token : Token), TokenSource.peek s = .ok token t →
    TokenSource.peek t = .ok token t ∧ TokenSource.head t = some token

variable {s t : σ} {token : Token} {tokens : List Token} {problem : Problem}

theorem Lists.peek_nil (h : Lists s ⟨[], problem⟩) : ∃ t, TokenSource.peek s = .error (.reported problem) t := by
  cases h with
  | failed h => exact ⟨_, h⟩

theorem Lists.peek_cons (hσ : Steady σ) (h : Lists s ⟨token :: tokens, problem⟩) :
    ∃ t, TokenSource.peek s = .ok token t ∧ Lists t ⟨token :: tokens, problem⟩ := by
  cases h with
  | ended h he => exact ⟨_, h, .ended (hσ _ _ _ h).1 he⟩
  | more h he hl => exact ⟨_, h, .more (hσ _ _ _ h).1 he hl⟩

theorem Lists.skip (h : Lists s ⟨token :: tokens, problem⟩) (hs : TokenSource.peek s = .ok token s)
    (he : token.type ≠ .streamEnd) : Lists (TokenSource.skip s) ⟨tokens, problem⟩ := by
  cases h with
  | ended _ h => exact absurd h he
  | more h _ hl =>
    rw [hs] at h
    cases h
    exact hl

/-- What is said of a source and of what it has still to hand over, at every token. -/
structure Account (σ : Type) [TokenSource σ] where
  Rel : σ → TokenList → Prop
  peek : ∀ {s t : σ} {token : Token} {list : TokenList}, Rel s list → TokenSource.peek s = .ok token t → Rel t list
  skip : ∀ {s : σ} {token : Token} {tokens : List Token} {problem : Problem}, Rel s ⟨token :: tokens, problem⟩ →
    TokenSource.peek s = .ok token s → TokenSource.head s = some token → Rel (TokenSource.skip s) ⟨tokens, problem⟩

end Lists

namespace Parser

variable {σ τ : Type}

/-- The same parser over another source. -/
def onto (p : Parser σ) (source : τ) : Parser τ :=
  { source := source, error := p.error, streamEndProduced := p.streamEndProduced, states := p.states
    state := p.state, marks := p.marks, tagDirectives := p.tagDirectives }

/-- The states that find the token that opens a collection still there. -/
def opens : ParserState → Bool
  | .blockSequenceFirstEntry | .blockMappingFirstKey | .flowSequenceFirstEntry | .flowMappingFirstKey => true
  | _ => false

/-- The states that a collection returns to. -/
def inner : ParserState → Bool
  | .blockSequenceFirstEntry | .blockMappingFirstKey | .flowSequenceFirstEntry | .flowMappingFirstKey | .end => false
  | _ => true

theorem inner_spec {s : ParserState} (h : inner s = true) : opens s = false ∧ s ≠ .end := by
  cases s <;> first | exact ⟨rfl, ParserState.noConfusion⟩ | cases h

/-- The stream does not end at the next token. -/
def Continues (list : TokenList) : Prop := ∀ token ∈ list.tokens.head?, token.type ≠ .streamEnd

section Source

variable [TokenSource σ]

/-- A parser reads from a source what another reads from a list. -/
structure Reads (A : Account σ) (S : ParserState → Prop) (p : Parser σ) (q : Parser TokenList) : Prop where
  onto : q = p.onto q.source
  lists : Lists p.source q.source
  account : A.Rel p.source q.source
  states : ∀ s ∈ p.states, inner s = true
  fresh : p.error = none
  unended : p.streamEndProduced = false
  state : S p.state

/-- Both have the same token at hand. -/
structure AtHand (A : Account σ) (S : ParserState → Prop) (token : Token) (p : Parser σ) (q : Parser TokenList) : Prop
    extends Reads A S p q where
  here : TokenSource.peek p.source = .ok token p.source
  head : TokenSource.head p.source = some token
  front : ∃ tokens, q.source.tokens = token :: tokens

/-- The end of the stream was the last token that was to come. -/
def Closes (A : Account σ) : Prop := ∃ s token problem, token.type = .streamEnd ∧ A.Rel s ⟨[token], problem⟩

/-- After a call the stream is over, or both go on. -/
structure Delivered (A : Account σ) (e : Event) (p : Parser σ) (q : Parser TokenList) : Prop where
  onto : q = p.onto q.source
  account : A.Rel p.source q.source
  states : ∀ s ∈ p.states, inner s = true
  fresh : p.error = none
  rest : e.type = .streamEnd ∧ p.state = .end ∧ p.streamEndProduced = true ∧ Closes A
    ∨ p.streamEndProduced = false ∧ p.state ≠ .end ∧ Lists p.source q.source ∧ (opens p.state = true → Continues q.source)

/-- After a failure. -/
def Ceased (_ : Fault) (p : Parser σ) (q : Parser TokenList) : Prop := q = p.onto q.source ∧ p.streamEndProduced = false

variable {A : Account σ} {S S' : ParserState → Prop} {token : Token} {p : Parser σ} {q : Parser TokenList} {s : ParserState}
  {e : Event}

theorem Reads.imp (h : Reads A S p q) (hS : ∀ s, S s → S' s) : Reads A S' p q :=
  ⟨h.onto, h.lists, h.account, h.states, h.fresh, h.unended, hS _ h.state⟩

theorem AtHand.imp (h : AtHand A S token p q) (hS : ∀ s, S s → S' s) : AtHand A S' token p q :=
  ⟨h.toReads.imp hS, h.here, h.head, h.front⟩

theorem AtHand.continues (h : AtHand A S token p q) (ht : token.type ≠ .streamEnd) : Continues q.source := by
  obtain ⟨tokens, hq⟩ := h.front
  intro token' hm
  rw [hq] at hm
  cases hm
  exact ht

theorem Reads.delivered (h : Reads A S p q) (hS : ∀ s, S s → inner s = true) : Delivered A e p q := by
  obtain ⟨hopens, hend⟩ := inner_spec (hS _ h.state)
  refine ⟨h.onto, h.account, h.states, h.fresh, .inr ⟨h.unended, hend, h.lists, fun ho => ?_⟩⟩
  rw [hopens] at ho
  cases ho

theorem AtHand.delivered (h : AtHand A S token p q) (hS : ∀ s, S s → s ≠ .end) (ht : token.type ≠ .streamEnd) :
    Delivered A e p q :=
  ⟨h.onto, h.account, h.states, h.fresh, .inr ⟨h.unended, hS _ h.state, h.lists, fun _ => h.continues ht⟩⟩

/-! ## The steps -/

theorem peekToken_reads (hσ : Steady σ) : Sim (Reads A S) peekToken peekToken (fun token => AtHand A S token) Ceased := by
  intro p q h
  rw [peekToken_list]
  unfold peekToken
  have hq := h.onto
  have hlists := h.lists
  rcases htokens : q.source with ⟨_ | ⟨token, tokens⟩, problem⟩
  · rw [htokens] at hlists
    obtain ⟨t, ht⟩ := hlists.peek_nil
    rw [ht]
    exact ⟨rfl, by rw [hq]; rfl, h.unended⟩
  · rw [htokens] at hlists
    obtain ⟨t, ht, hl⟩ := hlists.peek_cons hσ
    rw [ht]
    obtain ⟨hpeek, hhead⟩ := hσ _ _ _ ht
    refine ⟨rfl, ⟨by rw [hq]; rfl, ?_, ?_, h.states, h.fresh, h.unended, h.state⟩, hpeek, hhead, ⟨tokens, by rw [htokens]⟩⟩
    · rwa [htokens]
    · exact A.peek h.account ht

/-- What holds behind a token, even if it is the last. -/
theorem skipToken_past : Sim (AtHand A S token) skipToken skipToken
    (fun _ p q => q = p.onto q.source ∧ A.Rel p.source q.source ∧ (∀ s ∈ p.states, inner s = true) ∧ p.error = none
      ∧ S p.state ∧ p.streamEndProduced = decide (token.type = .streamEnd)
      ∧ (token.type ≠ .streamEnd → Lists p.source q.source) ∧ (token.type = .streamEnd → Closes A)) Ceased := by
  intro p q h
  obtain ⟨tokens, hfront⟩ := h.front
  obtain ⟨⟨tokens', problem⟩, hq⟩ : ∃ list, q = p.onto list := ⟨_, h.onto⟩
  have hlists := h.lists
  have haccount := h.account
  subst hq
  cases hfront
  refine ⟨rfl, ?_, A.skip haccount h.here h.head, h.states, h.fresh, h.state, ?_, fun ht => hlists.skip h.here ht,
    fun ht => ?_⟩
  · dsimp only
    rw [h.head]
    rfl
  · dsimp only
    rw [h.head]
    rfl
  · cases hlists with
    | ended _ _ => exact ⟨_, _, _, ht, haccount⟩
    | more hs hne _ =>
      rw [h.here] at hs
      cases hs
      exact absurd ht hne

theorem skipToken_reads (ht : token.type ≠ .streamEnd) :
    Sim (AtHand A S token) skipToken skipToken (fun _ => Reads A S) Ceased :=
  skipToken_past.into fun _ _ _ ⟨honto, haccount, hstates, hfresh, hstate, hended, hlists, _⟩ =>
    ⟨honto, hlists ht, haccount, hstates, hfresh, hended.trans (decide_eq_false ht), hstate⟩

theorem setState_reads : Sim (Reads A S) (setState s) (setState s) (fun _ => Reads A (· = s)) Ceased := by
  intro p q h
  refine ⟨rfl, ?_, h.lists, h.account, h.states, h.fresh, h.unended, rfl⟩
  have := h.onto
  rw [this]
  rfl

theorem setState_atHand : Sim (AtHand A S token) (setState s) (setState s) (fun _ => AtHand A (· = s) token) Ceased := by
  intro p q h
  refine ⟨rfl, (setState_reads p q h.toReads).2, h.here, h.head, h.front⟩

theorem pushState_reads (hs : inner s = true) :
    Sim (Reads A S) (pushState s) (pushState s) (fun _ => Reads A S) Ceased := by
  intro p q h
  refine ⟨rfl, ?_, h.lists, h.account, fun s' hs' => ?_, h.fresh, h.unended, h.state⟩
  · have := h.onto
    rw [this]
    rfl
  · rcases List.mem_cons.mp hs' with rfl | hs'
    · exact hs
    · exact h.states s' hs'

theorem pushState_atHand (hs : inner s = true) :
    Sim (AtHand A S token) (pushState s) (pushState s) (fun _ => AtHand A S token) Ceased :=
  fun p q h => ⟨rfl, (pushState_reads hs p q h.toReads).2, h.here, h.head, h.front⟩

theorem pushMark_atHand {mark : Mark} :
    Sim (AtHand A S token) (pushMark mark) (pushMark mark) (fun _ => AtHand A S token) Ceased := by
  intro p q h
  refine ⟨rfl, ⟨?_, h.lists, h.account, h.states, h.fresh, h.unended, h.state⟩, h.here, h.head, h.front⟩
  have := h.onto
  rw [this]
  rfl

theorem popState_reads : Sim (Reads A S) popState popState (fun _ => Reads A (inner · = true)) Ceased := by
  intro p q h
  have hq := h.onto
  have hstates : q.states = p.states := by rw [hq]; rfl
  unfold popState
  rw [hstates]
  cases hp : p.states with
  | nil => exact ⟨rfl, hq, h.unended⟩
  | cons s rest =>
    have hnot := h.states
    rw [hp] at hnot
    refine ⟨rfl, by rw [hq]; rfl, h.lists, h.account, fun s' hs' => hnot s' (List.mem_cons_of_mem _ hs'), h.fresh,
      h.unended, ?_⟩
    exact hnot s List.mem_cons_self

theorem popState_atHand : Sim (AtHand A S token) popState popState (fun _ => AtHand A (inner · = true) token) Ceased := by
  intro p q h
  have hpop := popState_reads p q h.toReads
  have hstates : q.states = p.states := by rw [h.onto]; rfl
  unfold popState at hpop ⊢
  rw [hstates] at hpop ⊢
  cases hp : p.states with
  | nil => exact ⟨rfl, h.onto, h.unended⟩
  | cons s rest =>
    rw [hp] at hpop
    exact ⟨rfl, hpop.2, h.here, h.head, h.front⟩

theorem popMark_atHand : Sim (AtHand A S token) popMark popMark (fun _ => AtHand A S token) Ceased := by
  intro p q h
  have hq := h.onto
  have hmarks : q.marks = p.marks := by rw [hq]; rfl
  unfold popMark
  rw [hmarks]
  cases p.marks with
  | nil => exact ⟨rfl, hq, h.unended⟩
  | cons m rest => exact ⟨rfl, ⟨by rw [hq]; rfl, h.lists, h.account, h.states, h.fresh, h.unended, h.state⟩, h.here, h.head, h.front⟩

theorem refuse {α : Type} {Q : α → Parser σ → Parser TokenList → Prop} {f : Fault} :
    Sim (Reads A S) (throw f) (throw f) Q Ceased :=
  Fallible.Sim.throw fun _ _ h => ⟨h.onto, h.unended⟩

theorem appendTagDirective_atHand {value : TagDirective} {duplicates : Bool} {mark : Mark} :
    Sim (AtHand A S token) (appendTagDirective value duplicates mark) (appendTagDirective value duplicates mark)
      (fun _ => AtHand A S token) Ceased := by
  intro p q h
  have hq := h.onto
  have hdirectives : q.tagDirectives = p.tagDirectives := by rw [hq]; rfl
  unfold appendTagDirective
  rw [hdirectives]
  split_ifs
  · exact ⟨rfl, h⟩
  · exact ⟨rfl, hq, h.unended⟩
  · exact ⟨rfl, ⟨by rw [hq]; rfl, h.lists, h.account, h.states, h.fresh, h.unended, h.state⟩, h.here, h.head, h.front⟩

section Steps

variable {next : Token}

theorem AtHand.or (h : AtHand A S token p q) (hS : ∀ s, S s → inner s = true) : Delivered A e p q :=
  h.toReads.delivered hS

/-- Behind a token. -/
theorem skipNext {f : Token → ParseM σ Event} {g : Token → ParseM TokenList Event} (hσ : Steady σ)
    (ht : token.type ≠ .streamEnd) (h : ∀ next, Sim (AtHand A S next) (f next) (g next) (Delivered A) Ceased) :
    Sim (AtHand A S token) (do skipToken; let next ← peekToken; f next) (do skipToken; let next ← peekToken; g next)
      (Delivered A) Ceased :=
  (skipToken_reads ht).bind fun _ => (peekToken_reads hσ).bind h

/-- A state is left and the token is passed. -/
theorem popSkip (ht : token.type ≠ .streamEnd) : Sim (AtHand A S token) (do popState; skipToken; pure e)
    (do popState; skipToken; pure e) (Delivered A) Ceased :=
  popState_atHand.bind fun _ => (skipToken_reads ht).bind fun _ => Fallible.Sim.pure fun _ _ h => h.delivered fun _ h => h

theorem popPure : Sim (AtHand A S token) (do popState; pure e) (do popState; pure e) (Delivered A) Ceased :=
  popState_atHand.bind fun _ => Fallible.Sim.pure fun _ _ h => h.or fun _ h => h

theorem setPure (hs : inner s = true) : Sim (AtHand A S token) (do setState s; pure e) (do setState s; pure e)
    (Delivered A) Ceased :=
  setState_atHand.bind fun _ => Fallible.Sim.pure fun _ _ h => h.or fun _ h => h ▸ hs

/-- A collection is opened at its token. -/
theorem setOpens (hs : opens s = true) (ht : token.type ≠ .streamEnd) : Sim (AtHand A S token) (do setState s; pure e)
    (do setState s; pure e) (Delivered A) Ceased :=
  setState_atHand.bind fun _ => Fallible.Sim.pure fun _ _ h =>
    h.delivered (fun s' he hend => by rw [← he, hend] at hs; cases hs) ht

end Steps

/-! ## Nodes -/

theorem type_ne {data : TokenData} (h : token.data = data) (hd : data.type ≠ .streamEnd) : token.type ≠ .streamEnd := by
  rw [Token.type, h]
  exact hd

theorem resolveTag_atHand {props : Properties} :
    Sim (AtHand A S token) (resolveTag props) (resolveTag props) (fun _ => AtHand A S token) Ceased := by
  intro p q h
  have hq := h.onto
  have hdirectives : q.tagDirectives = p.tagDirectives := by rw [hq]; rfl
  unfold resolveTag
  rw [hdirectives]
  rcases props.tag with _ | ⟨handle, suffix⟩
  · exact ⟨rfl, h⟩
  · by_cases hh : cstr handle = []
    · simp only [hh, if_true]
      exact ⟨trivial, h⟩
    · simp only [hh, if_false]
      cases p.tagDirectives.find? (fun d => cstr d.handle = cstr handle) with
      | some d => exact ⟨rfl, h⟩
      | none => exact ⟨rfl, hq, h.unended⟩

theorem parseProperties_atHand (hσ : Steady σ) : Sim (AtHand A S token) (parseProperties token) (parseProperties token)
    (fun props => AtHand A S props.token) Ceased := by
  unfold parseProperties
  split
  · rename_i value hdata
    refine (skipToken_reads (type_ne hdata TokenType.noConfusion)).bind fun _ => (peekToken_reads hσ).bind fun next => ?_
    split
    · rename_i handle suffix hnext
      exact (skipToken_reads (type_ne hnext TokenType.noConfusion)).bind fun _ => (peekToken_reads hσ).bind fun _ =>
        Fallible.Sim.pure fun _ _ h => h
    · exact Fallible.Sim.pure fun _ _ h => h
  · rename_i handle suffix hdata
    refine (skipToken_reads (type_ne hdata TokenType.noConfusion)).bind fun _ => (peekToken_reads hσ).bind fun next => ?_
    split
    · rename_i value hnext
      exact (skipToken_reads (type_ne hnext TokenType.noConfusion)).bind fun _ => (peekToken_reads hσ).bind fun _ =>
        Fallible.Sim.pure fun _ _ h => h
    · exact Fallible.Sim.pure fun _ _ h => h
  · exact Fallible.Sim.pure fun _ _ h => h

theorem parseContent_delivered {block indentless : Bool} {props : Properties} {tag : Option Bytes} :
    Sim (AtHand A S props.token) (parseContent block indentless props tag) (parseContent block indentless props tag)
      (Delivered A) Ceased := by
  unfold parseContent
  simp only []
  refine Fallible.Sim.ite (fun _ => setPure rfl) fun _ => ?_
  split
  · rename_i hdata
    exact popSkip (type_ne hdata TokenType.noConfusion)
  · rename_i hdata
    exact setOpens rfl (type_ne hdata TokenType.noConfusion)
  · rename_i hdata
    exact setOpens rfl (type_ne hdata TokenType.noConfusion)
  · refine Fallible.Sim.ite (fun h => setOpens rfl (type_ne h.2 TokenType.noConfusion)) fun _ => ?_
    refine Fallible.Sim.ite (fun h => setOpens rfl (type_ne h.2 TokenType.noConfusion)) fun _ => ?_
    exact Fallible.Sim.ite (fun _ => popPure) fun _ => refuse.of fun _ _ h => h.toReads

theorem parseNode_delivered (hσ : Steady σ) {block indentless : Bool} :
    Sim (Reads A S) (parseNode block indentless) (parseNode block indentless) (Delivered A) Ceased := by
  unfold parseNode
  refine (peekToken_reads hσ).bind fun token => ?_
  split
  · rename_i hdata
    exact popSkip (type_ne hdata TokenType.noConfusion)
  · exact (parseProperties_atHand hσ).bind fun props => resolveTag_atHand.bind fun tag => parseContent_delivered

theorem pushNode (hσ : Steady σ) {block indentless : Bool} (hs : inner s = true) :
    Sim (Reads A S) (do pushState s; parseNode block indentless) (do pushState s; parseNode block indentless)
      (Delivered A) Ceased :=
  (pushState_reads hs).bind fun _ => parseNode_delivered hσ

theorem parseDocumentContent_delivered (hσ : Steady σ) :
    Sim (Reads A S) parseDocumentContent parseDocumentContent (Delivered A) Ceased := by
  refine (peekToken_reads hσ).bind fun token => Fallible.Sim.ite (fun _ => popPure) fun _ => ?_
  exact (parseNode_delivered hσ).of fun _ _ h => h.toReads

/-! ## Collections -/

/-- The token that opens a collection. -/
theorem peekToken_continues (hσ : Steady σ) : Sim (fun p q => Reads A S p q ∧ Continues q.source) peekToken peekToken
    (fun token p q => AtHand A S token p q ∧ token.type ≠ .streamEnd) Ceased := by
  rintro p q ⟨h, hc⟩
  have hpeek := peekToken_reads hσ p q h
  cases hp : peekToken p <;> cases hq : peekToken q <;> rw [hp, hq] at hpeek <;> try exact hpeek.elim
  · obtain ⟨rfl, hat⟩ := hpeek
    refine ⟨rfl, hat, hc _ ?_⟩
    rw [peekToken_list] at hq
    rcases htokens : q.source.tokens with _ | ⟨token, tokens⟩ <;> rw [htokens] at hq <;> cases hq
    rfl
  · exact hpeek

theorem openCollection_reads (hσ : Steady σ) {first : Bool} :
    Sim (fun p q => Reads A S p q ∧ (first = true → Continues q.source)) (openCollection first) (openCollection first)
      (fun _ => Reads A S) Ceased := by
  cases first with
  | true =>
    refine Fallible.Sim.of (A := fun p q => Reads A S p q ∧ Continues q.source) ?_ fun _ _ h => ⟨h.1, h.2 rfl⟩
    refine (peekToken_continues hσ).bind fun token => Fallible.Sim.each fun p q h => ?_
    refine (pushMark_atHand.bind fun _ => skipToken_reads h.2).of ?_
    rintro _ _ ⟨rfl, rfl⟩
    exact h.1
  | false => exact Fallible.Sim.pure fun _ _ h => h.1

theorem closeCollection_delivered {data : EventData} (ht : token.type ≠ .streamEnd) :
    Sim (AtHand A S token) (closeCollection token data) (closeCollection token data) (Delivered A) Ceased :=
  popState_atHand.bind fun _ => popMark_atHand.bind fun _ => (skipToken_reads ht).bind fun _ =>
    Fallible.Sim.pure fun _ _ h => h.delivered fun _ h => h

theorem failCollection_delivered {context problem : String} :
    Sim (AtHand A S token) (failCollection context problem token) (failCollection context problem token)
      (Delivered A) Ceased :=
  popMark_atHand.bind fun _ => refuse.of fun _ _ h => h.toReads

theorem ne_of_type {type : TokenType} (h : token.type = type) (ht : type ≠ .streamEnd) : token.type ≠ .streamEnd := h ▸ ht

theorem parseOptionalNode_delivered (hσ : Steady σ) {follow : List TokenType} {after : ParserState} {block indentless : Bool}
    (ht : token.type ≠ .streamEnd) (hs : inner after = true) :
    Sim (AtHand A S token) (parseOptionalNode token follow after block indentless)
      (parseOptionalNode token follow after block indentless) (Delivered A) Ceased :=
  skipNext hσ ht fun _ => Fallible.Sim.ite (fun _ => setPure hs) fun _ => (pushNode hσ hs).of fun _ _ h => h.toReads

theorem parseBlockSequenceEntry_delivered (hσ : Steady σ) {first : Bool} :
    Sim (fun p q => Reads A S p q ∧ (first = true → Continues q.source)) (parseBlockSequenceEntry first)
      (parseBlockSequenceEntry first) (Delivered A) Ceased := by
  refine (openCollection_reads hσ).bind fun _ => (peekToken_reads hσ).bind fun token => ?_
  refine Fallible.Sim.ite (fun h => parseOptionalNode_delivered hσ (ne_of_type h (by decide)) rfl) fun _ => ?_
  exact Fallible.Sim.ite (fun h => closeCollection_delivered (ne_of_type h (by decide))) fun _ => failCollection_delivered

theorem parseIndentlessSequenceEntry_delivered (hσ : Steady σ) :
    Sim (Reads A S) parseIndentlessSequenceEntry parseIndentlessSequenceEntry (Delivered A) Ceased :=
  (peekToken_reads hσ).bind fun _ =>
    Fallible.Sim.ite (fun h => parseOptionalNode_delivered hσ (ne_of_type h (by decide)) rfl) fun _ => popPure

theorem parseBlockMappingKey_delivered (hσ : Steady σ) {first : Bool} :
    Sim (fun p q => Reads A S p q ∧ (first = true → Continues q.source)) (parseBlockMappingKey first)
      (parseBlockMappingKey first) (Delivered A) Ceased := by
  refine (openCollection_reads hσ).bind fun _ => (peekToken_reads hσ).bind fun token => ?_
  refine Fallible.Sim.ite (fun h => parseOptionalNode_delivered hσ (ne_of_type h (by decide)) rfl) fun _ => ?_
  exact Fallible.Sim.ite (fun h => closeCollection_delivered (ne_of_type h (by decide))) fun _ => failCollection_delivered

theorem parseBlockMappingValue_delivered (hσ : Steady σ) :
    Sim (Reads A S) parseBlockMappingValue parseBlockMappingValue (Delivered A) Ceased :=
  (peekToken_reads hσ).bind fun _ =>
    Fallible.Sim.ite (fun h => parseOptionalNode_delivered hσ (ne_of_type h (by decide)) rfl) fun _ => setPure rfl

theorem flowSeparator_atHand (hσ : Steady σ) {first : Bool} {context problem : String} :
    Sim (AtHand A S token) (flowSeparator first context problem token) (flowSeparator first context problem token)
      (fun entry => AtHand A S entry) Ceased := by
  unfold flowSeparator
  refine Fallible.Sim.ite (fun _ => Fallible.Sim.pure fun _ _ h => h) fun _ => Fallible.Sim.ite (fun h => ?_) fun _ => ?_
  · exact (skipToken_reads (ne_of_type h (by decide))).bind fun _ => peekToken_reads hσ
  · exact popMark_atHand.bind fun _ => refuse.of fun _ _ h => h.toReads

theorem parseFlowSequenceEntry_delivered (hσ : Steady σ) {first : Bool} :
    Sim (fun p q => Reads A S p q ∧ (first = true → Continues q.source)) (parseFlowSequenceEntry first)
      (parseFlowSequenceEntry first) (Delivered A) Ceased := by
  refine (openCollection_reads hσ).bind fun _ => (peekToken_reads hσ).bind fun token => ?_
  refine Fallible.Sim.ite (fun h => closeCollection_delivered (ne_of_type h (by decide))) fun _ => ?_
  refine (flowSeparator_atHand hσ).bind fun entry => Fallible.Sim.ite (fun h => ?_) fun _ => ?_
  · exact setState_atHand.bind fun _ => (skipToken_reads (ne_of_type h (by decide))).bind fun _ =>
      Fallible.Sim.pure fun _ _ h => h.delivered fun _ h => h ▸ rfl
  · refine Fallible.Sim.ite (fun h => closeCollection_delivered (ne_of_type h (by decide))) fun _ => ?_
    exact (pushNode hσ rfl).of fun _ _ h => h.toReads

theorem parseFlowSequenceEntryMappingKey_delivered (hσ : Steady σ) :
    Sim (Reads A S) parseFlowSequenceEntryMappingKey parseFlowSequenceEntryMappingKey (Delivered A) Ceased := by
  refine (peekToken_reads hσ).bind fun token => Fallible.Sim.ite (fun _ => ?_) fun h => ?_
  · exact (pushNode hσ rfl).of fun _ _ h => h.toReads
  · have ht : token.type ≠ .streamEnd := fun he => h (by rw [he]; decide)
    exact (skipToken_reads ht).bind fun _ => setState_reads.bind fun _ =>
      Fallible.Sim.pure fun _ _ h => h.delivered fun _ h => h ▸ rfl

theorem parseFlowValue_delivered (hσ : Steady σ) {follow : List TokenType} {after : ParserState} (hs : inner after = true) :
    Sim (Reads A S) (parseFlowValue follow after) (parseFlowValue follow after) (Delivered A) Ceased := by
  refine (peekToken_reads hσ).bind fun token => Fallible.Sim.ite (fun h => ?_) fun _ => setPure hs
  exact skipNext hσ (ne_of_type h (by decide)) fun _ => Fallible.Sim.ite (fun _ => setPure hs) fun _ =>
    (pushNode hσ hs).of fun _ _ h => h.toReads

theorem parseFlowSequenceEntryMappingEnd_delivered (hσ : Steady σ) :
    Sim (Reads A S) parseFlowSequenceEntryMappingEnd parseFlowSequenceEntryMappingEnd (Delivered A) Ceased :=
  (peekToken_reads hσ).bind fun _ => setPure rfl

theorem parseFlowMappingKey_delivered (hσ : Steady σ) {first : Bool} :
    Sim (fun p q => Reads A S p q ∧ (first = true → Continues q.source)) (parseFlowMappingKey first)
      (parseFlowMappingKey first) (Delivered A) Ceased := by
  refine (openCollection_reads hσ).bind fun _ => (peekToken_reads hσ).bind fun token => ?_
  refine Fallible.Sim.ite (fun h => closeCollection_delivered (ne_of_type h (by decide))) fun _ => ?_
  refine (flowSeparator_atHand hσ).bind fun entry => Fallible.Sim.ite (fun h => ?_) fun _ => ?_
  · exact skipNext hσ (ne_of_type h (by decide)) fun _ => Fallible.Sim.ite (fun _ => setPure rfl) fun _ =>
      (pushNode hσ rfl).of fun _ _ h => h.toReads
  · refine Fallible.Sim.ite (fun h => closeCollection_delivered (ne_of_type h (by decide))) fun _ => ?_
    exact (pushNode hσ rfl).of fun _ _ h => h.toReads

theorem parseFlowMappingValue_delivered (hσ : Steady σ) {empty : Bool} :
    Sim (Reads A S) (parseFlowMappingValue empty) (parseFlowMappingValue empty) (Delivered A) Ceased := by
  cases empty with
  | true => exact (peekToken_reads hσ).bind fun _ => setPure rfl
  | false => exact parseFlowValue_delivered hσ rfl

/-! ## Stream and documents -/

theorem appendDefaultTagDirectives_atHand {mark : Mark} : ∀ {directives : List TagDirective},
    Sim (AtHand A S token) (appendDefaultTagDirectives mark directives) (appendDefaultTagDirectives mark directives)
      (fun _ => AtHand A S token) Ceased
  | [] => Fallible.Sim.pure fun _ _ h => h
  | _ :: _ => appendTagDirective_atHand.bind fun _ => appendDefaultTagDirectives_atHand

theorem scanDirectives_reads (hσ : Steady σ) : ∀ {fuel : Nat} {version : Option VersionDirective}
    {directives : List TagDirective} {token : Token}, Sim (AtHand A S token) (scanDirectives fuel version directives token)
      (scanDirectives fuel version directives token) (fun result => AtHand A S result.2.2) Ceased
  | 0, _, _, _ => refuse.of fun _ _ h => h.toReads
  | fuel + 1, version, directives, token => by
    unfold scanDirectives
    split
    · rename_i hdata
      refine Fallible.Sim.ite (fun _ => refuse.of fun _ _ h => h.toReads) fun _ => ?_
      refine Fallible.Sim.ite (fun _ => refuse.of fun _ _ h => h.toReads) fun _ => ?_
      exact (skipToken_reads (type_ne hdata TokenType.noConfusion)).bind fun _ => (peekToken_reads hσ).bind fun _ =>
        scanDirectives_reads hσ
    · rename_i hdata
      exact appendTagDirective_atHand.bind fun _ => (skipToken_reads (type_ne hdata TokenType.noConfusion)).bind fun _ =>
        (peekToken_reads hσ).bind fun _ => scanDirectives_reads hσ
    · exact Fallible.Sim.pure fun _ _ h => h

theorem processDirectives_reads (hσ : Steady σ) {fuel : Nat} :
    Sim (Reads A S) (processDirectives fuel) (processDirectives fuel) (fun _ => Reads A S) Ceased :=
  (peekToken_reads hσ).bind fun _ => (scanDirectives_reads hσ).bind fun _ => appendDefaultTagDirectives_atHand.bind fun _ =>
    Fallible.Sim.pure fun _ _ h => h.toReads

theorem parseStreamStart_delivered (hσ : Steady σ) :
    Sim (Reads A S) parseStreamStart parseStreamStart (Delivered A) Ceased := by
  refine (peekToken_reads hσ).bind fun token => ?_
  split
  · rename_i hdata
    exact setState_atHand.bind fun _ => (skipToken_reads (type_ne hdata TokenType.noConfusion)).bind fun _ =>
      Fallible.Sim.pure fun _ _ h => h.delivered fun _ h => h ▸ rfl
  · exact refuse.of fun _ _ h => h.toReads

theorem skipDocumentEnds_atHand (hσ : Steady σ) : ∀ {fuel : Nat} {token : Token},
    Sim (AtHand A S token) (skipDocumentEnds fuel token) (skipDocumentEnds fuel token)
      (fun next => AtHand A S next) Ceased
  | 0, _ => refuse.of fun _ _ h => h.toReads
  | fuel + 1, token => by
    unfold skipDocumentEnds
    refine Fallible.Sim.ite (fun h => ?_) fun _ => Fallible.Sim.pure fun _ _ h => h
    exact (skipToken_reads (ne_of_type h (by decide))).bind fun _ => (peekToken_reads hσ).bind fun _ =>
      skipDocumentEnds_atHand hσ

theorem parseImplicitDocumentStart_delivered (hσ : Steady σ) {fuel : Nat} :
    Sim (Reads A S) (parseImplicitDocumentStart fuel token) (parseImplicitDocumentStart fuel token)
      (Delivered A) Ceased :=
  (processDirectives_reads hσ).bind fun _ => (pushState_reads rfl).bind fun _ => setState_reads.bind fun _ =>
    Fallible.Sim.pure fun _ _ h => h.delivered fun _ h => h ▸ rfl

theorem parseExplicitDocumentStart_delivered (hσ : Steady σ) {fuel : Nat} :
    Sim (Reads A S) (parseExplicitDocumentStart fuel token) (parseExplicitDocumentStart fuel token)
      (Delivered A) Ceased := by
  refine (processDirectives_reads hσ).bind fun _ => (peekToken_reads hσ).bind fun token => ?_
  refine Fallible.Sim.ite (fun h => ?_) fun _ => refuse.of fun _ _ h => h.toReads
  exact (pushState_atHand rfl).bind fun _ => setState_atHand.bind fun _ =>
    (skipToken_reads (ne_of_type h (by decide))).bind fun _ => Fallible.Sim.pure fun _ _ h => h.delivered fun _ h => h ▸ rfl

/-- Behind the end of the stream the two need not go on together. -/
theorem parseStreamEnd_delivered (ht : token.type = .streamEnd) :
    Sim (AtHand A S token) (parseStreamEnd token) (parseStreamEnd token) (Delivered A) Ceased :=
  setState_atHand.bind fun _ => skipToken_past.bind fun _ =>
    Fallible.Sim.pure fun _ _ ⟨honto, haccount, hstates, hfresh, hstate, hended, _, hcloses⟩ =>
      ⟨honto, haccount, hstates, hfresh, .inl ⟨rfl, hstate, hended.trans (decide_eq_true ht), hcloses ht⟩⟩

theorem parseDocumentStart_delivered (hσ : Steady σ) {fuel : Nat} {implicit : Bool} :
    Sim (Reads A S) (parseDocumentStart fuel implicit) (parseDocumentStart fuel implicit) (Delivered A) Ceased := by
  have hfirst {first : Token} : Sim (AtHand A S first) (if implicit then pure first else skipDocumentEnds fuel first)
      (if implicit then pure first else skipDocumentEnds fuel first) (fun token => AtHand A S token) Ceased :=
    Fallible.Sim.ite (fun _ => Fallible.Sim.pure fun _ _ h => h) fun _ => skipDocumentEnds_atHand hσ
  refine (peekToken_reads hσ).bind fun first => hfirst.bind fun token => ?_
  refine Fallible.Sim.ite (fun _ => ?_) fun _ => Fallible.Sim.ite (fun _ => ?_) fun ht => parseStreamEnd_delivered (not_not.mp ht)
  · exact (parseImplicitDocumentStart_delivered hσ).of fun _ _ h => h.toReads
  · exact (parseExplicitDocumentStart_delivered hσ).of fun _ _ h => h.toReads

theorem parseDocumentEnd_delivered (hσ : Steady σ) :
    Sim (Reads A S) parseDocumentEnd parseDocumentEnd (Delivered A) Ceased := by
  have hreset : Sim (Reads A S) (modify fun p => { p with tagDirectives := [], state := .documentStart })
      (modify fun p => { p with tagDirectives := [], state := .documentStart }) (fun _ => Reads A (· = .documentStart))
      Ceased := by
    intro p q h
    refine ⟨rfl, ?_, h.lists, h.account, h.states, h.fresh, h.unended, rfl⟩
    have := h.onto
    rw [this]
    rfl
  refine (peekToken_reads hσ).bind fun token => Fallible.Sim.ite (fun h => ?_) fun _ => ?_
  · exact (skipToken_reads (ne_of_type h (by decide))).bind fun _ => hreset.bind fun _ =>
      Fallible.Sim.pure fun _ _ h => h.delivered fun _ h => h ▸ rfl
  · exact (hreset.of fun _ _ h => h.toReads).bind fun _ =>
      Fallible.Sim.pure fun _ _ h => h.delivered fun _ h => h ▸ rfl

/-! ## The calls -/

/-- Two parsers between two calls. -/
def Ready (A : Account σ) (p : Parser σ) (q : Parser TokenList) : Prop :=
  Reads A (fun _ => True) p q ∧ (opens p.state = true → Continues q.source)

theorem stateMachine_delivered (hσ : Steady σ) (fuel : Nat) :
    Sim (Ready A) (stateMachine fuel) (stateMachine fuel) (Delivered A) Ceased := by
  unfold stateMachine
  refine Fallible.Sim.getThen fun p q h => ?_
  have hstate : q.state = p.state := by rw [h.1.onto]; rfl
  have hreads {x : ParseM σ Event} {y : ParseM TokenList Event}
      (hx : Sim (Reads A fun _ => True) x y (Delivered A) Ceased) :
      Sim (fun p' q' => p' = p ∧ q' = q) x y (Delivered A) Ceased :=
    hx.of (by rintro _ _ ⟨rfl, rfl⟩; exact h.1)
  have hopens {first : Bool} {x : ParseM σ Event} {y : ParseM TokenList Event} (hf : first = opens p.state)
      (hx : Sim (fun p q => Reads A (fun _ => True) p q ∧ (first = true → Continues q.source)) x y (Delivered A) Ceased) :
      Sim (fun p' q' => p' = p ∧ q' = q) x y (Delivered A) Ceased :=
    hx.of (by rintro _ _ ⟨rfl, rfl⟩; exact ⟨h.1, hf ▸ h.2⟩)
  rw [hstate]
  cases hs : p.state <;> rw [hs] at hopens
  case streamStart => exact hreads (parseStreamStart_delivered hσ)
  case implicitDocumentStart => exact hreads (parseDocumentStart_delivered hσ)
  case documentStart => exact hreads (parseDocumentStart_delivered hσ)
  case documentContent => exact hreads (parseDocumentContent_delivered hσ)
  case documentEnd => exact hreads (parseDocumentEnd_delivered hσ)
  case blockNode => exact hreads (parseNode_delivered hσ)
  case blockNodeOrIndentlessSequence => exact hreads (parseNode_delivered hσ)
  case flowNode => exact hreads (parseNode_delivered hσ)
  case blockSequenceFirstEntry => exact hopens rfl (parseBlockSequenceEntry_delivered hσ)
  case blockSequenceEntry => exact hopens rfl (parseBlockSequenceEntry_delivered hσ)
  case indentlessSequenceEntry => exact hreads (parseIndentlessSequenceEntry_delivered hσ)
  case blockMappingFirstKey => exact hopens rfl (parseBlockMappingKey_delivered hσ)
  case blockMappingKey => exact hopens rfl (parseBlockMappingKey_delivered hσ)
  case blockMappingValue => exact hreads (parseBlockMappingValue_delivered hσ)
  case flowSequenceFirstEntry => exact hopens rfl (parseFlowSequenceEntry_delivered hσ)
  case flowSequenceEntry => exact hopens rfl (parseFlowSequenceEntry_delivered hσ)
  case flowSequenceEntryMappingKey => exact hreads (parseFlowSequenceEntryMappingKey_delivered hσ)
  case flowSequenceEntryMappingValue => exact hreads (parseFlowValue_delivered hσ rfl)
  case flowSequenceEntryMappingEnd => exact hreads (parseFlowSequenceEntryMappingEnd_delivered hσ)
  case flowMappingFirstKey => exact hopens rfl (parseFlowMappingKey_delivered hσ)
  case flowMappingKey => exact hopens rfl (parseFlowMappingKey_delivered hσ)
  case flowMappingValue => exact hreads (parseFlowMappingValue_delivered hσ)
  case flowMappingEmptyValue => exact hreads (parseFlowMappingValue_delivered hσ)
  case «end» => exact hreads refuse

omit [TokenSource σ] in
theorem stopped_onto {q : Parser τ} (h : q = p.onto q.source) : Stopped q ↔ Stopped p := by
  rw [h]
  exact Iff.rfl

/-- Two runs between two calls. -/
inductive Along (A : Account σ) (fuel : Nat) (p : Parser σ) (q : Parser TokenList) : Prop
  | going (h : Ready A p q) (hr : Running fuel q)
  | over (h : Stopped p) (ho : q = p.onto q.source) (ha : p.error = none → A.Rel p.source q.source)

theorem Along.onto {fuel : Nat} (h : Along A fuel p q) : q = p.onto q.source := by
  rcases h with ⟨h, -⟩ | ⟨-, h, -⟩
  · exact h.1.onto
  · exact h

/-- One call does the same with both: they go on, they come to the end of the stream, or they fail. -/
theorem parse_ready (hσ : Steady σ) {fuel : Nat} (h : Ready A p q) (hr : Running fuel q) (hs : ¬Stopped p) :
    (∃ e p' q', parse fuel p = .ok e p' ∧ parse fuel q = .ok e q' ∧ e.type ≠ .noEvent ∧ q' = p'.onto q'.source
        ∧ A.Rel p'.source q'.source ∧ p'.error = none
        ∧ (∀ w, After q'.state (Follows q'.states) w → After q.state (Follows q.states) (e.type :: w))
        ∧ (e.type = .streamEnd ∧ p'.state = .end ∧ p'.streamEndProduced = true ∧ Closes A
          ∨ e.type ≠ .streamEnd ∧ Ready A p' q' ∧ Running fuel q' ∧ ¬Stopped p'))
      ∨ ∃ problem p' q', parse fuel p = .error (.reported problem) p' ∧ parse fuel q = .error (.reported problem) q'
        ∧ q' = p'.onto q'.source ∧ p'.error = some problem ∧ p'.streamEndProduced = false := by
  have hsq : ¬Stopped q := fun hq => hs ((stopped_onto h.1.onto).mp hq)
  have hm := stateMachine_delivered hσ fuel p q h
  rcases parse_spec hr with ⟨hq, -⟩ | ⟨e, q', hq, he, hr', hk⟩ | ⟨problem, q', hq, -⟩
  · exact absurd hq hsq
  · rw [parse_eq_ok hsq hq] at hm
    cases hp : stateMachine fuel p with
    | error f p' =>
      rw [hp] at hm
      exact hm.elim
    | ok e' p' =>
      rw [hp] at hm
      obtain ⟨rfl, hd⟩ := hm
      refine .inl ⟨e', p', q', by rw [parse_of_not_stopped hs, hp], hq, he, hd.onto, hd.account, hd.fresh, hk, ?_⟩
      rcases hd.rest with hended | ⟨hunended, hend, hl, ho⟩
      · exact .inl hended
      · refine .inr ⟨fun htype => ?_, ⟨⟨hd.onto, hl, hd.account, hd.states, hd.fresh, hunended, trivial⟩, ho⟩, hr', ?_⟩
        · -- nothing could follow, but the state is not the last
          obtain ⟨w, hw⟩ := hr'.wellFormed.exists_after
          have hnil : w = [] := after_streamEnd (htype ▸ hk w hw)
          have hstate : q'.state = p'.state := by rw [hd.onto]; rfl
          rw [hnil] at hw
          exact hend (hstate ▸ after_nil hw)
        · rintro (h | h | h)
          · rw [hunended] at h
            cases h
          · rw [hd.fresh] at h
            cases h
          · exact hend h
  · obtain ⟨q'', hq''⟩ := parse_eq_error hsq hq
    rw [hq''] at hm
    cases hp : stateMachine fuel p with
    | ok e p' =>
      rw [hp] at hm
      exact hm.elim
    | error f p' =>
      rw [hp] at hm
      obtain ⟨rfl, hc, hended⟩ := hm
      have hcalled : parse fuel q = .error (.reported problem) { q'' with error := some problem } := by
        rw [parse_of_not_stopped hsq, hq'']
      refine .inr ⟨problem, { p' with error := some problem }, { q'' with error := some problem },
        by rw [parse_of_not_stopped hs, hp], hcalled, ?_, rfl, hended⟩
      rw [hc]
      rfl

/-- One call does the same with both. -/
theorem parse_along (hσ : Steady σ) {fuel : Nat} (h : Along A fuel p q) (hs : ¬Stopped p) :
    (∃ e p' q', parse fuel p = .ok e p' ∧ parse fuel q = .ok e q' ∧ e.type ≠ .noEvent ∧ Along A fuel p' q'
        ∧ A.Rel p'.source q'.source ∧ (Stopped p' → e.type = .streamEnd))
      ∨ ∃ problem p' q', parse fuel p = .error (.reported problem) p' ∧ parse fuel q = .error (.reported problem) q'
        ∧ Along A fuel p' q' ∧ p'.error = some problem := by
  obtain ⟨h, hr⟩ : Ready A p q ∧ Running fuel q := by
    rcases h with ⟨h, hr⟩ | ⟨h, -, -⟩
    · exact ⟨h, hr⟩
    · exact absurd h hs
  rcases parse_ready hσ h hr hs with ⟨e, p', q', hp, hq, he, honto, haccount, -, -, ⟨htype, hend, -, -⟩ | ⟨-, h', hr', hs'⟩⟩ |
    ⟨problem, p', q', hp, hq, honto, herror, -⟩
  · exact .inl ⟨e, p', q', hp, hq, he, .over (.inr (.inr hend)) honto fun _ => haccount, haccount, fun _ => htype⟩
  · exact .inl ⟨e, p', q', hp, hq, he, .going h' hr', haccount, fun h => absurd h hs'⟩
  · refine .inr ⟨problem, p', q', hp, hq, .over (.inr (.inl (by rw [herror]; rfl))) honto fun hnone => ?_, herror⟩
    rw [herror] at hnone
    cases hnone

theorem calls_add {fuel : Nat} (n : Nat) : ∀ (m : Nat) (p : Parser σ),
    calls fuel (m + n) p = ((calls fuel m p).1 ++ (calls fuel n (calls fuel m p).2).1, (calls fuel n (calls fuel m p).2).2)
  | 0, p => by rw [Nat.zero_add]; rfl
  | m + 1, p => by
    rw [Nat.add_right_comm]
    cases hp : parse fuel p <;> simp only [calls, hp, calls_add n m, List.cons_append]

/-- All the calls do the same with both. -/
theorem calls_along (hσ : Steady σ) {fuel : Nat} : ∀ (n : Nat) {p : Parser σ} {q : Parser TokenList}, Along A fuel p q →
    (calls fuel n p).1 = (calls fuel n q).1 ∧ Along A fuel (calls fuel n p).2 (calls fuel n q).2
  | 0, _, _, h => ⟨rfl, h⟩
  | n + 1, p, q, h => by
    by_cases hs : Stopped p
    · rw [calls_stopped hs, calls_stopped ((stopped_onto h.onto).mpr hs)]
      exact ⟨rfl, h⟩
    · rcases parse_along hσ h hs with ⟨e, p', q', hp, hq, -, h', -⟩ | ⟨problem, p', q', hp, hq, h', -⟩
      · obtain ⟨heq, hal⟩ := calls_along hσ n h'
        simp only [calls, hp, hq]
        exact ⟨congrArg _ heq, hal⟩
      · obtain ⟨heq, hal⟩ := calls_along hσ n h'
        simp only [calls, hp, hq]
        exact ⟨congrArg _ heq, hal⟩

/-- Whether a call has delivered an event. -/
def delivers (result : Except Fault Event) : Prop := ∃ e, result = .ok e ∧ e.type ≠ .noEvent

/-- As long as events are delivered the account is kept. -/
theorem calls_account (hσ : Steady σ) {fuel : Nat} : ∀ (n : Nat) {p : Parser σ} {q : Parser TokenList}, Along A fuel p q →
    A.Rel p.source q.source → (∀ x ∈ (calls fuel n p).1, delivers x) →
    A.Rel (calls fuel n p).2.source (calls fuel n q).2.source
  | 0, _, _, _, ha, _ => ha
  | n + 1, p, q, h, ha, hx => by
    by_cases hs : Stopped p
    · rw [calls_stopped hs, calls_stopped ((stopped_onto h.onto).mpr hs)]
      exact ha
    · rcases parse_along hσ h hs with ⟨e, p', q', hp, hq, -, h', ha', -⟩ | ⟨problem, p', q', hp, -⟩
      · simp only [calls, hp, hq] at hx ⊢
        exact calls_account hσ n h' ha' fun x hm => hx x (List.mem_cons_of_mem _ hm)
      · simp only [calls, hp] at hx
        obtain ⟨e, he, -⟩ := hx _ List.mem_cons_self
        cases he

/-- Whether a run has come to its end: that of the stream, or a failure. -/
def Concluded (results : List (Except Fault Event)) : Prop :=
  (∃ e, .ok e ∈ results ∧ e.type = .streamEnd) ∨ ∃ problem, .error (.reported problem) ∈ results

/-- Up to its end every call delivers an event. -/
theorem calls_delivers (hσ : Steady σ) {fuel : Nat} : ∀ (n : Nat) {p : Parser σ} {q : Parser TokenList}, Along A fuel p q →
    ¬Stopped p → ¬Concluded (calls fuel n p).1 → ∀ x ∈ (calls fuel n p).1, delivers x
  | 0, _, _, _, _, _ => fun _ hx => absurd hx List.not_mem_nil
  | n + 1, p, q, h, hs, hc => by
    rcases parse_along hσ h hs with ⟨e, p', q', hp, -, he, h', -, hst⟩ | ⟨problem, p', q', hp, -⟩
    · simp only [calls, hp] at hc ⊢
      have hs' : ¬Stopped p' := fun hs' => hc (.inl ⟨e, List.mem_cons_self, hst hs'⟩)
      have hc' : ¬Concluded (calls fuel n p').1 := by
        intro h
        rcases h with ⟨e', hm, he'⟩ | ⟨problem, hm⟩
        · exact hc (.inl ⟨e', List.mem_cons_of_mem _ hm, he'⟩)
        · exact hc (.inr ⟨problem, List.mem_cons_of_mem _ hm⟩)
      intro x hx
      rcases List.mem_cons.mp hx with rfl | hx
      · exact ⟨e, rfl, he⟩
      · exact calls_delivers hσ n h' hs' hc' x hx
    · simp only [calls, hp] at hc
      exact absurd (.inr ⟨problem, List.mem_cons_self⟩) hc

/-- A run does not fail, or it fails and never comes to the end of the stream. -/
theorem calls_either (hσ : Steady σ) {fuel : Nat} : ∀ (n : Nat) {p : Parser σ} {q : Parser TokenList}, Ready A p q →
    Running fuel q → ¬Stopped p → (∀ f, .error f ∉ (calls fuel n p).1)
      ∨ (∃ problem, .error (.reported problem) ∈ (calls fuel n p).1)
        ∧ ∀ e, .ok e ∈ (calls fuel n p).1 → e.type ≠ .streamEnd
  | 0, _, _, _, _, _ => .inl fun _ => List.not_mem_nil
  | n + 1, p, q, h, hr, hs => by
    rcases parse_ready hσ h hr hs with ⟨e, p', q', hp, -, -, -, -, -, -, ⟨-, hend, -, -⟩ | ⟨htype, h', hr', hs'⟩⟩ |
      ⟨problem, p', q', hp, -, -, herror, -⟩
    · simp only [calls, hp, calls_stopped (.inr (.inr hend))]
      exact .inl fun f hf => by simp at hf
    · simp only [calls, hp]
      rcases calls_either hσ n h' hr' hs' with hf | ⟨⟨problem, hm⟩, he⟩
      · refine .inl fun f hm => ?_
        rcases List.mem_cons.mp hm with hm | hm
        · cases hm
        · exact hf f hm
      · refine .inr ⟨⟨problem, List.mem_cons_of_mem _ hm⟩, fun e' hm' => ?_⟩
        rcases List.mem_cons.mp hm' with hm' | hm'
        · cases hm'
          exact htype
        · exact he e' hm'
    · simp only [calls, hp, calls_stopped (.inr (.inl (by rw [herror]; rfl)))]
      refine .inr ⟨⟨problem, List.mem_cons_self⟩, fun e he => ?_⟩
      rcases List.mem_cons.mp he with he | he
      · cases he
      · cases List.eq_of_mem_replicate he
        exact EventType.noConfusion

/-- Where the end of the stream is delivered it has been among the tokens. -/
theorem calls_closes (hσ : Steady σ) {fuel : Nat} : ∀ (n : Nat) {p : Parser σ} {q : Parser TokenList}, Ready A p q →
    Running fuel q → ¬Stopped p → (∃ e, .ok e ∈ (calls fuel n p).1 ∧ e.type = .streamEnd) → Closes A
  | 0, _, _, _, _, _, ⟨_, he, _⟩ => absurd he List.not_mem_nil
  | n + 1, p, q, h, hr, hs, ⟨e', hm, htype'⟩ => by
    rcases parse_ready hσ h hr hs with ⟨e, p', q', hp, -, -, -, -, -, -, ⟨-, -, -, hcloses⟩ | ⟨htype, h', hr', hs'⟩⟩ |
      ⟨problem, p', q', hp, -, -, herror, -⟩
    · exact hcloses
    · simp only [calls, hp] at hm
      rcases List.mem_cons.mp hm with hm | hm
      · cases hm
        exact absurd htype' htype
      · exact calls_closes hσ n h' hr' hs' ⟨e', hm, htype'⟩
    · simp only [calls, hp, calls_stopped (.inr (.inl (by rw [herror]; rfl)))] at hm
      rcases List.mem_cons.mp hm with hm | hm
      · cases hm
      · cases List.eq_of_mem_replicate hm
        cases htype'

theorem running_init {list : TokenList} {fuel : Nat} (hf : list.tokens.length < fuel) : Running fuel (init list) :=
  ⟨.inl ⟨by simp [init, outer], rfl, rfl⟩, hf⟩

/-- Both start with nothing taken. -/
theorem ready_init {s : σ} {list : TokenList} (h : Lists s list) (ha : A.Rel s list) : Ready A (init s) (init list) :=
  ⟨⟨rfl, h, ha, fun _ hs => absurd hs List.not_mem_nil, rfl, rfl, trivial⟩, fun ho => by cases ho⟩

theorem along_init {s : σ} {list : TokenList} {fuel : Nat} (h : Lists s list) (ha : A.Rel s list)
    (hf : list.tokens.length < fuel) : Along A fuel (init s) (init list) :=
  .going (ready_init h ha) (running_init hf)

omit [TokenSource σ] in
theorem not_stopped_init {s : σ} : ¬Stopped (init s) := by
  rintro (h | h | h) <;> cases h

/-- What the parser makes of a source it makes of the list of its tokens. -/
theorem calls_listed (hσ : Steady σ) {s : σ} {list : TokenList} {fuel : Nat} (h : Lists s list)
    (hf : list.tokens.length < fuel) (n : Nat) : (calls fuel n (init s)).1 = (calls fuel n (init list)).1 :=
  (calls_along (A := ⟨fun _ _ => True, fun _ _ => trivial, fun _ _ _ => trivial⟩) hσ n
    (along_init h trivial hf)).1

end Source

end Parser

end LibYaml
