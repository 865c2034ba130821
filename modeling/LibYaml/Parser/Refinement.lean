import LibYaml.Parser.Automaton
import LibYaml.Parser.EventOrder

/-!
# The machine refines the automaton

As long as directives are compatible and not repeated and every tag handle is declared, a call of
the machine on a list of tokens does what the automaton does on their types: it delivers an event
of the same type and goes to the same state, or it fails where the automaton has no move
(`stateMachine_refines`).
-/

namespace LibYaml

namespace Parser

open Fallible Automaton TokenGrammar

abbrev typesOf (w : List Token) : List TokenType := w.map Token.type

/-- The handles that need no directive. -/
def defaultHandles : List Bytes := defaultTagDirectives.map fun d => cstr d.handle

/-- Every directive is compatible and not repeated in its run of directives, and every tag has a
handle that its document declares.  `run` tells whether the token before is a directive, `version`
whether its run has a version, and `handles` are those declared for the document. -/
def Declared : Bool → Bool → List Bytes → List Token → Prop
  | _, _, _, [] => True
  | run, version, handles, t :: ts =>
    match t.data with
    | .versionDirective major minor =>
      ¬(run = true ∧ version = true) ∧ major = 1 ∧ (minor = 1 ∨ minor = 2) ∧
        Declared true true (if run then handles else []) ts
    | .tagDirective handle _ =>
      cstr handle ∉ (if run then handles else []) ∧
        Declared true (run && version) ((if run then handles else []) ++ [cstr handle]) ts
    | .documentStart => Declared false false (if run then handles else []) ts
    | .tag handle _ =>
      (cstr handle = [] ∨ cstr handle ∈ handles ∨ cstr handle ∈ defaultHandles) ∧
        Declared false false handles ts
    | _ => Declared false false handles ts

/-- Every handle that `w` uses before its next document is in `ds`. -/
def Resolves (ds : List TagDirective) (w : List Token) : Prop :=
  ∃ handles, Declared false false handles w ∧
    ∀ h, h ∈ handles ∨ h ∈ defaultHandles → ∃ d ∈ ds, cstr d.handle = h

/-- The states inside a document. -/
def Inner (s : ParserState) : Prop :=
  s ≠ .streamStart ∧ s ≠ .implicitDocumentStart ∧ s ≠ .documentStart ∧ s ≠ .end

/-- The parser's tag directives are those of the document it is in. -/
def Env (p : Parser TokenList) : Prop :=
  match p.state with
  | .streamStart | .implicitDocumentStart =>
    p.tagDirectives = [] ∧ Declared false false [] p.source.tokens
  | .documentStart =>
    p.tagDirectives = [] ∧ ∃ handles, Declared false false handles p.source.tokens
  | .end => True
  | _ => Resolves p.tagDirectives p.source.tokens

theorem env_of_inner {p : Parser TokenList} (hs : Inner p.state)
    (h : Resolves p.tagDirectives p.source.tokens) : Env p := by
  unfold Env
  split
  · exact absurd ‹_› hs.1
  · exact absurd ‹_› hs.2.1
  · exact absurd ‹_› hs.2.2.1
  · trivial
  · exact h

/-- The automaton is where the parser is. -/
structure Shows (c : Config) (p : Parser TokenList) : Prop where
  state : p.state = c.state
  states : p.states = c.states
  tokens : typesOf p.source.tokens = c.tokens
  env : Env p

def At (states : List ParserState) (marks : List Mark) (ds : List TagDirective) (w : List Token)
    (p : Parser TokenList) : Prop :=
  p.states = states ∧ p.marks = marks ∧ p.tagDirectives = ds ∧ p.source.tokens = w

/-- From where `w` is left, `x` does what the move `m` does. -/
def Refines (states : List ParserState) (marks : List Mark) (ds : List TagDirective)
    (w : List Token) (x : ParseM TokenList Event) (m : Move) : Prop :=
  Holds (At states marks ds w) x (fun e p => ∃ c, m = some (e.type, c) ∧ Shows c p)
    fun _ _ => m = none

section Rules

variable {states : List ParserState} {marks : List Mark} {ds : List TagDirective}
  {w ts : List Token} {t : Token} {m m' : Move} {x y : ParseM TokenList Event} {e : Event}
  {s : ParserState}

theorem Resolves.tail (h : Resolves ds (t :: ts))
    (ht : t.type ∉ [TokenType.versionDirective, .tagDirective, .documentStart]) :
    Resolves ds ts := by
  obtain ⟨handles, hd, hc⟩ := h
  refine ⟨handles, ?_, hc⟩
  rw [Declared] at hd
  unfold Token.type at ht
  split at hd
  · simp_all [TokenData.type]
  · simp_all [TokenData.type]
  · simp_all [TokenData.type]
  · exact hd.2
  · exact hd

theorem Refines.peek {f : Token → ParseM TokenList Event} (hnil : w = [] → m = none)
    (hcons : ∀ t ts, w = t :: ts → Refines states marks ds (t :: ts) (f t) m) :
    Refines states marks ds w (peekToken >>= f) m := by
  rintro p ⟨hs, hm, hd, ht⟩
  rcases w with _ | ⟨t, ts⟩
  · have hpeek : peekToken p = .error (.reported p.source.failure) p := by
      simp [peekToken, TokenSource.peek, ht]
    rw [bind_of_error hpeek]
    exact hnil rfl
  · have hpeek : peekToken p = .ok t p := by simp [peekToken, TokenSource.peek, ht]
    rw [bind_of_ok hpeek]
    exact hcons t ts rfl p ⟨hs, hm, hd, ht⟩

theorem Refines.skip {f : Unit → ParseM TokenList Event} (h : Refines states marks ds ts (f ()) m) :
    Refines states marks ds (t :: ts) (skipToken >>= f) m := by
  rintro p ⟨hs, hm, hd, ht⟩
  exact h _ ⟨hs, hm, hd, by simp [TokenSource.skip, ht]⟩

theorem Refines.push {f : Unit → ParseM TokenList Event}
    (h : Refines (s :: states) marks ds w (f ()) m) :
    Refines states marks ds w (pushState s >>= f) m := by
  rintro p ⟨hs, hm, hd, ht⟩
  exact h _ ⟨by simp [hs], hm, hd, ht⟩

theorem Refines.pushMark {mark : Mark} {f : Unit → ParseM TokenList Event}
    (h : Refines states (mark :: marks) ds w (f ()) m) :
    Refines states marks ds w (Parser.pushMark mark >>= f) m := by
  rintro p ⟨hs, hm, hd, ht⟩
  exact h _ ⟨hs, by simp [hm], hd, ht⟩

theorem Refines.popMark {mark : Mark} {f : Mark → ParseM TokenList Event}
    (h : Refines states marks ds w (f mark) m) :
    Refines states (mark :: marks) ds w (Parser.popMark >>= f) m := by
  rintro p ⟨hs, hm, hd, ht⟩
  have hpop : Parser.popMark p = .ok mark { p with marks := marks } := by
    simp [Parser.popMark, hm]
  rw [bind_of_ok hpop]
  exact h _ ⟨hs, rfl, hd, ht⟩

theorem Refines.throw {f : Fault} : Refines states marks ds w (throw f) none := fun _ _ => rfl

theorem Refines.ite {c : Prop} [Decidable c] (hx : c → Refines states marks ds w x m)
    (hy : ¬c → Refines states marks ds w y m') :
    Refines states marks ds w (if c then x else y) (if c then m else m') := by
  split
  · exact hx ‹_›
  · exact hy ‹_›

theorem Refines.goto (hs : Inner s) (hr : Resolves ds w) :
    Refines states marks ds w (do setState s; pure e)
      (some (e.type, ⟨s, states, typesOf w⟩)) := by
  rintro p ⟨rfl, rfl, rfl, rfl⟩
  exact ⟨_, rfl, rfl, rfl, rfl, env_of_inner hs hr⟩

theorem Refines.pop (hS : ∀ s ∈ states, Inner s) (hr : Resolves ds w) :
    Refines states marks ds w (do popState; pure e) (pop e.type states (typesOf w)) := by
  rintro p ⟨rfl, rfl, rfl, rfl⟩
  cases hp : p.states with
  | nil =>
    have hpop : popState p = .error .undefined p := by simp [popState, hp]
    rw [bind_of_error hpop]
    rfl
  | cons s rest =>
    have hpop : popState p = .ok () { p with state := s, states := rest } := by simp [popState, hp]
    rw [bind_of_ok hpop]
    exact ⟨_, rfl, rfl, rfl, rfl, env_of_inner (hS s (by simp [hp])) hr⟩

theorem Refines.popSkip (hS : ∀ s ∈ states, Inner s) (hr : Resolves ds ts) :
    Refines states marks ds (t :: ts) (do popState; skipToken; pure e)
      (Automaton.pop e.type states (typesOf ts)) := by
  rintro p ⟨rfl, rfl, rfl, hw⟩
  cases hp : p.states with
  | nil =>
    have hpop : popState p = .error .undefined p := by simp [popState, hp]
    rw [bind_of_error hpop]
    rfl
  | cons s rest =>
    have hpop : popState p = .ok () { p with state := s, states := rest } := by simp [popState, hp]
    rw [bind_of_ok hpop]
    have htail : p.source.tokens.tail = ts := by rw [hw]; rfl
    rw [← htail] at hr
    exact ⟨_, rfl, rfl, rfl, congrArg typesOf htail, env_of_inner (hS s (by simp [hp])) hr⟩

theorem Refines.close {mark : Mark} {data : EventData} (hS : ∀ s ∈ states, Inner s)
    (hr : Resolves ds ts) :
    Refines states (mark :: marks) ds (t :: ts) (closeCollection t data)
      (Automaton.pop data.type states (typesOf ts)) := by
  rintro p ⟨rfl, hm, rfl, hw⟩
  cases hp : p.states with
  | nil =>
    have hpop : popState p = .error .undefined p := by simp [popState, hp]
    rw [closeCollection, bind_of_error hpop]
    rfl
  | cons s rest =>
    have hpop : popState p = .ok () { p with state := s, states := rest } := by simp [popState, hp]
    have hmark : Parser.popMark { p with state := s, states := rest } =
        .ok mark { p with state := s, states := rest, marks := marks } := by
      simp [Parser.popMark, hm]
    rw [closeCollection, bind_of_ok hpop, bind_of_ok hmark]
    have htail : p.source.tokens.tail = ts := by rw [hw]; rfl
    rw [← htail] at hr
    exact ⟨_, rfl, rfl, rfl, congrArg typesOf htail, env_of_inner (hS s (by simp [hp])) hr⟩

theorem Refines.fail {mark : Mark} {context problem : String} :
    Refines states (mark :: marks) ds w (failCollection context problem t) none :=
  Refines.popMark Refines.throw

/-! ## Nodes -/

variable {k : NodeKind}

/-- The flags that `yaml_parser_parse_node` is called with for a node of kind `k`. -/
def isBlock (k : NodeKind) : Bool := k ≠ .flow

def isIndentless (k : NodeKind) : Bool := k = .blockOrIndentless

theorem type_eq_scalar (h : t.type = .scalar) : ∃ value style, t.data = .scalar value style := by
  unfold Token.type at h
  cases hd : t.data <;> simp_all [TokenData.type]

/-- The properties are those the automaton strips, and a handle they use is declared. -/
def Stripped (states : List ParserState) (marks : List Mark) (ds : List TagDirective)
    (w : List Token) (props : Properties) (p : Parser TokenList) : Prop :=
  ∃ ts, At states marks ds (props.token :: ts) p ∧ Resolves ds (props.token :: ts) ∧
    stripProperties (typesOf w) =
      (props.anchor.isSome || props.tag.isSome, typesOf (props.token :: ts)) ∧
    ∀ handle suffix, props.tag = some (handle, suffix) →
      cstr handle = [] ∨ ∃ d ∈ ds, cstr d.handle = cstr handle

theorem Resolves.handle {handle suffix : Bytes} (h : Resolves ds (t :: ts))
    (ht : t.data = .tag handle suffix) :
    cstr handle = [] ∨ ∃ d ∈ ds, cstr d.handle = cstr handle := by
  obtain ⟨handles, hd, hc⟩ := h
  simp only [Declared, ht] at hd
  exact hd.1.imp id fun hm => hc _ hm

theorem skipToken_at {E : Fault → Parser TokenList → Prop} :
    Holds (At states marks ds (t :: ts)) skipToken (fun _ => At states marks ds ts) E := by
  rintro p ⟨hs, hm, hd, ht⟩
  exact ⟨hs, hm, hd, by simp [TokenSource.skip, ht]⟩

theorem peekToken_at : Holds (At states marks ds w) peekToken
    (fun t p => ∃ ts, w = t :: ts ∧ At states marks ds (t :: ts) p) fun _ _ => w = [] := by
  rintro p ⟨hs, hm, hd, ht⟩
  rcases w with _ | ⟨t, ts⟩
  · simp [peekToken, TokenSource.peek, ht]
  · simp [peekToken, TokenSource.peek, ht, At, hs, hm, hd]

/-- Skip the token that holds a property and go on with the next. -/
theorem skip_peek_at {α : Type} {f : Token → ParseM TokenList α} {Q : α → Parser TokenList → Prop}
    {E : Prop} (hnil : ts = [] → E)
    (hf : ∀ next rest, ts = next :: rest →
      Holds (At states marks ds (next :: rest)) (f next) Q fun _ _ => E) :
    Holds (At states marks ds (t :: ts)) (do skipToken; let next ← peekToken; f next) Q
      fun _ _ => E := by
  refine skipToken_at.bind fun _ => (peekToken_at.weaken (fun _ h => h) (fun _ _ h => h)
    fun _ _ h => hnil h).bind fun next p hp => ?_
  obtain ⟨rest, hts, hat⟩ := hp
  exact hf next rest hts p hat

theorem parseProperties_refines (hr : Resolves ds (t :: ts)) :
    Holds (At states marks ds (t :: ts)) (parseProperties t) (Stripped states marks ds (t :: ts))
      fun _ _ => (stripProperties (typesOf (t :: ts))).2 = [] := by
  unfold parseProperties
  split
  · rename_i value ha
    have hta : t.type = .anchor := by simp [Token.type, ha, TokenData.type]
    have hr' := hr.tail (by simp [hta])
    refine skip_peek_at (by rintro rfl; simp [hta, stripProperties]) ?_
    rintro next rest rfl
    split
    · rename_i handle suffix hb
      have htb : next.type = .tag := by simp [Token.type, hb, TokenData.type]
      have hr'' := hr'.tail (by simp [htb])
      refine skip_peek_at (by rintro rfl; simp [hta, htb, stripProperties]) ?_
      rintro last rest rfl
      refine Holds.pure fun p hp => ⟨rest, hp, hr'', by simp [hta, htb, stripProperties], ?_⟩
      rintro h x he
      obtain ⟨rfl, rfl⟩ := Prod.mk.inj (Option.some.inj he)
      exact hr'.handle hb
    · rename_i hb
      have htb : next.type ≠ .tag := by
        unfold Token.type
        cases hd : next.data <;> simp_all [TokenData.type]
      refine Holds.pure fun p hp => ⟨rest, hp, hr', ?_, by simp⟩
      simp only [typesOf, List.map_cons, hta, Option.isSome, Bool.or_false]
      cases hn : next.type <;> simp_all [stripProperties]
  · rename_i handle suffix hb
    have htb : t.type = .tag := by simp [Token.type, hb, TokenData.type]
    have hr' := hr.tail (by simp [htb])
    refine skip_peek_at (by rintro rfl; simp [htb, stripProperties]) ?_
    rintro next rest rfl
    split
    · rename_i value ha
      have hta : next.type = .anchor := by simp [Token.type, ha, TokenData.type]
      have hr'' := hr'.tail (by simp [hta])
      refine skip_peek_at (by rintro rfl; simp [hta, htb, stripProperties]) ?_
      rintro last rest rfl
      refine Holds.pure fun p hp => ⟨rest, hp, hr'', by simp [hta, htb, stripProperties], ?_⟩
      rintro h x he
      obtain ⟨rfl, rfl⟩ := Prod.mk.inj (Option.some.inj he)
      exact hr.handle hb
    · rename_i ha
      have hta : next.type ≠ .anchor := by
        unfold Token.type
        cases hd : next.data <;> simp_all [TokenData.type]
      refine Holds.pure fun p hp => ⟨rest, hp, hr', ?_, ?_⟩
      · simp only [typesOf, List.map_cons, htb, Option.isSome, Bool.false_or]
        cases hn : next.type <;> simp_all [stripProperties]
      · rintro h x he
        obtain ⟨rfl, rfl⟩ := Prod.mk.inj (Option.some.inj he)
        exact hr.handle hb
  · rename_i ha hb
    have hta : t.type ≠ .anchor ∧ t.type ≠ .tag := by
      unfold Token.type
      cases hd : t.data <;> simp_all [TokenData.type]
    refine Holds.pure fun p hp => ⟨ts, hp, hr, ?_, by simp⟩
    simpa using stripProperties_of_ne hta.1 hta.2 (typesOf ts)

theorem resolveTag_refines {props : Properties} {E : Fault → Parser TokenList → Prop} :
    Holds (Stripped states marks ds w props) (resolveTag props)
      (fun tag p => Stripped states marks ds w props p ∧ tag.isSome = props.tag.isSome) E := by
  intro p hp
  obtain ⟨ts, ⟨-, -, hd, -⟩, -, -, hh⟩ := id hp
  unfold resolveTag
  rcases htag : props.tag with _ | ⟨handle, suffix⟩
  · exact ⟨hp, rfl⟩
  · simp only []
    by_cases hn : cstr handle = []
    · simp only [hn, ↓reduceIte]
      exact ⟨hp, rfl⟩
    · simp only [hn, ↓reduceIte]
      obtain ⟨d, hd', he⟩ := (hh handle suffix htag).resolve_left hn
      cases hf : p.tagDirectives.find? (fun d => cstr d.handle = cstr handle) with
      | some d => exact ⟨hp, rfl⟩
      | none =>
        rw [hd, List.find?_eq_none] at hf
        exact absurd he (by simpa using hf d hd')

theorem parseContent_refines (props : Properties) (tag : Option Bytes)
    (hS : ∀ s ∈ states, Inner s) (hr : Resolves ds (props.token :: ts)) {present : Bool}
    (hp : present = (props.anchor.isSome || tag.isSome)) :
    Refines states marks ds (props.token :: ts)
      (parseContent (isBlock k) (isIndentless k) props tag)
      (content k present states (typesOf (props.token :: ts))) := by
  have hinner : ∀ s ∈ [ParserState.indentlessSequenceEntry, .flowSequenceFirstEntry,
      .flowMappingFirstKey, .blockSequenceFirstEntry, .blockMappingFirstKey], Inner s := by
    simp [Inner]
  unfold parseContent
  simp only [typesOf, List.map_cons, content]
  by_cases hi : k = .blockOrIndentless ∧ props.token.type = .blockEntry
  · rw [if_pos (by simpa [isIndentless] using hi), if_pos hi]
    exact Refines.goto (hinner _ (by simp)) hr
  rw [if_neg (by simpa [isIndentless] using hi), if_neg hi]
  split
  · rename_i value style hd
    have ht : props.token.type = .scalar := by simp [Token.type, hd, TokenData.type]
    rw [if_pos ht]
    exact Refines.popSkip hS (hr.tail (by simp [ht]))
  · rename_i hd
    have ht : props.token.type = .flowSequenceStart := by simp [Token.type, hd, TokenData.type]
    rw [if_neg (by simp [ht]), if_pos ht]
    exact Refines.goto (hinner _ (by simp)) hr
  · rename_i hd
    have ht : props.token.type = .flowMappingStart := by simp [Token.type, hd, TokenData.type]
    rw [if_neg (by simp [ht]), if_neg (by simp [ht]), if_pos ht]
    exact Refines.goto (hinner _ (by simp)) hr
  rename_i hscalar hsequence hmapping
  have ht : props.token.type ≠ .scalar ∧ props.token.type ≠ .flowSequenceStart ∧
      props.token.type ≠ .flowMappingStart := by
    unfold Token.type
    cases hd : props.token.data <;> simp_all [TokenData.type]
  have hbs : props.token.data = .blockSequenceStart ↔ props.token.type = .blockSequenceStart := by
    unfold Token.type
    cases hd : props.token.data <;> simp [TokenData.type]
  have hbm : props.token.data = .blockMappingStart ↔ props.token.type = .blockMappingStart := by
    unfold Token.type
    cases hd : props.token.data <;> simp [TokenData.type]
  have hb : isBlock k = true ↔ k ≠ .flow := by simp [isBlock]
  rw [if_neg ht.1, if_neg ht.2.1, if_neg ht.2.2]
  simp only [hbs, hbm, hb]
  refine Refines.ite (fun _ => Refines.goto (hinner _ (by simp)) hr) fun _ =>
    Refines.ite (fun _ => Refines.goto (hinner _ (by simp)) hr) fun _ => ?_
  by_cases hany : props.anchor.isSome = true ∨ tag.isSome = true
  · rw [if_pos hany, if_pos (by rw [hp]; simpa using hany)]
    exact Refines.pop hS hr
  · rw [if_neg hany, if_neg (c := present = true) (by rw [hp]; simpa using hany)]
    exact Refines.throw

theorem parseNode_refines (hS : ∀ s ∈ states, Inner s) (hr : Resolves ds w) :
    Refines states marks ds w (parseNode (isBlock k) (isIndentless k))
      (node k states (typesOf w)) := by
  unfold parseNode
  refine Refines.peek (by rintro rfl; rfl) fun t ts hw => ?_
  subst hw
  simp only [typesOf, List.map_cons, node]
  split
  · rename_i value hd
    have ht : t.type = .alias := by simp [Token.type, hd, TokenData.type]
    rw [if_pos ht]
    exact Refines.popSkip hS (hr.tail (by simp [ht]))
  · rename_i hd
    have ht : t.type ≠ .alias := by
      unfold Token.type
      cases hd : t.data <;> simp_all [TokenData.type]
    rw [if_neg ht]
    refine Holds.bind ((parseProperties_refines hr).weaken (fun _ h => h) (fun _ _ h => h)
      fun _ _ h => ?_) fun props => resolveTag_refines.bind fun tag => ?_
    · simp only [typesOf, List.map_cons] at h
      rw [h]
      rfl
    · rintro p ⟨⟨rest, hat, hr', hstrip, -⟩, htag⟩
      simp only [typesOf, List.map_cons] at hstrip
      rw [hstrip]
      exact parseContent_refines props tag hS hr' (by rw [htag]) p hat

theorem parseOptionalNode_refines {after : ParserState} {follow : List TokenType}
    (hS : ∀ s ∈ after :: states, Inner s) (hr : Resolves ds ts) :
    Refines states marks ds (t :: ts)
      (parseOptionalNode t follow after (isBlock k) (isIndentless k))
      (optionalNode k follow after states (typesOf ts)) := by
  unfold parseOptionalNode
  refine Refines.skip (Refines.peek (by rintro rfl; rfl) fun t ts hw => ?_)
  subst hw
  exact Refines.ite (fun _ => Refines.goto (hS _ (by simp)) hr) fun _ =>
    Refines.push (parseNode_refines hS hr)

/-! ## Collections -/

/-- The tokens that the first call in a collection, or a later one, looks at. -/
def opened (first : Bool) (w : List Token) : List Token := if first then w.tail else w

/-- The first call in a collection keeps the mark of the token that opened it and skips it. -/
theorem Refines.opened {first : Bool} {x : ParseM TokenList Event}
    (hm : first = false → marks ≠ []) (hnil : Parser.opened first w = [] → m = none)
    (h : ∀ mark marks, Refines states (mark :: marks) ds (Parser.opened first w) x m) :
    Refines states marks ds w (do openCollection first; x) m := by
  cases first with
  | true =>
    simp only [openCollection, ↓reduceIte, bind_assoc]
    refine Refines.peek (by rintro rfl; exact hnil rfl) fun t ts hw => ?_
    subst hw
    exact Refines.pushMark (Refines.skip (h _ _))
  | false =>
    obtain ⟨mark, rest, rfl⟩ := List.exists_cons_of_ne_nil (hm rfl)
    exact h mark rest

theorem inner_cons (hs : Inner s) (hS : ∀ s ∈ states, Inner s) : ∀ s' ∈ s :: states, Inner s' := by
  simpa using ⟨hs, hS⟩

theorem parseBlockSequenceEntry_refines {first : Bool} (hm : first = false → marks ≠ [])
    (hS : ∀ s ∈ states, Inner s) (hr : Resolves ds (opened first w)) :
    Refines states marks ds w (parseBlockSequenceEntry first)
      (blockSequenceEntry states (typesOf (opened first w))) := by
  refine Refines.opened hm (fun h => by rw [h]; rfl) fun mark marks => ?_
  refine Refines.peek (fun h => by rw [h]; rfl) fun t ts hw => ?_
  rw [hw] at hr ⊢
  refine Refines.ite (fun ht => ?_) fun _ => Refines.ite (fun ht => ?_) fun _ => Refines.fail
  · exact parseOptionalNode_refines (k := .block) (inner_cons (by simp [Inner]) hS)
      (hr.tail (by simp [ht]))
  · exact Refines.close hS (hr.tail (by simp [ht]))

theorem parseIndentlessSequenceEntry_refines (hS : ∀ s ∈ states, Inner s) (hr : Resolves ds w) :
    Refines states marks ds w parseIndentlessSequenceEntry
      (indentlessSequenceEntry states (typesOf w)) := by
  refine Refines.peek (by rintro rfl; rfl) fun t ts hw => ?_
  subst hw
  refine Refines.ite (fun ht => ?_) fun _ => Refines.pop hS hr
  exact parseOptionalNode_refines (k := .block) (inner_cons (by simp [Inner]) hS)
    (hr.tail (by simp [ht]))

theorem parseBlockMappingKey_refines {first : Bool} (hm : first = false → marks ≠ [])
    (hS : ∀ s ∈ states, Inner s) (hr : Resolves ds (opened first w)) :
    Refines states marks ds w (parseBlockMappingKey first)
      (blockMappingKey states (typesOf (opened first w))) := by
  refine Refines.opened hm (fun h => by rw [h]; rfl) fun mark marks => ?_
  refine Refines.peek (fun h => by rw [h]; rfl) fun t ts hw => ?_
  rw [hw] at hr ⊢
  refine Refines.ite (fun ht => ?_) fun _ => Refines.ite (fun ht => ?_) fun _ => Refines.fail
  · exact parseOptionalNode_refines (k := .blockOrIndentless) (inner_cons (by simp [Inner]) hS)
      (hr.tail (by simp [ht]))
  · exact Refines.close hS (hr.tail (by simp [ht]))

theorem parseBlockMappingValue_refines (hS : ∀ s ∈ states, Inner s) (hr : Resolves ds w) :
    Refines states marks ds w parseBlockMappingValue (blockMappingValue states (typesOf w)) := by
  refine Refines.peek (by rintro rfl; rfl) fun t ts hw => ?_
  subst hw
  refine Refines.ite (fun ht => ?_) fun _ => Refines.goto (by simp [Inner]) hr
  exact parseOptionalNode_refines (k := .blockOrIndentless) (inner_cons (by simp [Inner]) hS)
    (hr.tail (by simp [ht]))

theorem parseFlowValue_refines {follow : List TokenType} {after : ParserState}
    (hS : ∀ s ∈ after :: states, Inner s) (hr : Resolves ds w) :
    Refines states marks ds w (parseFlowValue follow after)
      (flowValue follow after states (typesOf w)) := by
  refine Refines.peek (by rintro rfl; rfl) fun t ts hw => ?_
  subst hw
  refine Refines.ite (fun ht => ?_) fun _ => Refines.goto (hS _ (by simp)) hr
  have hr' := hr.tail (by simp [ht])
  refine Refines.skip (Refines.peek (by rintro rfl; rfl) fun t ts hw => ?_)
  subst hw
  exact Refines.ite (fun _ => Refines.goto (hS _ (by simp)) hr') fun _ =>
    Refines.push (parseNode_refines (k := .flow) hS hr')

theorem parseFlowSequenceEntryMappingKey_refines (hS : ∀ s ∈ states, Inner s)
    (hr : Resolves ds w) : Refines states marks ds w parseFlowSequenceEntryMappingKey
      (flowSequenceEntryMappingKey states (typesOf w)) := by
  refine Refines.peek (by rintro rfl; rfl) fun t ts hw => ?_
  subst hw
  by_cases ht : t.type ∈ [TokenType.value, .flowEntry, .flowSequenceEnd]
  · have hr' := hr.tail (by
      simp only [List.mem_cons, List.not_mem_nil, or_false] at ht
      rcases ht with ht | ht | ht <;> simp [ht])
    simp only [typesOf, List.map_cons, flowSequenceEntryMappingKey]
    rw [if_pos ht, if_neg (by simp at ht; grind)]
    exact Refines.skip (Refines.goto (by simp [Inner]) hr')
  · simp only [typesOf, List.map_cons, flowSequenceEntryMappingKey]
    rw [if_neg ht, if_pos (by simpa using ht)]
    exact Refines.push (parseNode_refines (k := .flow) (inner_cons (by simp [Inner]) hS) hr)

theorem parseFlowSequenceEntryMappingEnd_refines (hr : Resolves ds w) :
    Refines states marks ds w parseFlowSequenceEntryMappingEnd
      (if typesOf w = [] then none
        else some (.mappingEnd, ⟨.flowSequenceEntry, states, typesOf w⟩)) := by
  refine Refines.peek (by rintro rfl; rfl) fun t ts hw => ?_
  subst hw
  exact Refines.goto (by simp [Inner]) hr

/-- What the automaton does in a flow collection, at its first entry or at a later one. -/
def flowMove (s : FlowKind) (first : Bool) (states : List ParserState) (w : List Token) : Move :=
  if first then flowEntry s states (typesOf (opened first w))
  else Automaton.flowSeparator s states (typesOf (opened first w))

/-- The end of a flow collection, the separator before an entry, and the entry. -/
theorem flowSeparator_refines {k : FlowKind} {first : Bool} {mark : Mark} {data : EventData}
    {context problem : String} {f : Token → ParseM TokenList Event}
    (hS : ∀ s ∈ states, Inner s) (hr : Resolves ds (t :: ts)) (hdata : data.type = endEvent k)
    (hf : ∀ t ts, Resolves ds (t :: ts) → Refines states (mark :: marks) ds (t :: ts) (f t)
      (flowEntry k states (typesOf (t :: ts)))) :
    Refines states (mark :: marks) ds (t :: ts)
      (if t.type = k.closing then closeCollection t data
      else do
        let entry ← Parser.flowSeparator first context problem t
        f entry)
      (if first then flowEntry k states (typesOf (t :: ts))
      else Automaton.flowSeparator k states (typesOf (t :: ts))) := by
  have hdir : ∀ x : FlowKind, x.closing ∉ [TokenType.versionDirective, .tagDirective,
      .documentStart] := by
    intro x
    cases x <;> simp [FlowKind.closing]
  by_cases hc : t.type = k.closing
  · have hclose : Refines states (mark :: marks) ds (t :: ts) (closeCollection t data)
        (pop data.type states (typesOf ts)) := Refines.close hS (hr.tail (hc ▸ hdir k))
    rw [if_pos hc]
    have hm : (if first then flowEntry k states (typesOf (t :: ts))
        else Automaton.flowSeparator k states (typesOf (t :: ts))) =
        pop (endEvent k) states (typesOf ts) := by
      cases first <;> cases k <;>
        simp_all [FlowKind.closing, flowEntry, flowSequenceEntry, flowMappingKey,
          Automaton.flowSeparator, endEvent]
    rw [hm, ← hdata]
    exact hclose
  rw [if_neg hc]
  cases first with
  | true => exact hf t ts hr
  | false =>
    simp only [Parser.flowSeparator, Bool.false_eq_true, ↓reduceIte, typesOf, List.map_cons,
      Automaton.flowSeparator, hc]
    by_cases he : t.type = .flowEntry
    · rw [if_pos he, if_pos he]
      simp only [bind_assoc]
      have hr' := hr.tail (by simp [he])
      refine Refines.skip (Refines.peek ?_ fun t ts hw => ?_)
      · rintro rfl
        cases k <;> rfl
      · subst hw
        exact hf t ts hr'
    · rw [if_neg he, if_neg he]
      simp only [bind_assoc]
      exact Refines.popMark Refines.throw

theorem parseFlowSequenceEntry_refines {first : Bool} (hm : first = false → marks ≠ [])
    (hS : ∀ s ∈ states, Inner s) (hr : Resolves ds (opened first w)) :
    Refines states marks ds w (parseFlowSequenceEntry first)
      (flowMove .sequence first states w) := by
  have hnil (h : opened first w = []) : flowMove .sequence first states w = none := by
    unfold flowMove
    rw [h]
    cases first <;> rfl
  refine Refines.opened hm hnil fun mark marks => ?_
  refine Refines.peek hnil fun t ts hw => ?_
  rw [flowMove, hw]
  rw [hw] at hr
  refine flowSeparator_refines (k := .sequence) hS hr rfl fun t ts hr => ?_
  refine Refines.ite (fun ht => ?_) fun _ => Refines.ite (fun ht => ?_) fun _ => ?_
  · rintro p ⟨rfl, -, rfl, hw⟩
    have htail : p.source.tokens.tail = ts := by rw [hw]; rfl
    have hr' := hr.tail (by simp [ht])
    rw [← htail] at hr'
    exact ⟨_, rfl, rfl, rfl, congrArg typesOf htail, hr'⟩
  · exact Refines.close hS (hr.tail (by simp [ht]))
  · exact Refines.push (parseNode_refines (k := .flow) (inner_cons (by simp [Inner]) hS) hr)

theorem parseFlowMappingKey_refines {first : Bool} (hm : first = false → marks ≠ [])
    (hS : ∀ s ∈ states, Inner s) (hr : Resolves ds (opened first w)) :
    Refines states marks ds w (parseFlowMappingKey first) (flowMove .mapping first states w) := by
  have hnil (h : opened first w = []) : flowMove .mapping first states w = none := by
    unfold flowMove
    rw [h]
    cases first <;> rfl
  refine Refines.opened hm hnil fun mark marks => ?_
  refine Refines.peek hnil fun t ts hw => ?_
  rw [flowMove, hw]
  rw [hw] at hr
  refine flowSeparator_refines (k := .mapping) hS hr rfl fun t ts hr => ?_
  have hS' : ∀ s ∈ [ParserState.flowMappingValue, .flowMappingEmptyValue], Inner s := by
    simp [Inner]
  refine Refines.ite (fun ht => ?_) fun _ => Refines.ite (fun ht => ?_) fun _ => ?_
  · have hr' := hr.tail (by simp [ht])
    refine Refines.skip (Refines.peek (by rintro rfl; rfl) fun t ts hw => ?_)
    subst hw
    exact Refines.ite (fun _ => Refines.goto (hS' _ (by simp)) hr') fun _ =>
      Refines.push (parseNode_refines (k := .flow) (inner_cons (hS' _ (by simp)) hS) hr')
  · exact Refines.close hS (hr.tail (by simp [ht]))
  · exact Refines.push (parseNode_refines (k := .flow) (inner_cons (hS' _ (by simp)) hS) hr)

theorem parseFlowMappingEmptyValue_refines (hr : Resolves ds w) :
    Refines states marks ds w (parseFlowMappingValue true)
      (if typesOf w = [] then none else some (.scalar, ⟨.flowMappingKey, states, typesOf w⟩)) := by
  refine Refines.peek (by rintro rfl; rfl) fun t ts hw => ?_
  subst hw
  exact Refines.goto (by simp [Inner]) hr

/-! ## Documents -/

theorem cstr_cstr (b : Bytes) : cstr (cstr b) = cstr b := List.takeWhile_idem ..

theorem type_isDirective : isDirective t.type = true ↔
    (∃ major minor, t.data = .versionDirective major minor) ∨
      ∃ handle text, t.data = .tagDirective handle text := by
  unfold Token.type
  cases t.data <;> simp [TokenData.type, isDirective]

def handlesOf (ds : List TagDirective) : List Bytes := ds.map fun d => cstr d.handle

def isDirectiveToken (t : Token) : Bool := isDirective t.type

theorem typesOf_dropWhile (w : List Token) :
    typesOf (w.dropWhile isDirectiveToken) = (typesOf w).dropWhile isDirective :=
  (List.dropWhile_map ..).symm

/-- A document may start here: what is declared for it follows. -/
def Heads (version : Bool) (handles : List Bytes) (w : List Token) : Prop :=
  (∀ t ts, w = t :: ts → isDirective t.type = true ∨ t.type = .documentStart) →
    Declared true version handles w

/-- The loop over the directives takes them all, and each of their handles is then declared. -/
theorem scanDirectives_refines : ∀ (fuel : Nat) (version : Option VersionDirective)
    (directives : List TagDirective) (token : Token) (ts : List Token) (ds : List TagDirective),
    ts.length < fuel → Heads version.isSome (handlesOf ds) (token :: ts) →
    Holds (At states marks ds (token :: ts)) (scanDirectives fuel version directives token)
      (fun _ p => ∃ ds' w' v, At states marks ds' w' p ∧
        w' = (token :: ts).dropWhile isDirectiveToken ∧ Heads v (handlesOf ds') w')
      fun _ _ => (token :: ts).dropWhile isDirectiveToken = []
  | 0, _, _, _, _, _, h, _ => by omega
  | fuel + 1, version, directives, token, ts, ds, hf, hd => by
    have hhead (hdir : isDirective token.type = true) :
        Declared true version.isSome (handlesOf ds) (token :: ts) :=
      hd fun t ts' he => Or.inl ((List.cons.inj he).1 ▸ hdir)
    unfold Parser.scanDirectives
    split
    · rename_i major minor ht
      have hdir : isDirective token.type = true := type_isDirective.mpr (Or.inl ⟨_, _, ht⟩)
      have hd := hhead hdir
      simp only [Declared, ht] at hd
      obtain ⟨hv, hmaj, hmin, hd⟩ := hd
      rw [if_neg (by simpa using hv), if_neg (by simp [hmaj]; omega)]
      refine skip_peek_at (by rintro rfl; simp [isDirectiveToken, hdir]) ?_
      rintro next rest rfl
      have ih := scanDirectives_refines fuel (some ⟨major, minor⟩) directives next rest ds
        (by simp at hf; omega) fun _ => by simpa using hd
      refine ih.weaken (fun _ h => h) (fun _ _ h => ?_) fun _ _ h => ?_
      · simpa [isDirectiveToken, hdir] using h
      · simpa [isDirectiveToken, hdir] using h
    · rename_i handle text ht
      have hdir : isDirective token.type = true := type_isDirective.mpr (Or.inr ⟨_, _, ht⟩)
      have hd := hhead hdir
      simp only [Declared, ht, ↓reduceIte, Bool.true_and] at hd
      obtain ⟨hnew, hd⟩ := hd
      have happend : Holds (At states marks ds (token :: ts))
          (appendTagDirective ⟨handle, text⟩ false token.startMark)
          (fun _ => At states marks (ds ++ [⟨cstr handle, cstr text⟩]) (token :: ts))
          fun _ _ => False := by
        rintro p ⟨hs, hm, rfl, hw⟩
        have hany : (p.tagDirectives.any fun d => cstr handle = cstr d.handle) = false := by
          simp only [handlesOf, List.mem_map, not_exists, not_and] at hnew
          simp only [List.any_eq_false, decide_eq_true_eq]
          exact fun d hd he => hnew d hd he.symm
        simp only [appendTagDirective, hany, Bool.false_eq_true, ↓reduceIte]
        exact ⟨hs, hm, rfl, hw⟩
      refine (happend.weaken (fun _ h => h) (fun _ _ h => h) fun _ _ h => h.elim).bind fun _ => ?_
      refine skip_peek_at (by rintro rfl; simp [isDirectiveToken, hdir]) ?_
      rintro next rest rfl
      have ih := scanDirectives_refines fuel version (directives ++ [⟨handle, text⟩]) next rest
        (ds ++ [⟨cstr handle, cstr text⟩]) (by simp at hf; omega)
        fun _ => by simpa [handlesOf, cstr_cstr] using hd
      refine ih.weaken (fun _ h => h) (fun _ _ h => ?_) fun _ _ h => ?_
      · simpa [isDirectiveToken, hdir] using h
      · simpa [isDirectiveToken, hdir] using h
    · rename_i hv ht
      have hdir : ¬isDirective token.type = true := by
        rw [type_isDirective]
        rintro (⟨_, _, h⟩ | ⟨_, _, h⟩)
        · exact hv _ _ h
        · exact ht _ _ h
      refine Holds.pure fun p hp => ⟨ds, _, _, hp, ?_, hd⟩
      simp [isDirectiveToken, hdir]

/-- Every default directive is declared in the end, by the document or by default. -/
theorem appendDefaultTagDirectives_refines (mark : Mark) {E : Fault → Parser TokenList → Prop} :
    ∀ (defaults ds : List TagDirective), Holds (At states marks ds w)
      (appendDefaultTagDirectives mark defaults)
      (fun _ p => ∃ ds', At states marks ds' w p ∧ ∀ h, h ∈ handlesOf ds ∨ h ∈ handlesOf defaults →
        h ∈ handlesOf ds') E
  | [], ds => Holds.pure fun p hp => ⟨ds, hp, by simp [handlesOf]⟩
  | d :: defaults, ds => by
    have happend : Holds (At states marks ds w) (appendTagDirective d true mark)
        (fun _ p => ∃ ds', At states marks ds' w p ∧ ∀ h, h ∈ handlesOf ds ∨ h = cstr d.handle →
          h ∈ handlesOf ds') E := by
      rintro p ⟨hs, hm, rfl, hw⟩
      by_cases hany : (p.tagDirectives.any fun d' => cstr d.handle = cstr d'.handle) = true
      · simp only [appendTagDirective, hany, ↓reduceIte]
        refine ⟨_, ⟨hs, hm, rfl, hw⟩, ?_⟩
        rintro h (hh | rfl)
        · exact hh
        · obtain ⟨d', hd', he⟩ := List.any_eq_true.mp hany
          exact List.mem_map.mpr ⟨d', hd', (of_decide_eq_true he).symm⟩
      · simp only [appendTagDirective, hany, Bool.false_eq_true, ↓reduceIte]
        refine ⟨_, ⟨hs, hm, rfl, hw⟩, ?_⟩
        rintro h (hh | rfl)
        · simp only [handlesOf, List.map_append, List.mem_append]
          exact Or.inl hh
        · simp [handlesOf, cstr_cstr]
    refine happend.bind fun _ p hp => ?_
    obtain ⟨ds', hat, hds'⟩ := hp
    refine ((appendDefaultTagDirectives_refines mark defaults ds').weaken (fun _ h => h)
      (fun _ _ h => ?_) fun _ _ h => h) p hat
    obtain ⟨ds'', hat', hds''⟩ := h
    refine ⟨ds'', hat', fun h hh => hds'' h ?_⟩
    rcases hh with hh | hh
    · exact Or.inl (hds' h (Or.inl hh))
    · rcases List.mem_cons.mp hh with rfl | hh
      · exact Or.inl (hds' _ (Or.inr rfl))
      · exact Or.inr hh

/-- Everything in `handles`, and every default handle, is declared by `ds`. -/
def Covers (handles : List Bytes) (ds : List TagDirective) : Prop :=
  ∀ h, h ∈ handles ∨ h ∈ defaultHandles → ∃ d ∈ ds, cstr d.handle = h

/-- The directives of a document, and what is declared behind them. -/
theorem processDirectives_refines {fuel : Nat} (hf : ts.length < fuel)
    (hd : Heads false [] (t :: ts)) :
    Holds (At states marks [] (t :: ts)) (processDirectives fuel)
      (fun _ p => ∃ ds' w' handles v, At states marks ds' w' p ∧
        w' = (t :: ts).dropWhile isDirectiveToken ∧ Heads v handles w' ∧ Covers handles ds')
      fun _ _ => (t :: ts).dropWhile isDirectiveToken = [] := by
  unfold processDirectives
  refine (peekToken_at.weaken (fun _ h => h) (fun _ _ h => h) fun _ _ h => by cases h).bind
    fun token p hp => ?_
  obtain ⟨ts', hts, hat⟩ := hp
  obtain ⟨rfl, rfl⟩ := List.cons.inj hts
  refine ((scanDirectives_refines fuel none [] _ _ [] hf hd).bind fun out q hq => ?_) p hat
  obtain ⟨ds', w', v, hat', hw', hd'⟩ := hq
  refine ((appendDefaultTagDirectives_refines out.2.2.startMark defaultTagDirectives ds').bind
    fun _ => Holds.pure ?_) q hat'
  rintro q' ⟨ds'', hat'', hall⟩
  refine ⟨ds'', w', _, v, hat'', hw', hd', fun h hh => ?_⟩
  simpa [handlesOf] using hall h hh

theorem Declared.heads {handles : List Bytes} {version : Bool}
    (h : Declared false version handles (t :: ts)) : Heads false [] (t :: ts) := by
  intro hhead
  rcases hhead t ts rfl with hdir | hdoc
  · rcases type_isDirective.mp hdir with ⟨_, _, hd⟩ | ⟨_, _, hd⟩
    · simpa [Declared, hd] using h
    · simpa [Declared, hd] using h
  · have hd : t.data = .documentStart := by
      unfold Token.type at hdoc
      cases hd : t.data <;> simp_all [TokenData.type]
    simpa [Declared, hd] using h

theorem Heads.resolves {handles : List Bytes} {version : Bool} (h : Heads version handles (t :: ts))
    (ht : t.type = .documentStart) (hc : Covers handles ds) : Resolves ds ts := by
  have hd : t.data = .documentStart := by
    unfold Token.type at ht
    cases hd : t.data <;> simp_all [TokenData.type]
  have hdecl := h fun t' ts' he => Or.inr ((List.cons.inj he).1 ▸ ht)
  simp only [Declared, hd, ↓reduceIte] at hdecl
  exact ⟨handles, hdecl, hc⟩

theorem parseExplicitDocumentStart_refines {fuel : Nat} (hf : ts.length < fuel)
    (hd : Heads false [] (t :: ts)) (first : Token) (ht : t.type ≠ .streamEnd) :
    Refines states marks [] (t :: ts) (parseExplicitDocumentStart fuel first)
      (documentStart states (typesOf (t :: ts))) := by
  have htypes : typesOf (t :: ts) = t.type :: typesOf ts := rfl
  rw [htypes, documentStart, if_neg ht, ← htypes, ← typesOf_dropWhile]
  unfold parseExplicitDocumentStart
  refine ((processDirectives_refines hf hd).weaken (fun _ h => h) (fun _ _ h => h)
    fun _ _ h => by rw [h]; rfl).bind fun out p hp => ?_
  obtain ⟨ds', w', handles, v, hat, hw', hheads, hc⟩ := hp
  rw [← hw']
  revert p
  refine Refines.peek (by rintro rfl; rfl) fun t' ts' hw'' => ?_
  subst hw''
  by_cases hdoc : t'.type = .documentStart
  · rw [if_pos hdoc]
    refine Refines.push fun p hp => ?_
    obtain ⟨hs, -, rfl, hw⟩ := hp
    have htail : p.source.tokens.tail = ts' := by rw [hw]; rfl
    have hr := hheads.resolves hdoc hc
    rw [← htail] at hr
    refine ⟨⟨.documentContent, .documentEnd :: states, typesOf ts'⟩, ?_, rfl, hs,
      congrArg typesOf htail, hr⟩
    simp [hdoc, Event.type, EventData.type]
  · rw [if_neg hdoc]
    simp only [typesOf, List.map_cons]
    split
    · rename_i he
      exact absurd (List.cons.inj he).1 hdoc
    · exact Refines.throw

theorem parseStreamEnd_refines (ht : t.type = .streamEnd) :
    Refines states marks ds (t :: ts) (parseStreamEnd t)
      (documentStart states (typesOf (t :: ts))) := by
  have hmove : documentStart states (typesOf (t :: ts)) =
      some (.streamEnd, ⟨.end, states, typesOf ts⟩) := if_pos ht
  rw [hmove]
  rintro p ⟨hs, hm, hd, hw⟩
  have htail : p.source.tokens.tail = ts := by rw [hw]; rfl
  exact ⟨_, rfl, rfl, hs, congrArg typesOf htail, trivial⟩

/-- The two branches that do not depend on how the document starts. -/
theorem parseDocumentStart_tail {fuel : Nat} (hf : ts.length < fuel)
    (hd : Heads false [] (t :: ts)) :
    Refines states marks [] (t :: ts)
      (if t.type ≠ .streamEnd then parseExplicitDocumentStart fuel t else parseStreamEnd t)
      (documentStart states (typesOf (t :: ts))) := by
  by_cases ht : t.type = .streamEnd
  · rw [if_neg (by simpa using ht)]
    exact parseStreamEnd_refines ht
  · rw [if_pos ht]
    exact parseExplicitDocumentStart_refines hf hd t ht

theorem implicitDocumentStart_refines {fuel : Nat} (hf : w.length < fuel + 1)
    (hd : Declared false false [] w) :
    Refines states marks [] w (parseDocumentStart fuel true)
      (implicitDocumentStart states (typesOf w)) := by
  refine Refines.peek (by rintro rfl; rfl) fun t ts hw => ?_
  subst hw
  have hf' : ts.length < fuel := by simpa using hf
  simp only [↓reduceIte, pure_bind, true_and, typesOf, List.map_cons, implicitDocumentStart]
  by_cases ht : t.type ∈ [TokenType.versionDirective, .tagDirective, .documentStart, .streamEnd]
  · rw [if_neg (by simp at ht; grind), if_pos ht]
    exact parseDocumentStart_tail hf' hd.heads
  · rw [if_pos (by simpa using ht), if_neg ht]
    unfold parseImplicitDocumentStart
    have hdir : (t :: ts).dropWhile isDirectiveToken = t :: ts := by
      have : ¬isDirectiveToken t = true := by
        simp only [isDirectiveToken, isDirective]
        simp at ht
        simp [ht]
      simp [this]
    refine ((processDirectives_refines hf' hd.heads).weaken (fun _ h => h) (fun _ _ h => h)
      fun _ _ h => ?_).bind fun out p hp => ?_
    · rw [hdir] at h
      cases h
    · obtain ⟨ds', w', handles, v, hat, rfl, -, hc⟩ := hp
      rw [hdir] at hat
      have hr : Resolves ds' (t :: ts) := ⟨[], hd, fun h hh => hc h (Or.inr (by simpa using hh))⟩
      have hinner : Inner .blockNode := by simp [Inner]
      have hgoto : Refines (.documentEnd :: states) marks ds' (t :: ts)
          (do
            setState .blockNode
            return ⟨.documentStart none [] true, t.startMark, t.startMark⟩)
          (some (.documentStart, ⟨.blockNode, .documentEnd :: states, typesOf (t :: ts)⟩)) :=
        Refines.goto hinner hr
      exact (Refines.push (f := fun _ => do
        setState .blockNode
        return ⟨.documentStart none [] true, t.startMark, t.startMark⟩) hgoto) p hat

theorem skipDocumentEnds_refines : ∀ (fuel : Nat) (token : Token) (ts : List Token),
    ts.length < fuel → (∃ handles, Declared false false handles (token :: ts)) →
    Holds (At states marks ds (token :: ts)) (skipDocumentEnds fuel token)
      (fun t p => ∃ ts', At states marks ds (t :: ts') p ∧ ts'.length ≤ ts.length ∧
        typesOf (t :: ts') = (typesOf (token :: ts)).dropWhile (· = .documentEnd) ∧
        ∃ handles, Declared false false handles (t :: ts'))
      fun _ _ => (typesOf (token :: ts)).dropWhile (· = .documentEnd) = []
  | 0, _, _, h, _ => by omega
  | fuel + 1, token, ts, hf, hd => by
    unfold skipDocumentEnds
    by_cases ht : token.type = .documentEnd
    · rw [if_pos ht]
      refine skip_peek_at (by rintro rfl; simp [ht]) ?_
      rintro next rest rfl
      have hd' : ∃ handles, Declared false false handles (next :: rest) := by
        obtain ⟨handles, hd⟩ := hd
        have htd : token.data = .documentEnd := by
          unfold Token.type at ht
          cases hd : token.data <;> simp_all [TokenData.type]
        refine ⟨handles, ?_⟩
        rw [Declared] at hd
        simpa only [htd] using hd
      have ih := skipDocumentEnds_refines fuel next rest (by simp at hf; omega) hd'
      refine ih.weaken (fun _ h => h) (fun _ _ h => ?_) fun _ _ h => ?_
      · obtain ⟨ts', hat, hlen, hty, hdecl⟩ := h
        exact ⟨ts', hat, by simp; omega, by simpa [ht] using hty, hdecl⟩
      · simpa [ht] using h
    · rw [if_neg ht]
      exact Holds.pure fun p hp => ⟨ts, hp, le_rfl, by simp [ht], hd⟩

theorem documentStart_refines {fuel : Nat} (hf : w.length < fuel + 1)
    (hd : ∃ handles, Declared false false handles w) :
    Refines states marks [] w (parseDocumentStart fuel false)
      (documentStart states ((typesOf w).dropWhile (· = .documentEnd))) := by
  refine Refines.peek (by rintro rfl; rfl) fun t ts hw => ?_
  subst hw
  have hf' : ts.length < fuel := by simpa using hf
  simp only [Bool.false_eq_true, ↓reduceIte, false_and]
  refine ((skipDocumentEnds_refines fuel t ts hf' hd).weaken (fun _ h => h) (fun _ _ h => h)
    fun _ _ h => by rw [h]; rfl).bind fun t' p hp => ?_
  obtain ⟨ts', hat, hlen, hty, handles, hdecl⟩ := hp
  rw [← hty]
  exact parseDocumentStart_tail (by omega) hdecl.heads p hat

theorem parseDocumentContent_refines (hS : ∀ s ∈ states, Inner s) (hr : Resolves ds w) :
    Refines states marks ds w parseDocumentContent (documentContent states (typesOf w)) := by
  refine Refines.peek (by rintro rfl; rfl) fun t ts hw => ?_
  subst hw
  exact Refines.ite (fun _ => Refines.pop hS hr) fun _ => parseNode_refines (k := .block) hS hr

theorem parseDocumentEnd_refines (hr : Resolves ds w) :
    Refines states marks ds w parseDocumentEnd (documentEnd states (typesOf w)) := by
  refine Refines.peek (by rintro rfl; rfl) fun t ts hw => ?_
  subst hw
  simp only [typesOf, List.map_cons, documentEnd]
  by_cases ht : t.type = .documentEnd
  · rw [if_pos ht, if_pos ht]
    refine Refines.skip ?_
    rintro p ⟨hs, hm, hd, hw⟩
    obtain ⟨handles, hdecl, -⟩ := hr.tail (by simp [ht])
    exact ⟨_, rfl, rfl, hs, congrArg typesOf hw, rfl, handles, hw ▸ hdecl⟩
  · rw [if_neg ht, if_neg ht]
    rintro p ⟨hs, hm, hd, hw⟩
    obtain ⟨handles, hdecl, -⟩ := hr
    exact ⟨_, rfl, rfl, hs, congrArg typesOf hw, rfl, handles, hw ▸ hdecl⟩

theorem parseStreamStart_refines (hd : Declared false false [] w) :
    Refines states marks [] w parseStreamStart (streamStart states (typesOf w)) := by
  refine Refines.peek (by rintro rfl; rfl) fun t ts hw => ?_
  subst hw
  simp only [typesOf, List.map_cons, streamStart]
  split
  · rename_i encoding ht
    have hty : t.type = .streamStart := by simp [Token.type, ht, TokenData.type]
    rw [if_pos hty]
    rintro p ⟨hs, hm, hds, hw⟩
    have htail : p.source.tokens.tail = ts := by rw [hw]; rfl
    rw [Declared] at hd
    simp only [ht] at hd
    rw [← htail] at hd
    exact ⟨_, rfl, rfl, hs, congrArg typesOf htail, hds, hd⟩
  · rename_i ht
    have hty : t.type ≠ .streamStart := by
      unfold Token.type
      cases hd : t.data <;> simp_all [TokenData.type]
    rw [if_neg hty]
    exact Refines.throw

end Rules

theorem stack_inner : ∀ {states : List ParserState}, Automaton.Stack states → ∀ s ∈ states, Inner s
  | [], _ => by simp
  | s :: states, .push hs _ h => by
    refine inner_cons ?_ (stack_inner h)
    refine ⟨?_, ?_, ?_, ?_⟩ <;> rintro rfl <;> exact hs rfl

theorem Env.resolves {p : Parser TokenList} (h : Env p) (hs : Inner p.state) :
    Resolves p.tagDirectives p.source.tokens := by
  unfold Env at h
  split at h
  · exact absurd ‹_› hs.1
  · exact absurd ‹_› hs.2.1
  · exact absurd ‹_› hs.2.2.1
  · exact absurd ‹_› hs.2.2.2
  · exact h

/-- What a state has still to skip is a token that opened a collection. -/
theorem Resolves.opened {ds : List TagDirective} {w : List Token} (h : Resolves ds w)
    {first : Bool} {t : TokenType} (ht : t ∉ [TokenType.versionDirective, .tagDirective,
      .documentStart]) (hw : first = true → (typesOf w).head? = some t) :
    Resolves ds (Parser.opened first w) := by
  cases first with
  | false => exact h
  | true =>
    obtain ⟨v, hv⟩ := List.head?_eq_some_iff.mp (hw rfl)
    obtain ⟨t', ts, rfl, rfl, -⟩ := List.map_eq_cons_iff.mp hv
    exact h.tail ht

/-- A call does what the automaton does. -/
theorem stateMachine_refines {fuel : Nat} {c : Config} {p : Parser TokenList} (h : Shows c p)
    (hv : c.Valid) (hm : ownedMarks c.state = 1 → p.marks ≠ [])
    (hf : p.source.tokens.length < fuel) :
    Holds (· = p) (stateMachine fuel) (fun e p' => ∃ c', step c = some (e.type, c') ∧ Shows c' p')
      fun _ _ => step c = none := by
  obtain ⟨state, states, tokens⟩ := c
  obtain ⟨hstate, rfl, rfl, henv⟩ := h
  have hS := stack_inner hv.stack
  have hres (hs : Inner state) : Resolves p.tagDirectives p.source.tokens :=
    henv.resolves (hstate ▸ hs)
  have hf' : p.source.tokens.length < fuel + 1 := by omega
  simp only [Env, hstate] at henv
  have hopened (first : Bool) {t : TokenType} (hs : Inner state)
      (ht : t ∉ [TokenType.versionDirective, .tagDirective, .documentStart])
      (hw : first = true → opener state = some t) :
      Resolves p.tagDirectives (opened first p.source.tokens) :=
    (hres hs).opened ht fun hfirst => hv.opens t (hw hfirst)
  have htail : typesOf (opened true p.source.tokens) = (typesOf p.source.tokens).tail := by
    simp [Parser.opened]
  unfold stateMachine
  refine Holds.bind (Q := fun q p' => q.state = state ∧ p' = p)
    (Holds.get fun q hq => ⟨hq ▸ hstate, hq⟩) fun q => ?_
  rintro p' ⟨hq, hp'⟩
  have hat : At p.states p.marks p.tagDirectives p.source.tokens p' := by
    rw [hp']
    exact ⟨rfl, rfl, rfl, rfl⟩
  clear hp'
  rw [hq]
  revert p'
  cases state with
  | streamStart =>
    rw [henv.1]
    exact parseStreamStart_refines henv.2
  | implicitDocumentStart =>
    rw [henv.1]
    exact implicitDocumentStart_refines hf' henv.2
  | documentStart =>
    rw [henv.1]
    exact documentStart_refines hf' henv.2
  | documentContent => exact parseDocumentContent_refines hS henv
  | documentEnd => exact parseDocumentEnd_refines henv
  | blockNode => exact parseNode_refines (k := .block) hS henv
  | blockNodeOrIndentlessSequence => exact parseNode_refines (k := .blockOrIndentless) hS henv
  | flowNode => exact parseNode_refines (k := .flow) hS henv
  | blockSequenceFirstEntry =>
    have : Refines p.states p.marks _ _ _ _ := parseBlockSequenceEntry_refines (by simp) hS
      (hopened true (t := .blockSequenceStart) (by simp [Inner]) (by simp) fun _ => rfl)
    rwa [htail] at this
  | blockSequenceEntry => exact parseBlockSequenceEntry_refines (fun _ => hm rfl) hS henv
  | indentlessSequenceEntry => exact parseIndentlessSequenceEntry_refines hS henv
  | blockMappingFirstKey =>
    have : Refines p.states p.marks _ _ _ _ := parseBlockMappingKey_refines (by simp) hS
      (hopened true (t := .blockMappingStart) (by simp [Inner]) (by simp) fun _ => rfl)
    rwa [htail] at this
  | blockMappingKey => exact parseBlockMappingKey_refines (fun _ => hm rfl) hS henv
  | blockMappingValue => exact parseBlockMappingValue_refines hS henv
  | flowSequenceFirstEntry =>
    have : Refines p.states p.marks _ _ _ _ := parseFlowSequenceEntry_refines (by simp) hS
      (hopened true (t := .flowSequenceStart) (by simp [Inner]) (by simp) fun _ => rfl)
    rwa [flowMove, if_pos rfl, htail] at this
  | flowSequenceEntry => exact parseFlowSequenceEntry_refines (fun _ => hm rfl) hS henv
  | flowSequenceEntryMappingKey => exact parseFlowSequenceEntryMappingKey_refines hS henv
  | flowSequenceEntryMappingValue =>
    exact parseFlowValue_refines (inner_cons (by simp [Inner]) hS) henv
  | flowSequenceEntryMappingEnd => exact parseFlowSequenceEntryMappingEnd_refines henv
  | flowMappingFirstKey =>
    have : Refines p.states p.marks _ _ _ _ := parseFlowMappingKey_refines (by simp) hS
      (hopened true (t := .flowMappingStart) (by simp [Inner]) (by simp) fun _ => rfl)
    rwa [flowMove, if_pos rfl, htail] at this
  | flowMappingKey => exact parseFlowMappingKey_refines (fun _ => hm rfl) hS henv
  | flowMappingValue => exact parseFlowValue_refines (inner_cons (by simp [Inner]) hS) henv
  | flowMappingEmptyValue => exact parseFlowMappingEmptyValue_refines henv
  | «end» => exact Refines.throw (f := .silent)

end Parser

end LibYaml
