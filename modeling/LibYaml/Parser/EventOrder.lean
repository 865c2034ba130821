import LibYaml.Parser.EventGrammar

/-!
# Events come in grammatical order

Every call keeps the machine's stacks well formed and delivers an event that the grammar allows
next (`stateMachine_spec`), whatever the tokens are.  A run's events are therefore a prefix of a
word of the grammar, and no stack is popped when it is empty.
-/

namespace LibYaml

namespace Parser

open Fallible EventGrammar

variable {σ : Type}

/-- The states that are pushed while a node is parsed. -/
def continuing : List ParserState :=
  [.blockSequenceEntry, .indentlessSequenceEntry, .blockMappingKey, .blockMappingValue,
   .flowSequenceEntry, .flowSequenceEntryMappingValue, .flowSequenceEntryMappingEnd,
   .flowMappingKey, .flowMappingValue, .flowMappingEmptyValue]

/-- The marks of open collections that a state accounts for. -/
def ownedMarks : ParserState → Nat
  | .blockSequenceEntry | .blockMappingKey | .blockMappingValue
  | .flowSequenceEntry | .flowSequenceEntryMappingKey | .flowSequenceEntryMappingValue
  | .flowSequenceEntryMappingEnd
  | .flowMappingKey | .flowMappingValue | .flowMappingEmptyValue => 1
  | _ => 0

/-- A stack of states inside a document, with the number of marks its collections own. -/
inductive Stack : List ParserState → Nat → Prop
  | document : Stack [.documentEnd] 0
  | push {s : ParserState} {states : List ParserState} {n : Nat} (hs : s ∈ continuing)
      (h : Stack states n) : Stack (s :: states) (n + ownedMarks s)

theorem Stack.push_zero {s : ParserState} {states : List ParserState} {n : Nat}
    (hs : s ∈ continuing) (ho : ownedMarks s = 0) (h : Stack states n) : Stack (s :: states) n := by
  have := Stack.push hs h
  rwa [ho] at this

theorem Stack.push_one {s : ParserState} {states : List ParserState} {n : Nat}
    (hs : s ∈ continuing) (ho : ownedMarks s = 1) (h : Stack states n) :
    Stack (s :: states) (n + 1) := by
  have := Stack.push hs h
  rwa [ho] at this

/-- The states between nodes: no document is open, or its root node is complete. -/
def outer : List ParserState :=
  [.streamStart, .implicitDocumentStart, .documentStart, .documentEnd, .end]

/-- The state, the stack of states and the marks fit together. -/
def WellFormed (state : ParserState) (states : List ParserState) (marks : List Mark) : Prop :=
  (state ∈ outer ∧ states = [] ∧ marks = []) ∨
    (state ∉ outer ∧ ∃ n, Stack states n ∧ marks.length = n + ownedMarks state)

/-- The control part of a parser. -/
def Ctl (state : ParserState) (states : List ParserState) (marks : List Mark) (p : Parser σ) :
    Prop :=
  p.state = state ∧ p.states = states ∧ p.marks = marks

/-- `e` is an event that `K` allows next, and `p` allows after it what `K` does. -/
def Delivers (K : List EventType → Prop) (e : Event) (p : Parser σ) : Prop :=
  e.type ≠ .noEvent ∧ WellFormed p.state p.states p.marks ∧
    ∀ w, After p.state (Follows p.states) w → K (e.type :: w)

/-- The computation neither read outside a stack nor failed without a problem. -/
def Defined (f : Fault) (_ : Parser σ) : Prop := f ≠ .undefined ∧ f ≠ .silent

section Stacks

variable {state s : ParserState} {states : List ParserState} {marks : List Mark}

theorem setState_spec : Holds (Ctl (σ := σ) state states marks) (setState s)
    (fun _ => Ctl s states marks) Defined :=
  fun _ ⟨_, hs, hm⟩ => ⟨rfl, hs, hm⟩

theorem pushState_spec : Holds (Ctl (σ := σ) state states marks) (pushState s)
    (fun _ => Ctl state (s :: states) marks) Defined :=
  fun _ ⟨h, hs, hm⟩ => ⟨h, congrArg (s :: ·) hs, hm⟩

theorem popState_spec : Holds (Ctl (σ := σ) state (s :: states) marks) popState
    (fun _ => Ctl s states marks) Defined := by
  intro p ⟨_, hs, hm⟩
  simp only [popState, hs]
  exact ⟨rfl, rfl, hm⟩

theorem pushMark_spec {m : Mark} : Holds (Ctl (σ := σ) state states marks) (pushMark m)
    (fun _ => Ctl state states (m :: marks)) Defined :=
  fun _ ⟨h, hs, hm⟩ => ⟨h, hs, congrArg (m :: ·) hm⟩

theorem popMark_spec {m : Mark} : Holds (Ctl (σ := σ) state states (m :: marks)) popMark
    (fun _ => Ctl state states marks) Defined := by
  intro p ⟨h, hs, hm⟩
  simp only [popMark, hm]
  exact ⟨h, hs, rfl⟩

theorem pure_spec {K : List EventType → Prop} {e : Event} (he : e.type ≠ .noEvent)
    (hw : WellFormed state states marks)
    (h : ∀ w, After state (Follows states) w → K (e.type :: w)) :
    Holds (Ctl (σ := σ) state states marks) (pure e) (Delivers K) Defined := by
  rintro p ⟨rfl, rfl, rfl⟩
  exact ⟨he, hw, h⟩

end Stacks

theorem Stack.ne_nil {states : List ParserState} {n : Nat} (h : Stack states n) : states ≠ [] := by
  cases h <;> simp

/-- What is left once the stack is popped is well formed. -/
theorem Stack.popped {s : ParserState} {states : List ParserState} {n : Nat} {marks : List Mark}
    (h : Stack (s :: states) n) (hm : marks.length = n) : WellFormed s states marks := by
  cases h with
  | document => exact Or.inl ⟨by simp [outer], rfl, List.eq_nil_of_length_eq_zero hm⟩
  | push hs h =>
    refine Or.inr ⟨?_, _, h, hm⟩
    simp only [continuing, List.mem_cons, List.not_mem_nil, or_false] at hs
    rcases hs with rfl | rfl | rfl | rfl | rfl | rfl | rfl | rfl | rfl | rfl <;> simp [outer]

section NoSource

variable {state s : ParserState} {states : List ParserState} {marks : List Mark} {n : Nat}
  {K : List EventType → Prop}

/-- Anything that leaves the control part alone. -/
def Frame {α : Type} (x : ParseM σ α) : Prop :=
  ∀ state states marks, Holds (Ctl state states marks) x (fun _ => Ctl state states marks) Defined

theorem Frame.bind {α β : Type} {x : ParseM σ α} {f : α → ParseM σ β} (hx : Frame x)
    (hf : ∀ a, Frame (f a)) : Frame (x >>= f) :=
  fun state states marks => (hx state states marks).bind fun a => hf a state states marks

theorem Frame.pure {α : Type} (a : α) : Frame (σ := σ) (pure a) :=
  fun _ _ _ => Holds.pure fun _ h => h

theorem Frame.throw {α : Type} {f : Fault} (hf : f ≠ .undefined ∧ f ≠ .silent) :
    Frame (σ := σ) (α := α) (throw f) :=
  fun _ _ _ => Holds.throw fun _ _ => hf

theorem Frame.appendTagDirective (d : TagDirective) (dup : Bool) (mark : Mark) :
    Frame (σ := σ) (appendTagDirective d dup mark) := by
  intro state states marks p hp
  unfold Parser.appendTagDirective
  split_ifs
  · exact hp
  · simp [Defined, parserError]
  · exact hp

theorem Frame.appendDefaultTagDirectives (mark : Mark) :
    ∀ ds, Frame (σ := σ) (appendDefaultTagDirectives mark ds)
  | [] => .pure _
  | d :: ds => (Frame.appendTagDirective d true mark).bind fun _ =>
      Frame.appendDefaultTagDirectives mark ds

theorem Frame.resolveTag (props : Properties) : Frame (σ := σ) (resolveTag props) := by
  intro state states marks p hp
  unfold Parser.resolveTag
  rcases props.tag with _ | ⟨handle, suffix⟩
  · exact hp
  · simp only []
    by_cases hh : cstr handle = []
    · simp only [hh, ↓reduceIte]
      exact hp
    · simp only [hh, ↓reduceIte]
      cases p.tagDirectives.find? (fun d => cstr d.handle = cstr handle) with
      | some d => exact hp
      | none => simp [Defined, parserErrorContext]

theorem popState_pure_spec {e : Event} (hS : Stack states n) (hm : marks.length = n)
    (he : e.type ≠ .noEvent) (h : ∀ w, Follows states w → K (e.type :: w)) :
    Holds (Ctl (σ := σ) state states marks) (do popState; pure e) (Delivers K) Defined := by
  obtain ⟨s, rest, rfl⟩ := List.exists_cons_of_ne_nil hS.ne_nil
  exact popState_spec.bind fun _ => pure_spec he (hS.popped hm) h

theorem setState_pure_spec {e : Event} (hS : Stack states n)
    (hm : marks.length = n + ownedMarks s) (hs : s ∉ outer) (he : e.type ≠ .noEvent)
    (h : ∀ w, After s (Follows states) w → K (e.type :: w)) :
    Holds (Ctl (σ := σ) state states marks) (do setState s; pure e) (Delivers K) Defined :=
  setState_spec.bind fun _ => pure_spec he (Or.inr ⟨hs, n, hS, hm⟩) h

end NoSource

section Source

variable [TokenSource σ]

/-- Fetching a token neither reads outside a queue nor fails without a problem. -/
def Sound (σ : Type) [TokenSource σ] : Prop :=
  ∀ (s t : σ) (f : Fault), TokenSource.peek (σ := σ) s = .error f t → f ≠ .undefined ∧ f ≠ .silent

variable (hσ : Sound σ) {state s : ParserState} {states : List ParserState} {marks : List Mark}
  {n : Nat} {K : List EventType → Prop}

include hσ in
theorem peekToken_spec : Holds (Ctl (σ := σ) state states marks) peekToken
    (fun _ => Ctl state states marks) Defined := by
  intro p hp
  simp only [peekToken]
  cases h : TokenSource.peek p.source with
  | ok t s => exact hp
  | error f s => exact hσ _ _ _ h

theorem skipToken_spec : Holds (Ctl (σ := σ) state states marks) skipToken
    (fun _ => Ctl state states marks) Defined :=
  fun _ hp => hp

theorem Frame.skipToken : Frame (σ := σ) skipToken := fun _ _ _ => skipToken_spec

include hσ in
theorem Frame.peekToken : Frame (σ := σ) peekToken := fun _ _ _ => peekToken_spec hσ

include hσ in
theorem Frame.scanDirectives : ∀ (fuel : Nat) (version : Option VersionDirective)
    (directives : List TagDirective) (token : Token),
    Frame (σ := σ) (scanDirectives fuel version directives token)
  | 0, _, _, _ => .throw (by simp)
  | fuel + 1, version, directives, token => by
    unfold Parser.scanDirectives
    split
    · split_ifs
      · exact .throw (by simp [parserError])
      · exact .throw (by simp [parserError])
      · exact Frame.skipToken.bind fun _ => (Frame.peekToken hσ).bind fun _ =>
          Frame.scanDirectives fuel _ _ _
    · exact (Frame.appendTagDirective _ _ _).bind fun _ => Frame.skipToken.bind fun _ =>
        (Frame.peekToken hσ).bind fun _ => Frame.scanDirectives fuel _ _ _
    · exact .pure _

include hσ in
theorem Frame.processDirectives (fuel : Nat) : Frame (σ := σ) (processDirectives fuel) :=
  (Frame.peekToken hσ).bind fun _ => (Frame.scanDirectives hσ fuel _ _ _).bind fun _ =>
    (Frame.appendDefaultTagDirectives _ _).bind fun _ => .pure _

include hσ in
theorem Frame.skipDocumentEnds : ∀ (fuel : Nat) (token : Token),
    Frame (σ := σ) (skipDocumentEnds fuel token)
  | 0, _ => .throw (by simp)
  | fuel + 1, token => by
    unfold Parser.skipDocumentEnds
    split_ifs
    · exact Frame.skipToken.bind fun _ => (Frame.peekToken hσ).bind fun _ =>
        Frame.skipDocumentEnds fuel _
    · exact .pure _

include hσ in
theorem Frame.parseProperties (token : Token) : Frame (σ := σ) (parseProperties token) := by
  unfold Parser.parseProperties
  split
  · refine Frame.skipToken.bind fun _ => (Frame.peekToken hσ).bind fun next => ?_
    split
    · exact Frame.skipToken.bind fun _ => (Frame.peekToken hσ).bind fun _ => .pure _
    · exact .pure _
  · refine Frame.skipToken.bind fun _ => (Frame.peekToken hσ).bind fun next => ?_
    split
    · exact Frame.skipToken.bind fun _ => (Frame.peekToken hσ).bind fun _ => .pure _
    · exact .pure _
  · exact .pure _

/-! ## One lemma a function -/

theorem popState_skip_pure_spec {e : Event} (hS : Stack states n) (hm : marks.length = n)
    (he : e.type ≠ .noEvent) (h : ∀ w, Follows states w → K (e.type :: w)) :
    Holds (Ctl (σ := σ) state states marks) (do popState; skipToken; pure e)
      (Delivers K) Defined := by
  obtain ⟨s, rest, rfl⟩ := List.exists_cons_of_ne_nil hS.ne_nil
  exact popState_spec.bind fun _ => skipToken_spec.bind fun _ => pure_spec he (hS.popped hm) h

theorem parseContent_spec (block indentless : Bool) (props : Properties) (tag : Option Bytes)
    (hS : Stack states n) (hm : marks.length = n) :
    Holds (Ctl (σ := σ) state states marks) (parseContent block indentless props tag)
      (Delivers (NodeThen (Follows states))) Defined := by
  unfold parseContent
  simp only []
  refine Holds.ite (fun _ => ?_) fun _ => ?_
  · exact setState_pure_spec hS hm (by simp [outer]) (by simp [Event.type, EventData.type])
      fun w => nodeThen_sequenceStart
  split
  · exact popState_skip_pure_spec hS hm (by simp [Event.type, EventData.type])
      fun w => nodeThen_scalar
  · exact setState_pure_spec hS hm (by simp [outer]) (by simp [Event.type, EventData.type])
      fun w => nodeThen_sequenceStart
  · exact setState_pure_spec hS hm (by simp [outer]) (by simp [Event.type, EventData.type])
      fun w => nodeThen_mappingStart
  refine Holds.ite (fun _ => ?_) fun _ => Holds.ite (fun _ => ?_) fun _ =>
    Holds.ite (fun _ => ?_) fun _ => ?_
  · exact setState_pure_spec hS hm (by simp [outer]) (by simp [Event.type, EventData.type])
      fun w => nodeThen_sequenceStart
  · exact setState_pure_spec hS hm (by simp [outer]) (by simp [Event.type, EventData.type])
      fun w => nodeThen_mappingStart
  · exact popState_pure_spec hS hm (by simp [Event.type, EventData.type]) fun w => nodeThen_scalar
  · exact Holds.throw fun _ _ => by simp [Defined, parserErrorContext]

include hσ in
theorem parseNode_spec (block indentless : Bool) (hS : Stack states n) (hm : marks.length = n) :
    Holds (Ctl (σ := σ) state states marks) (parseNode block indentless)
      (Delivers (NodeThen (Follows states))) Defined := by
  unfold parseNode
  refine (peekToken_spec hσ).bind fun token => ?_
  split
  · exact popState_skip_pure_spec hS hm (by simp [Event.type, EventData.type])
      fun w => nodeThen_alias
  · exact (Frame.parseProperties hσ token _ _ _).bind fun props =>
      (Frame.resolveTag props _ _ _).bind fun tag =>
        parseContent_spec block indentless props tag hS hm

/-- A node parsed with `s` pushed below it. -/
theorem pushState_parseNode_spec {s : ParserState} (block indentless : Bool)
    (hS : Stack (s :: states) n) (hm : marks.length = n)
    {K : List EventType → Prop} (h : ∀ w, NodeThen (After s (Follows states)) w → K w)
    (hσ : Sound σ) :
    Holds (Ctl (σ := σ) state states marks) (do pushState s; parseNode block indentless)
      (Delivers K) Defined :=
  pushState_spec.bind fun _ => (parseNode_spec hσ block indentless hS hm).weaken (fun _ h => h)
    (fun _ _ ⟨he, hw, hk⟩ => ⟨he, hw, fun w hv => h _ (hk w hv)⟩) fun _ _ h => h

include hσ in
theorem parseOptionalNode_spec {after : ParserState} (token : Token) (follow : List TokenType)
    (block indentless : Bool) (hS : Stack states n) (hm : marks.length = n + ownedMarks after)
    (ha : after ∈ continuing)
    (h : ∀ w, NodeThen (After after (Follows states)) w → K w) :
    Holds (Ctl (σ := σ) state states marks)
      (parseOptionalNode token follow after block indentless) (Delivers K) Defined := by
  have ho : after ∉ outer := by
    simp only [continuing, List.mem_cons, List.not_mem_nil, or_false] at ha
    rcases ha with rfl | rfl | rfl | rfl | rfl | rfl | rfl | rfl | rfl | rfl <;> simp [outer]
  unfold parseOptionalNode
  refine skipToken_spec.bind fun _ => (peekToken_spec hσ).bind fun next => Holds.ite (fun _ => ?_)
    fun _ => ?_
  · exact setState_pure_spec hS hm ho (by simp [emptyScalar, Event.type, EventData.type])
      fun w hw => h _ (nodeThen_scalar hw)
  · exact pushState_parseNode_spec block indentless (.push ha hS) hm h hσ

include hσ in
theorem openCollection_spec (first : Bool) (hm : ¬first → marks ≠ []) :
    Holds (Ctl (σ := σ) state states marks) (openCollection first)
      (fun _ p => ∃ m rest, Ctl state states (m :: rest) p ∧
        (m :: rest).length = marks.length + first.toNat) Defined := by
  unfold openCollection
  cases first with
  | true =>
    exact (peekToken_spec hσ).bind fun token => pushMark_spec.bind fun _ =>
      skipToken_spec.weaken (fun _ h => h) (fun _ _ h => ⟨_, _, h, rfl⟩) fun _ _ h => h
  | false =>
    obtain ⟨m, rest, rfl⟩ := List.exists_cons_of_ne_nil (hm (by simp))
    exact Holds.pure fun p hp => ⟨m, rest, hp, rfl⟩

theorem closeCollection_spec {m : Mark} {data : EventData} (token : Token) (hS : Stack states n)
    (hm : marks.length = n) (he : data.type ≠ .noEvent)
    (h : ∀ w, Follows states w → K (data.type :: w)) :
    Holds (Ctl (σ := σ) state states (m :: marks)) (closeCollection token data)
      (Delivers K) Defined := by
  obtain ⟨s, rest, rfl⟩ := List.exists_cons_of_ne_nil hS.ne_nil
  exact popState_spec.bind fun _ => popMark_spec.bind fun _ => skipToken_spec.bind fun _ =>
    pure_spec he (hS.popped hm) h

omit [TokenSource σ] in
theorem failCollection_spec {m : Mark} (context problem : String) (token : Token) :
    Holds (Ctl (σ := σ) state states (m :: marks)) (failCollection context problem token)
      (Delivers K) Defined :=
  popMark_spec.bind fun _ => Holds.throw fun _ _ => by simp [Defined, parserErrorContext]

/-- The rest of a collection whose first call may still have to open it. -/
theorem openCollection_bind_spec {first : Bool} {x : ParseM σ Event}
    (hm : marks.length + first.toNat = n + 1) (hσ : Sound σ)
    (h : ∀ m rest, rest.length = n →
      Holds (Ctl (σ := σ) state states (m :: rest)) x (Delivers K) Defined) :
    Holds (Ctl (σ := σ) state states marks) (do openCollection first; x) (Delivers K) Defined := by
  refine (openCollection_spec hσ first ?_).bind fun _ => ?_
  · rintro hf rfl
    cases first <;> simp at hf hm
  · rintro p ⟨m, rest, hp, hl⟩
    exact h m rest (by simp only [List.length_cons] at hl; omega) p hp

include hσ in
theorem parseBlockSequenceEntry_spec (first : Bool) (hS : Stack states n)
    (hm : marks.length + first.toNat = n + 1) :
    Holds (Ctl (σ := σ) state states marks) (parseBlockSequenceEntry first)
      (Delivers (SequenceRest (Follows states))) Defined := by
  unfold parseBlockSequenceEntry
  refine openCollection_bind_spec hm hσ fun m rest hl => ?_
  refine (peekToken_spec hσ).bind fun token => Holds.ite (fun _ => ?_) fun _ =>
    Holds.ite (fun _ => ?_) fun _ => ?_
  · exact parseOptionalNode_spec hσ token _ _ _ hS (by simp [ownedMarks, hl])
      (by simp [continuing]) fun w hw => sequenceRest_node hw
  · exact closeCollection_spec token hS hl (by simp [EventData.type]) fun w => sequenceRest_end
  · exact failCollection_spec _ _ token

include hσ in
theorem parseIndentlessSequenceEntry_spec (hS : Stack states n) (hm : marks.length = n) :
    Holds (Ctl (σ := σ) state states marks) parseIndentlessSequenceEntry
      (Delivers (SequenceRest (Follows states))) Defined := by
  unfold parseIndentlessSequenceEntry
  refine (peekToken_spec hσ).bind fun token => Holds.ite (fun _ => ?_) fun _ => ?_
  · exact parseOptionalNode_spec hσ token _ _ _ hS hm (by simp [continuing])
      fun w hw => sequenceRest_node hw
  · exact popState_pure_spec hS hm (by simp [Event.type, EventData.type])
      fun w => sequenceRest_end

include hσ in
theorem parseBlockMappingKey_spec (first : Bool) (hS : Stack states n)
    (hm : marks.length + first.toNat = n + 1) :
    Holds (Ctl (σ := σ) state states marks) (parseBlockMappingKey first)
      (Delivers (MappingRest (Follows states))) Defined := by
  unfold parseBlockMappingKey
  refine openCollection_bind_spec hm hσ fun m rest hl => ?_
  refine (peekToken_spec hσ).bind fun token => Holds.ite (fun _ => ?_) fun _ =>
    Holds.ite (fun _ => ?_) fun _ => ?_
  · exact parseOptionalNode_spec hσ token _ _ _ hS (by simp [ownedMarks, hl])
      (by simp [continuing]) fun w hw => mappingRest_pair hw
  · exact closeCollection_spec token hS hl (by simp [EventData.type]) fun w => mappingRest_end
  · exact failCollection_spec _ _ token

include hσ in
theorem parseBlockMappingValue_spec (hS : Stack states n) (hm : marks.length = n + 1) :
    Holds (Ctl (σ := σ) state states marks) parseBlockMappingValue
      (Delivers (NodeThen (MappingRest (Follows states)))) Defined := by
  unfold parseBlockMappingValue
  refine (peekToken_spec hσ).bind fun token => Holds.ite (fun _ => ?_) fun _ => ?_
  · exact parseOptionalNode_spec hσ token _ _ _ hS hm (by simp [continuing]) fun w hw => hw
  · exact setState_pure_spec hS hm (by simp [outer])
      (by simp [emptyScalar, Event.type, EventData.type]) fun w => nodeThen_scalar

include hσ in
theorem flowSeparator_bind_spec {m : Mark} (first : Bool) (context problem : String)
    (token : Token) {f : Token → ParseM σ Event}
    (h : ∀ entry, Holds (Ctl (σ := σ) state states (m :: marks)) (f entry) (Delivers K) Defined) :
    Holds (Ctl (σ := σ) state states (m :: marks))
      (do let entry ← flowSeparator first context problem token; f entry)
      (Delivers K) Defined := by
  unfold flowSeparator
  cases first with
  | true => exact Holds.bind (Holds.pure fun _ h => h) h
  | false =>
    simp only [Bool.false_eq_true, ↓reduceIte]
    split_ifs
    · exact (skipToken_spec.bind fun _ => peekToken_spec hσ).bind h
    · refine (popMark_spec.bind fun _ => Holds.throw fun _ _ => ?_).bind h
      simp [Defined, parserErrorContext]

include hσ in
theorem parseFlowSequenceEntry_spec (first : Bool) (hS : Stack states n)
    (hm : marks.length + first.toNat = n + 1) :
    Holds (Ctl (σ := σ) state states marks) (parseFlowSequenceEntry first)
      (Delivers (SequenceRest (Follows states))) Defined := by
  unfold parseFlowSequenceEntry
  refine openCollection_bind_spec hm hσ fun m rest hl => ?_
  have hclose (token : Token) : Holds (Ctl (σ := σ) state states (m :: rest))
      (closeCollection token .sequenceEnd) (Delivers (SequenceRest (Follows states))) Defined :=
    closeCollection_spec token hS hl (by simp [EventData.type]) fun w => sequenceRest_end
  refine (peekToken_spec hσ).bind fun token => Holds.ite (fun _ => hclose token) fun _ => ?_
  refine flowSeparator_bind_spec hσ _ _ _ token fun entry => Holds.ite (fun _ => ?_) fun _ =>
    Holds.ite (fun _ => hclose entry) fun _ => ?_
  · refine setState_spec.bind fun _ => skipToken_spec.bind fun _ => pure_spec
      (by simp [Event.type, EventData.type]) (Or.inr ⟨by simp [outer], n, hS, ?_⟩)
      fun w => sequenceRest_pair
    simp [ownedMarks, hl]
  · exact pushState_parseNode_spec _ _ (.push_one (by simp [continuing]) rfl hS) (by simp [hl])
      (fun w => sequenceRest_node) hσ

include hσ in
theorem parseFlowSequenceEntryMappingKey_spec (hS : Stack states n)
    (hm : marks.length = n + 1) :
    Holds (Ctl (σ := σ) state states marks) parseFlowSequenceEntryMappingKey
      (Delivers (NodeThen (NodeThen (PairRest (Follows states))))) Defined := by
  unfold parseFlowSequenceEntryMappingKey
  refine (peekToken_spec hσ).bind fun token => Holds.ite (fun _ => ?_) fun _ => ?_
  · exact pushState_parseNode_spec _ _ (.push_one (by simp [continuing]) rfl hS) hm
      (fun w h => h) hσ
  · exact skipToken_spec.bind fun _ => setState_pure_spec hS hm (by simp [outer])
      (by simp [emptyScalar, Event.type, EventData.type]) fun w => nodeThen_scalar

include hσ in
theorem parseFlowValue_spec {after : ParserState} (follow : List TokenType)
    (hS : Stack states n) (hm : marks.length = n + 1) (ha : after ∈ continuing)
    (ho : ownedMarks after = 1) (hout : after ∉ outer) :
    Holds (Ctl (σ := σ) state states marks) (parseFlowValue follow after)
      (Delivers (NodeThen (After after (Follows states)))) Defined := by
  have hempty (mark : Mark) : Holds (Ctl (σ := σ) state states marks)
      (do setState after; pure (emptyScalar mark))
      (Delivers (NodeThen (After after (Follows states)))) Defined :=
    setState_pure_spec hS (ho.symm ▸ hm) hout (by simp [emptyScalar, Event.type, EventData.type])
      fun w => nodeThen_scalar
  unfold parseFlowValue
  refine (peekToken_spec hσ).bind fun token => Holds.ite (fun _ => ?_) fun _ => hempty _
  refine skipToken_spec.bind fun _ => (peekToken_spec hσ).bind fun next =>
    Holds.ite (fun _ => hempty _) fun _ => ?_
  exact pushState_parseNode_spec _ _ (.push_one ha ho hS) hm (fun w h => h) hσ

include hσ in
theorem parseFlowSequenceEntryMappingEnd_spec (hS : Stack states n)
    (hm : marks.length = n + 1) :
    Holds (Ctl (σ := σ) state states marks) parseFlowSequenceEntryMappingEnd
      (Delivers (PairRest (Follows states))) Defined := by
  unfold parseFlowSequenceEntryMappingEnd
  exact (peekToken_spec hσ).bind fun token => setState_pure_spec hS hm (by simp [outer])
    (by simp [Event.type, EventData.type]) fun w hw => ⟨w, hw, rfl⟩

include hσ in
theorem parseFlowMappingKey_spec (first : Bool) (hS : Stack states n)
    (hm : marks.length + first.toNat = n + 1) :
    Holds (Ctl (σ := σ) state states marks) (parseFlowMappingKey first)
      (Delivers (MappingRest (Follows states))) Defined := by
  unfold parseFlowMappingKey
  refine openCollection_bind_spec hm hσ fun m rest hl => ?_
  have hclose (token : Token) : Holds (Ctl (σ := σ) state states (m :: rest))
      (closeCollection token .mappingEnd) (Delivers (MappingRest (Follows states))) Defined :=
    closeCollection_spec token hS hl (by simp [EventData.type]) fun w => mappingRest_end
  have hl' : (m :: rest).length = n + 1 := by simp [hl]
  refine (peekToken_spec hσ).bind fun token => Holds.ite (fun _ => hclose token) fun _ => ?_
  refine flowSeparator_bind_spec hσ _ _ _ token fun entry => Holds.ite (fun _ => ?_) fun _ =>
    Holds.ite (fun _ => hclose entry) fun _ => ?_
  · refine skipToken_spec.bind fun _ => (peekToken_spec hσ).bind fun next =>
      Holds.ite (fun _ => ?_) fun _ => ?_
    · exact setState_pure_spec hS hl' (by simp [outer])
        (by simp [emptyScalar, Event.type, EventData.type])
        fun w hw => mappingRest_pair (nodeThen_scalar hw)
    · exact pushState_parseNode_spec _ _ (.push_one (by simp [continuing]) rfl hS) hl'
        (fun w => mappingRest_pair) hσ
  · exact pushState_parseNode_spec _ _ (.push_one (by simp [continuing]) rfl hS) hl'
      (fun w => mappingRest_pair) hσ

include hσ in
theorem parseFlowMappingValue_spec (empty : Bool) (hS : Stack states n)
    (hm : marks.length = n + 1) :
    Holds (Ctl (σ := σ) state states marks) (parseFlowMappingValue empty)
      (Delivers (NodeThen (MappingRest (Follows states)))) Defined := by
  unfold parseFlowMappingValue
  refine Holds.ite (fun _ => ?_) fun _ => ?_
  · exact (peekToken_spec hσ).bind fun token => setState_pure_spec hS hm (by simp [outer])
      (by simp [emptyScalar, Event.type, EventData.type]) fun w => nodeThen_scalar
  · exact parseFlowValue_spec hσ _ hS hm (by simp [continuing]) rfl (by simp [outer])

/-! ## Documents -/

include hσ in
theorem parseStreamStart_spec :
    Holds (Ctl (σ := σ) state [] []) parseStreamStart (Delivers Stream) Defined := by
  unfold parseStreamStart
  refine (peekToken_spec hσ).bind fun token => ?_
  split
  · refine setState_spec.bind fun _ => skipToken_spec.bind fun _ => pure_spec
      (by simp [Event.type, EventData.type]) (Or.inl ⟨by simp [outer], rfl, rfl⟩) ?_
    rintro w ⟨u, hu, rfl⟩
    exact .intro hu
  · exact Holds.throw fun _ _ => by simp [Defined, parserError]

include hσ in
theorem parseImplicitDocumentStart_spec (fuel : Nat) (token : Token) :
    Holds (Ctl (σ := σ) state [] []) (parseImplicitDocumentStart fuel token)
      (Delivers StreamRest) Defined := by
  unfold parseImplicitDocumentStart
  exact (Frame.processDirectives hσ fuel _ _ _).bind fun _ => pushState_spec.bind fun _ =>
    setState_pure_spec (n := 0) .document rfl (by simp [outer])
      (by simp [Event.type, EventData.type]) fun w => streamRest_document

include hσ in
theorem parseExplicitDocumentStart_spec (fuel : Nat) (first : Token) :
    Holds (Ctl (σ := σ) state [] []) (parseExplicitDocumentStart fuel first)
      (Delivers StreamRest) Defined := by
  unfold parseExplicitDocumentStart
  refine (Frame.processDirectives hσ fuel _ _ _).bind fun ds => (peekToken_spec hσ).bind
    fun token => Holds.ite (fun _ => ?_) fun _ => ?_
  · refine pushState_spec.bind fun _ => setState_spec.bind fun _ => skipToken_spec.bind fun _ => ?_
    exact pure_spec (by simp [Event.type, EventData.type])
      (Or.inr ⟨by simp [outer], 0, .document, rfl⟩) fun w => streamRest_document
  · exact Holds.throw fun _ _ => by simp [Defined, parserError]

theorem parseStreamEnd_spec (token : Token) :
    Holds (Ctl (σ := σ) state [] []) (parseStreamEnd token) (Delivers StreamRest) Defined := by
  refine setState_spec.bind fun _ => skipToken_spec.bind fun _ => pure_spec
    (by simp [Event.type, EventData.type]) (Or.inl ⟨by simp [outer], rfl, rfl⟩) ?_
  rintro w rfl
  exact ⟨[], .nil, rfl⟩

include hσ in
theorem parseDocumentStart_spec (fuel : Nat) (implicit : Bool) :
    Holds (Ctl (σ := σ) state [] []) (parseDocumentStart fuel implicit)
      (Delivers StreamRest) Defined := by
  unfold parseDocumentStart
  have hskip (first : Token) : Frame (σ := σ)
      (if implicit then pure first else skipDocumentEnds fuel first) := by
    split_ifs
    · exact .pure _
    · exact Frame.skipDocumentEnds hσ fuel first
  exact (peekToken_spec hσ).bind fun first => (hskip first _ _ _).bind fun token =>
    Holds.ite (fun _ => parseImplicitDocumentStart_spec hσ fuel token) fun _ =>
    Holds.ite (fun _ => parseExplicitDocumentStart_spec hσ fuel token) fun _ =>
      parseStreamEnd_spec token

include hσ in
theorem parseDocumentEnd_spec :
    Holds (Ctl (σ := σ) state [] []) parseDocumentEnd
      (Delivers fun w => ∃ v, StreamRest v ∧ w = .documentEnd :: v) Defined := by
  have hreset : Holds (Ctl (σ := σ) state [] [])
      (modify fun p : Parser σ => { p with tagDirectives := [], state := .documentStart })
      (fun _ => Ctl .documentStart [] []) Defined := fun _ ⟨_, hs, hm⟩ => ⟨rfl, hs, hm⟩
  have hend (e : Event) (he : e.type = .documentEnd) : Holds (Ctl (σ := σ) .documentStart [] [])
      (pure e) (Delivers fun w => ∃ v, StreamRest v ∧ w = .documentEnd :: v) Defined :=
    pure_spec (by simp [he]) (Or.inl ⟨by simp [outer], rfl, rfl⟩)
      fun w hw => ⟨w, hw, by rw [he]⟩
  unfold parseDocumentEnd
  refine (peekToken_spec hσ).bind fun token => Holds.ite (fun _ => ?_) fun _ => ?_
  · exact skipToken_spec.bind fun _ => hreset.bind fun _ => hend _ rfl
  · exact hreset.bind fun _ => hend _ rfl

include hσ in
theorem parseDocumentContent_spec (hS : Stack states n) (hm : marks.length = n) :
    Holds (Ctl (σ := σ) state states marks) parseDocumentContent
      (Delivers (NodeThen (Follows states))) Defined := by
  unfold parseDocumentContent
  refine (peekToken_spec hσ).bind fun token => Holds.ite (fun _ => ?_) fun _ => ?_
  · exact popState_pure_spec hS hm (by simp [emptyScalar, Event.type, EventData.type])
      fun w => nodeThen_scalar
  · exact parseNode_spec hσ _ _ hS hm

/-! ## The machine -/

include hσ in
/-- A step of the machine takes an event off the language of what may follow. -/
theorem stateMachine_spec (fuel : Nat) (hw : WellFormed state states marks) (he : state ≠ .end) :
    Holds (Ctl (σ := σ) state states marks) (stateMachine fuel)
      (Delivers (After state (Follows states))) Defined := by
  unfold stateMachine
  refine Holds.bind (Q := fun q p => q.state = state ∧ Ctl state states marks p)
    (Holds.get fun p hp => ⟨hp.1, hp⟩) fun q => ?_
  rintro p ⟨hq, hp⟩
  rw [hq]
  revert p
  rcases hw with ⟨hout, rfl, rfl⟩ | ⟨hout, n, hS, hm⟩
  · simp only [outer, List.mem_cons, List.not_mem_nil, or_false] at hout
    rcases hout with rfl | rfl | rfl | rfl | rfl
    · exact parseStreamStart_spec hσ
    · exact parseDocumentStart_spec hσ fuel true
    · exact parseDocumentStart_spec hσ fuel false
    · exact parseDocumentEnd_spec hσ
    · exact absurd rfl he
  · cases state with
    | streamStart | implicitDocumentStart | documentStart | documentEnd | «end» =>
      simp [outer] at hout
    | documentContent => exact parseDocumentContent_spec hσ hS hm
    | blockNode => exact parseNode_spec hσ true false hS hm
    | blockNodeOrIndentlessSequence => exact parseNode_spec hσ true true hS hm
    | flowNode => exact parseNode_spec hσ false false hS hm
    | blockSequenceFirstEntry => exact parseBlockSequenceEntry_spec hσ true hS (by simpa [ownedMarks] using hm)
    | blockSequenceEntry => exact parseBlockSequenceEntry_spec hσ false hS hm
    | indentlessSequenceEntry => exact parseIndentlessSequenceEntry_spec hσ hS hm
    | blockMappingFirstKey => exact parseBlockMappingKey_spec hσ true hS (by simpa [ownedMarks] using hm)
    | blockMappingKey => exact parseBlockMappingKey_spec hσ false hS hm
    | blockMappingValue => exact parseBlockMappingValue_spec hσ hS hm
    | flowSequenceFirstEntry => exact parseFlowSequenceEntry_spec hσ true hS (by simpa [ownedMarks] using hm)
    | flowSequenceEntry => exact parseFlowSequenceEntry_spec hσ false hS hm
    | flowSequenceEntryMappingKey => exact parseFlowSequenceEntryMappingKey_spec hσ hS hm
    | flowSequenceEntryMappingValue =>
      exact parseFlowValue_spec hσ _ hS hm (by simp [continuing]) rfl (by simp [outer])
    | flowSequenceEntryMappingEnd => exact parseFlowSequenceEntryMappingEnd_spec hσ hS hm
    | flowMappingFirstKey => exact parseFlowMappingKey_spec hσ true hS (by simpa [ownedMarks] using hm)
    | flowMappingKey => exact parseFlowMappingKey_spec hσ false hS hm
    | flowMappingValue => exact parseFlowMappingValue_spec hσ false hS hm
    | flowMappingEmptyValue => exact parseFlowMappingValue_spec hσ true hS hm

end Source

/-! ## Lists of tokens -/

theorem tokenList_sound : Sound TokenList := by
  rintro ⟨tokens, failure⟩ t f h
  cases tokens with
  | nil =>
    obtain ⟨rfl, -⟩ := EStateM.Result.error.inj h
    simp
  | cons a as => cases h

/-- A property of the tokens left and of `stream_end_produced` that skipping a token keeps. -/
structure Watch where
  holds : TokenList → Bool → Prop
  skip : ∀ s b, holds s b →
    holds (TokenSource.skip s) ((TokenSource.head s).any (·.type = .streamEnd))

/-- At most `N` tokens are left, what is watched holds, and no error is recorded. -/
def Within (I : Watch) (N : Nat) (p : Parser TokenList) : Prop :=
  p.source.tokens.length ≤ N ∧ I.holds p.source p.streamEndProduced ∧ p.error = none

/-- With `N` tokens left at most, the computation does not run out of fuel, and it keeps what is
watched. -/
def Bounded {α : Type} (I : Watch) (N : Nat) (x : ParseM TokenList α) : Prop :=
  Holds (fun p => Within I N p) x (fun _ p => Within I N p)
    fun f p => f ≠ .outOfFuel ∧ Within I N p

section Bounded

variable {I : Watch} {N : Nat}

theorem Bounded.bind {α β : Type} {x : ParseM TokenList α} {f : α → ParseM TokenList β}
    (hx : Bounded I N x) (hf : ∀ a, Bounded I N (f a)) : Bounded I N (x >>= f) :=
  Holds.bind hx hf

theorem Bounded.pure {α : Type} (a : α) : Bounded I N (pure a) := Holds.pure fun _ h => h

theorem Bounded.throw {α : Type} {f : Fault} (hf : f ≠ .outOfFuel) :
    Bounded (α := α) I N (throw f) :=
  Holds.throw fun _ h => ⟨hf, h⟩

theorem Bounded.ite {α : Type} {c : Prop} [Decidable c] {x y : ParseM TokenList α}
    (hx : Bounded I N x) (hy : Bounded I N y) : Bounded I N (if c then x else y) :=
  Holds.ite (fun _ => hx) fun _ => hy

theorem Bounded.setState (s : ParserState) : Bounded I N (setState s) := fun _ h => h

theorem Bounded.pushState (s : ParserState) : Bounded I N (pushState s) := fun _ h => h

theorem Bounded.pushMark (m : Mark) : Bounded I N (pushMark m) := fun _ h => h

theorem Bounded.popState : Bounded I N popState := by
  intro p hp
  unfold Parser.popState
  cases p.states with
  | nil => exact ⟨by simp, hp⟩
  | cons s rest => exact hp

theorem Bounded.popMark : Bounded I N popMark := by
  intro p hp
  unfold Parser.popMark
  cases p.marks with
  | nil => exact ⟨by simp, hp⟩
  | cons m rest => exact hp

theorem peekToken_list (p : Parser TokenList) : peekToken p = match p.source.tokens with
    | [] => .error (.reported p.source.failure) p
    | t :: _ => .ok t p := by
  obtain ⟨⟨_ | ⟨t, ts⟩, failure⟩, _, _, _, _, _, _⟩ := p
  · rfl
  · rfl

theorem Bounded.peekToken : Bounded I N (peekToken (σ := TokenList)) := by
  intro p hp
  rw [peekToken_list]
  cases p.source.tokens with
  | nil => exact ⟨by simp, hp⟩
  | cons t ts => exact hp

theorem Bounded.skipToken : Bounded I N (skipToken (σ := TokenList)) := by
  rintro p ⟨hp, hi, he⟩
  refine ⟨?_, I.skip _ _ hi, he⟩
  simp only [TokenSource.skip, List.length_tail]
  omega

theorem Bounded.appendTagDirective (d : TagDirective) (dup : Bool) (mark : Mark) :
    Bounded I N (appendTagDirective d dup mark) := by
  intro p hp
  unfold Parser.appendTagDirective
  split_ifs
  · exact hp
  · exact ⟨by simp [parserError], hp⟩
  · exact hp

theorem Bounded.appendDefaultTagDirectives (mark : Mark) :
    ∀ ds, Bounded I N (appendDefaultTagDirectives mark ds)
  | [] => .pure _
  | d :: ds => (Bounded.appendTagDirective d true mark).bind fun _ =>
      Bounded.appendDefaultTagDirectives mark ds

theorem Bounded.parseProperties (token : Token) : Bounded I N (parseProperties token) := by
  unfold Parser.parseProperties
  split
  · refine Bounded.skipToken.bind fun _ => Bounded.peekToken.bind fun next => ?_
    split
    · exact Bounded.skipToken.bind fun _ => Bounded.peekToken.bind fun _ => .pure _
    · exact .pure _
  · refine Bounded.skipToken.bind fun _ => Bounded.peekToken.bind fun next => ?_
    split
    · exact Bounded.skipToken.bind fun _ => Bounded.peekToken.bind fun _ => .pure _
    · exact .pure _
  · exact .pure _

theorem Bounded.resolveTag (props : Properties) : Bounded I N (resolveTag props) := by
  intro p hp
  unfold Parser.resolveTag
  rcases props.tag with _ | ⟨handle, suffix⟩
  · exact hp
  · simp only []
    by_cases hh : cstr handle = []
    · simp only [hh, ↓reduceIte]
      exact hp
    · simp only [hh, ↓reduceIte]
      cases p.tagDirectives.find? (fun d => cstr d.handle = cstr handle) with
      | some d => exact hp
      | none => exact ⟨by simp [parserErrorContext], hp⟩

theorem peekToken_bounded : Holds (fun p : Parser TokenList => Within I N p) peekToken
    (fun _ p => Within I N p ∧ p.source.tokens ≠ [])
    fun f p => f ≠ .outOfFuel ∧ Within I N p := by
  intro p hp
  rw [peekToken_list]
  cases ht : p.source.tokens with
  | nil => exact ⟨by simp, hp⟩
  | cons t ts => exact ⟨hp, by simp [ht]⟩

/-- A loop that skips one token a turn ends: `fuel` exceeds the number of tokens left. -/
theorem skipToken_bounded {α : Type} {fuel : Nat} {f : Token → ParseM TokenList α}
    (hf : ∀ token (M : Nat), M < fuel → Holds
      (fun p => Within I M p ∧ p.source.tokens ≠ []) (f token)
      (fun _ p => Within I M p)
      fun f p => f ≠ .outOfFuel ∧ Within I M p) (hN : N < fuel + 1) :
    Holds (fun p => Within I N p ∧ p.source.tokens ≠ [])
      (do skipToken; let next ← peekToken; f next)
      (fun _ p => Within I N p)
      fun f p => f ≠ .outOfFuel ∧ Within I N p := by
  rintro p ⟨hp, hne⟩
  obtain ⟨M, rfl⟩ : ∃ M, N = M + 1 := by
    have hlen := List.length_pos_of_ne_nil hne
    have hle := hp.1
    exact ⟨N - 1, by omega⟩
  have hskip : Holds (fun p : Parser TokenList => Within I (M + 1) p) skipToken
      (fun _ p => Within I M p)
      fun f p => f ≠ .outOfFuel ∧ Within I M p := by
    rintro q ⟨hq, hi, he⟩
    refine ⟨?_, I.skip _ _ hi, he⟩
    simp only [TokenSource.skip, List.length_tail]
    omega
  exact (hskip.bind fun _ => peekToken_bounded.bind fun next => hf next M (by omega)).weaken
    (fun _ h => h) (fun _ _ h => ⟨Nat.le_succ_of_le h.1, h.2⟩)
    (fun _ _ h => ⟨h.1, Nat.le_succ_of_le h.2.1, h.2.2⟩) p hp

theorem scanDirectives_bounded : ∀ (fuel : Nat) (version : Option VersionDirective)
    (directives : List TagDirective) (token : Token) (N : Nat), N < fuel →
    Holds (fun p => Within I N p ∧ p.source.tokens ≠ [])
      (scanDirectives (σ := TokenList) fuel version directives token)
      (fun _ p => Within I N p)
      fun f p => f ≠ .outOfFuel ∧ Within I N p
  | 0, _, _, _, _, h => by omega
  | fuel + 1, version, directives, token, N, h => by
    unfold Parser.scanDirectives
    split
    · split_ifs
      · exact Holds.throw fun p hp => ⟨by simp [parserError], hp.1⟩
      · exact Holds.throw fun p hp => ⟨by simp [parserError], hp.1⟩
      · exact skipToken_bounded (fun _ M hM => scanDirectives_bounded fuel _ _ _ M hM) h
    · refine Holds.bind (Q := fun _ p => Within I N p ∧ p.source.tokens ≠ []) ?_
        fun _ => skipToken_bounded (fun _ M hM => scanDirectives_bounded fuel _ _ _ M hM) h
      intro p hp
      unfold Parser.appendTagDirective
      split_ifs
      · exact absurd ‹_› (by simp)
      · exact ⟨by simp [parserError], hp.1⟩
      · exact hp
    · exact Holds.pure fun p hp => hp.1

theorem skipDocumentEnds_bounded : ∀ (fuel : Nat) (token : Token) (N : Nat), N < fuel →
    Holds (fun p => Within I N p ∧ p.source.tokens ≠ [])
      (skipDocumentEnds (σ := TokenList) fuel token)
      (fun _ p => Within I N p)
      fun f p => f ≠ .outOfFuel ∧ Within I N p
  | 0, _, _, h => by omega
  | fuel + 1, token, N, h => by
    unfold Parser.skipDocumentEnds
    split_ifs
    · exact skipToken_bounded (fun _ M hM => skipDocumentEnds_bounded fuel _ M hM) h
    · exact Holds.pure fun p hp => hp.1

theorem Bounded.processDirectives {fuel : Nat} (h : N < fuel) :
    Bounded I N (processDirectives (σ := TokenList) fuel) :=
  peekToken_bounded.bind fun _ => (scanDirectives_bounded fuel _ _ _ N h).bind fun _ =>
    (Bounded.appendDefaultTagDirectives _ _).bind fun _ => .pure _

theorem Bounded.openCollection (first : Bool) : Bounded I N (openCollection (σ := TokenList) first) := by
  unfold Parser.openCollection
  cases first with
  | true => exact Bounded.peekToken.bind fun _ => (Bounded.pushMark _).bind fun _ => .skipToken
  | false => exact .pure _

theorem Bounded.setState_pure (s : ParserState) (e : Event) :
    Bounded I N (do Parser.setState s; Pure.pure e) :=
  (Bounded.setState s).bind fun _ => .pure e

theorem Bounded.parseContent (block indentless : Bool) (props : Properties) (tag : Option Bytes) :
    Bounded I N (parseContent (σ := TokenList) block indentless props tag) := by
  unfold Parser.parseContent
  simp only []
  refine Bounded.ite (.setState_pure _ _) ?_
  split
  · exact Bounded.popState.bind fun _ => Bounded.skipToken.bind fun _ => .pure _
  · exact .setState_pure _ _
  · exact .setState_pure _ _
  refine Bounded.ite (.setState_pure _ _) (Bounded.ite (.setState_pure _ _) (Bounded.ite ?_ ?_))
  · exact Bounded.popState.bind fun _ => .pure _
  · exact .throw (by simp [parserErrorContext])

theorem Bounded.parseNode (block indentless : Bool) :
    Bounded I N (parseNode (σ := TokenList) block indentless) := by
  unfold Parser.parseNode
  refine Bounded.peekToken.bind fun token => ?_
  split
  · exact Bounded.popState.bind fun _ => Bounded.skipToken.bind fun _ => .pure _
  · exact (Bounded.parseProperties _).bind fun _ => (Bounded.resolveTag _).bind fun _ =>
      .parseContent _ _ _ _

theorem Bounded.parseOptionalNode (token : Token) (follow : List TokenType) (after : ParserState)
    (block indentless : Bool) :
    Bounded I N (parseOptionalNode (σ := TokenList) token follow after block indentless) :=
  Bounded.skipToken.bind fun _ => Bounded.peekToken.bind fun _ => .ite (.setState_pure _ _)
    ((Bounded.pushState _).bind fun _ => .parseNode _ _)

theorem Bounded.closeCollection (token : Token) (data : EventData) :
    Bounded I N (closeCollection (σ := TokenList) token data) :=
  Bounded.popState.bind fun _ => Bounded.popMark.bind fun _ => Bounded.skipToken.bind fun _ =>
    .pure _

theorem Bounded.failCollection (context problem : String) (token : Token) :
    Bounded I N (failCollection (σ := TokenList) context problem token) :=
  Bounded.popMark.bind fun _ => .throw (by simp [parserErrorContext])

theorem Bounded.flowSeparator (first : Bool) (context problem : String) (token : Token) :
    Bounded I N (flowSeparator (σ := TokenList) first context problem token) :=
  .ite (.pure _) (.ite (Bounded.skipToken.bind fun _ => .peekToken)
    (Bounded.popMark.bind fun _ => .throw (by simp [parserErrorContext])))

theorem Bounded.parseFlowValue (follow : List TokenType) (after : ParserState) :
    Bounded I N (parseFlowValue (σ := TokenList) follow after) :=
  Bounded.peekToken.bind fun _ => .ite
    (Bounded.skipToken.bind fun _ => Bounded.peekToken.bind fun _ => .ite (.setState_pure _ _)
      ((Bounded.pushState _).bind fun _ => .parseNode _ _))
    (.setState_pure _ _)

theorem Bounded.parseBlockSequenceEntry (first : Bool) :
    Bounded I N (parseBlockSequenceEntry (σ := TokenList) first) :=
  (Bounded.openCollection first).bind fun _ => Bounded.peekToken.bind fun _ =>
    .ite (.parseOptionalNode _ _ _ _ _) (.ite (.closeCollection _ _) (.failCollection _ _ _))

theorem Bounded.parseIndentlessSequenceEntry :
    Bounded I N (parseIndentlessSequenceEntry (σ := TokenList)) :=
  Bounded.peekToken.bind fun _ =>
    .ite (.parseOptionalNode _ _ _ _ _) (Bounded.popState.bind fun _ => .pure _)

theorem Bounded.parseBlockMappingKey (first : Bool) :
    Bounded I N (parseBlockMappingKey (σ := TokenList) first) :=
  (Bounded.openCollection first).bind fun _ => Bounded.peekToken.bind fun _ =>
    .ite (.parseOptionalNode _ _ _ _ _) (.ite (.closeCollection _ _) (.failCollection _ _ _))

theorem Bounded.parseBlockMappingValue : Bounded I N (parseBlockMappingValue (σ := TokenList)) :=
  Bounded.peekToken.bind fun _ => .ite (.parseOptionalNode _ _ _ _ _) (.setState_pure _ _)

theorem Bounded.parseFlowSequenceEntry (first : Bool) :
    Bounded I N (parseFlowSequenceEntry (σ := TokenList) first) :=
  (Bounded.openCollection first).bind fun _ => Bounded.peekToken.bind fun _ =>
    .ite (.closeCollection _ _) <| (Bounded.flowSeparator _ _ _ _).bind fun _ =>
      .ite ((Bounded.setState _).bind fun _ => Bounded.skipToken.bind fun _ => .pure _)
        (.ite (.closeCollection _ _) ((Bounded.pushState _).bind fun _ => .parseNode _ _))

theorem Bounded.parseFlowSequenceEntryMappingKey :
    Bounded I N (parseFlowSequenceEntryMappingKey (σ := TokenList)) :=
  Bounded.peekToken.bind fun _ => .ite ((Bounded.pushState _).bind fun _ => .parseNode _ _)
    (Bounded.skipToken.bind fun _ => .setState_pure _ _)

theorem Bounded.parseFlowSequenceEntryMappingEnd :
    Bounded I N (parseFlowSequenceEntryMappingEnd (σ := TokenList)) :=
  Bounded.peekToken.bind fun _ => .setState_pure _ _

theorem Bounded.parseFlowMappingKey (first : Bool) :
    Bounded I N (parseFlowMappingKey (σ := TokenList) first) :=
  (Bounded.openCollection first).bind fun _ => Bounded.peekToken.bind fun _ =>
    .ite (.closeCollection _ _) <| (Bounded.flowSeparator _ _ _ _).bind fun _ =>
      .ite
        (Bounded.skipToken.bind fun _ => Bounded.peekToken.bind fun _ => .ite (.setState_pure _ _)
          ((Bounded.pushState _).bind fun _ => .parseNode _ _))
        (.ite (.closeCollection _ _) ((Bounded.pushState _).bind fun _ => .parseNode _ _))

theorem Bounded.parseFlowMappingValue (empty : Bool) :
    Bounded I N (parseFlowMappingValue (σ := TokenList) empty) :=
  .ite (Bounded.peekToken.bind fun _ => .setState_pure _ _) (.parseFlowValue _ _)

theorem Bounded.parseStreamStart : Bounded I N (parseStreamStart (σ := TokenList)) := by
  unfold Parser.parseStreamStart
  refine Bounded.peekToken.bind fun token => ?_
  split
  · exact (Bounded.setState _).bind fun _ => Bounded.skipToken.bind fun _ => .pure _
  · exact .throw (by simp [parserError])

theorem Bounded.parseDocumentStart {fuel : Nat} (implicit : Bool) (h : N < fuel) :
    Bounded I N (parseDocumentStart (σ := TokenList) fuel implicit) := by
  refine peekToken_bounded.bind fun first => ?_
  refine Holds.bind (Q := fun _ p => Within I N p) ?_ fun token => ?_
  · exact Holds.ite (fun _ => Holds.pure fun _ h => h.1) fun _ =>
      skipDocumentEnds_bounded fuel first N h
  · refine Bounded.ite ?_ (Bounded.ite ?_ ?_)
    · exact (Bounded.processDirectives h).bind fun _ => (Bounded.pushState _).bind fun _ =>
        .setState_pure _ _
    · refine (Bounded.processDirectives h).bind fun _ => Bounded.peekToken.bind fun _ =>
        Bounded.ite ?_ (.throw (by simp [parserError]))
      exact (Bounded.pushState _).bind fun _ => (Bounded.setState _).bind fun _ =>
        Bounded.skipToken.bind fun _ => .pure _
    · exact (Bounded.setState _).bind fun _ => Bounded.skipToken.bind fun _ => .pure _

theorem Bounded.parseDocumentContent : Bounded I N (parseDocumentContent (σ := TokenList)) :=
  Bounded.peekToken.bind fun _ => .ite (Bounded.popState.bind fun _ => .pure _) (.parseNode _ _)

theorem Bounded.parseDocumentEnd : Bounded I N (parseDocumentEnd (σ := TokenList)) := by
  have hreset : Bounded I N (modify fun p : Parser TokenList =>
      { p with tagDirectives := [], state := .documentStart }) := fun _ h => h
  exact Bounded.peekToken.bind fun _ => .ite
    (Bounded.skipToken.bind fun _ => hreset.bind fun _ => .pure _) (hreset.bind fun _ => .pure _)

theorem Bounded.stateMachine {fuel : Nat} (h : N < fuel) :
    Bounded I N (stateMachine (σ := TokenList) fuel) := by
  unfold Parser.stateMachine
  refine Bounded.bind (Holds.get fun _ h => h) fun q => ?_
  cases q.state with
  | streamStart => exact .parseStreamStart
  | implicitDocumentStart => exact .parseDocumentStart true h
  | documentStart => exact .parseDocumentStart false h
  | documentContent => exact .parseDocumentContent
  | documentEnd => exact .parseDocumentEnd
  | blockNode | blockNodeOrIndentlessSequence | flowNode => exact .parseNode _ _
  | blockSequenceFirstEntry | blockSequenceEntry => exact .parseBlockSequenceEntry _
  | indentlessSequenceEntry => exact .parseIndentlessSequenceEntry
  | blockMappingFirstKey | blockMappingKey => exact .parseBlockMappingKey _
  | blockMappingValue => exact .parseBlockMappingValue
  | flowSequenceFirstEntry | flowSequenceEntry => exact .parseFlowSequenceEntry _
  | flowSequenceEntryMappingKey => exact .parseFlowSequenceEntryMappingKey
  | flowSequenceEntryMappingValue => exact .parseFlowValue _ _
  | flowSequenceEntryMappingEnd => exact .parseFlowSequenceEntryMappingEnd
  | flowMappingFirstKey | flowMappingKey => exact .parseFlowMappingKey _
  | flowMappingValue | flowMappingEmptyValue => exact .parseFlowMappingValue _
  | «end» => exact .throw (by simp)

end Bounded

/-! ## Runs -/

/-- Calls deliver nothing more. -/
def Stopped (p : Parser σ) : Prop :=
  p.streamEndProduced = true ∨ p.error.isSome = true ∨ p.state = .end

theorem parse_stopped [TokenSource σ] {fuel : Nat} {p : Parser σ} (h : Stopped p) :
    parse fuel p = .ok Event.empty p :=
  if_pos h

theorem parse_of_not_stopped [TokenSource σ] {fuel : Nat} {p : Parser σ} (h : ¬Stopped p) :
    parse fuel p = match stateMachine fuel p with
      | .ok e p' => .ok e p'
      | .error (.reported problem) p' =>
        .error (.reported problem) { p' with error := some problem }
      | .error fault p' => .error fault p' :=
  if_neg h

theorem calls_stopped [TokenSource σ] {fuel : Nat} {p : Parser σ} (h : Stopped p) :
    ∀ n, calls fuel n p = (List.replicate n (.ok Event.empty), p)
  | 0 => rfl
  | n + 1 => by rw [calls, parse_stopped h]; simp [calls_stopped h n, List.replicate_succ]

theorem not_stopped_error {p : Parser σ} (h : ¬Stopped p) : p.error = none := by
  cases he : p.error with
  | none => rfl
  | some problem => exact absurd (Or.inr (Or.inl (by rw [he]; rfl))) h

/-- A call that is not stopped is a step of the machine. -/
theorem parse_eq_ok [TokenSource σ] {fuel : Nat} {p p' : Parser σ} {e : Event} (h : ¬Stopped p)
    (hp : parse fuel p = .ok e p') : stateMachine fuel p = .ok e p' := by
  rw [parse_of_not_stopped h] at hp
  cases hr : stateMachine fuel p with
  | ok e' q => simpa [hr] using hp
  | error f q => cases f <;> simp [hr] at hp

theorem parse_eq_error [TokenSource σ] {fuel : Nat} {p p' : Parser σ} {f : Fault} (h : ¬Stopped p)
    (hp : parse fuel p = .error f p') : ∃ q, stateMachine fuel p = .error f q := by
  rw [parse_of_not_stopped h] at hp
  cases hr : stateMachine fuel p with
  | ok e' q => simp [hr] at hp
  | error f' q => cases f' <;> simp_all

/-- The stacks fit together and the fuel exceeds the tokens left. -/
structure Running (fuel : Nat) (p : Parser TokenList) : Prop where
  wellFormed : WellFormed p.state p.states p.marks
  fuel : p.source.tokens.length < fuel

/-- What one call does: nothing, one event that the grammar allows, or a reported error. -/
theorem parse_spec {fuel : Nat} {p : Parser TokenList} (h : Running fuel p) :
    (Stopped p ∧ parse fuel p = .ok Event.empty p) ∨
      (∃ e p', parse fuel p = .ok e p' ∧ e.type ≠ .noEvent ∧ Running fuel p' ∧
        ∀ w, After p'.state (Follows p'.states) w →
          After p.state (Follows p.states) (e.type :: w)) ∨
      ∃ problem p', parse fuel p = .error (.reported problem) p' ∧ Stopped p' := by
  by_cases hs : Stopped p
  · exact Or.inl ⟨hs, parse_stopped hs⟩
  have hne : p.state ≠ .end := fun he => hs (Or.inr (Or.inr he))
  have hm := stateMachine_spec tokenList_sound fuel h.wellFormed hne p ⟨rfl, rfl, rfl⟩
  have hb := Bounded.stateMachine (I := ⟨fun _ _ => True, fun _ _ _ => trivial⟩) h.fuel p
    ⟨Nat.le_refl _, trivial, not_stopped_error hs⟩
  refine Or.inr ?_
  rw [parse_of_not_stopped hs]
  cases hr : stateMachine fuel p with
  | ok e p' =>
    simp only [hr] at hm hb
    obtain ⟨he, hw, hk⟩ := hm
    exact Or.inl ⟨e, p', rfl, he, ⟨hw, Nat.lt_of_le_of_lt hb.1 h.fuel⟩, hk⟩
  | error f p' =>
    simp only [hr] at hm hb
    cases f with
    | reported problem => exact Or.inr ⟨problem, _, rfl, Or.inr (Or.inl rfl)⟩
    | silent => exact absurd rfl hm.2
    | undefined => exact absurd rfl hm.1
    | outOfFuel => exact absurd rfl hb.1

theorem Stack.exists_follows {states : List ParserState} {n : Nat} (h : Stack states n) :
    ∃ w, Follows states w := by
  induction h with
  | document => exact ⟨_, _, ⟨[], .nil, rfl⟩, rfl⟩
  | push _ _ ih => exact exists_after _ ih

theorem WellFormed.exists_after {state : ParserState} {states : List ParserState}
    {marks : List Mark} (h : WellFormed state states marks) :
    ∃ w, After state (Follows states) w := by
  rcases h with ⟨hout, rfl, rfl⟩ | ⟨-, n, hS, -⟩
  · simp only [outer, List.mem_cons, List.not_mem_nil, or_false] at hout
    rcases hout with rfl | rfl | rfl | rfl | rfl
    · exact ⟨_, .intro .nil⟩
    · exact ⟨_, [], .nil, rfl⟩
    · exact ⟨_, [], .nil, rfl⟩
    · exact ⟨_, _, ⟨[], .nil, rfl⟩, rfl⟩
    · exact ⟨[], rfl⟩
  · exact EventGrammar.exists_after state hS.exists_follows

/-- The types of the events that a run delivered. -/
def types (rs : List (Except Fault Event)) : List EventType := (events rs).map Event.type

@[simp] theorem types_nil : types [] = [] := rfl

theorem types_ok {e : Event} (he : e.type ≠ .noEvent) (rs : List (Except Fault Event)) :
    types (.ok e :: rs) = e.type :: types rs := by
  simp [types, events, he]

@[simp] theorem types_error (f : Fault) (rs : List (Except Fault Event)) :
    types (.error f :: rs) = types rs := rfl

@[simp] theorem types_replicate_empty (n : Nat) :
    types (List.replicate n (.ok Event.empty)) = [] := by
  simp [types, events, Event.empty, Event.type, EventData.type]

/-- A run delivers a prefix of what may follow the state it starts in, and it fails, if it does,
with a reported problem. -/
theorem calls_spec {fuel : Nat} : ∀ (n : Nat) (p : Parser TokenList), Running fuel p →
    (∃ w, After p.state (Follows p.states) (types (calls fuel n p).1 ++ w)) ∧
      ∀ f, .error f ∈ (calls fuel n p).1 → ∃ problem, f = .reported problem
  | 0, p, h => by
    obtain ⟨w, hw⟩ := h.wellFormed.exists_after
    exact ⟨⟨w, hw⟩, by simp [calls]⟩
  | n + 1, p, h => by
    rcases parse_spec h with ⟨hs, -⟩ | ⟨e, p', hp, he, hr, hk⟩ | ⟨problem, p', hp, hs⟩
    · obtain ⟨w, hw⟩ := h.wellFormed.exists_after
      rw [calls_stopped hs]
      exact ⟨⟨w, by simpa using hw⟩, by simp⟩
    · obtain ⟨⟨w, hw⟩, hf⟩ := calls_spec n p' hr
      simp only [calls, hp]
      refine ⟨⟨w, ?_⟩, by simpa using hf⟩
      rw [types_ok he]
      exact hk _ hw
    · obtain ⟨w, hw⟩ := h.wellFormed.exists_after
      simp only [calls, hp, calls_stopped hs]
      refine ⟨⟨w, by simpa using hw⟩, fun f hf => ⟨problem, ?_⟩⟩
      simpa using hf

theorem init_running (tokens : List Token) (failure : Problem) (k : Nat) :
    Running (tokens.length + 1 + k) (init (TokenList.mk tokens failure)) :=
  ⟨Or.inl ⟨by simp [init, outer], rfl, rfl⟩, by simp only [init]; omega⟩

/-- Whatever the tokens are, the events are a prefix of a word of the grammar, they are a whole
word exactly when the last is the end of the stream, and no stack is popped when it is empty. -/
theorem events_grammatical (tokens : List Token) (failure : Problem) (k n : Nat) :
    let rs := (calls (tokens.length + 1 + k) n (init (TokenList.mk tokens failure))).1
    (∃ w, Stream (types rs ++ w)) ∧
      (Stream (types rs) ↔ (types rs).getLast? = some .streamEnd) ∧
      .error .undefined ∉ rs ∧ ∀ f, .error f ∈ rs → ∃ problem, f = .reported problem := by
  intro rs
  obtain ⟨⟨w, hw⟩, hf⟩ := calls_spec n _ (init_running tokens failure k)
  have hw' : Stream (types rs ++ w) := hw
  refine ⟨⟨w, hw'⟩, ⟨fun h => ?_, fun h => ?_⟩, fun h => ?_, hf⟩
  · have h' : Stream (types rs ++ []) := by rwa [List.append_nil]
    exact h'.eq_nil_iff.mp rfl
  · obtain rfl := hw'.eq_nil_iff.mpr h
    rwa [List.append_nil] at hw'
  · obtain ⟨problem, hp⟩ := hf _ h
    cases hp

end Parser

end LibYaml
