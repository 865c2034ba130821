import LibYaml.Parser.Lookahead
import LibYaml.Parser.Machine

/-!
# The machine as an automaton over token types

What is left of the parser's state machine when only the types of tokens and events are kept:
`step` moves a state, a stack of states and a list of token types.  Every move keeps the question
whether the tokens left are a word of what the grammar, read as the code reads it, allows next
(`step_iff`), and every move makes the configuration lighter (`step_weight`).
-/

namespace LibYaml

namespace Automaton

open TokenGrammar

structure Config where
  state : ParserState
  states : List ParserState
  tokens : List TokenType
deriving DecidableEq

abbrev Move := Option (EventType × Config)

/-- Deliver `e` and return to the state on top of the stack. -/
def pop (e : EventType) (states : List ParserState) (w : List TokenType) : Move :=
  match states with
  | [] => none
  | s :: rest => some (e, ⟨s, rest, w⟩)

/-- A node's content; `present` tells whether it has properties. -/
def content (k : NodeKind) (present : Bool) (states : List ParserState) : List TokenType → Move
  | [] => none
  | t :: w =>
    if k = .blockOrIndentless ∧ t = .blockEntry then
      some (.sequenceStart, ⟨.indentlessSequenceEntry, states, t :: w⟩)
    else if t = .scalar then pop .scalar states w
    else if t = .flowSequenceStart then
      some (.sequenceStart, ⟨.flowSequenceFirstEntry, states, t :: w⟩)
    else if t = .flowMappingStart then
      some (.mappingStart, ⟨.flowMappingFirstKey, states, t :: w⟩)
    else if k ≠ .flow ∧ t = .blockSequenceStart then
      some (.sequenceStart, ⟨.blockSequenceFirstEntry, states, t :: w⟩)
    else if k ≠ .flow ∧ t = .blockMappingStart then
      some (.mappingStart, ⟨.blockMappingFirstKey, states, t :: w⟩)
    else if present then pop .scalar states (t :: w)
    else none

def node (k : NodeKind) (states : List ParserState) : List TokenType → Move
  | [] => none
  | t :: w =>
    if t = .alias then pop .alias states w
    else content k (stripProperties (t :: w)).1 states (stripProperties (t :: w)).2

/-- A node that may be missing, with `after` below it. -/
def optionalNode (k : NodeKind) (follow : List TokenType) (after : ParserState)
    (states : List ParserState) : List TokenType → Move
  | [] => none
  | t :: w =>
    if t ∈ follow then some (.scalar, ⟨after, states, t :: w⟩) else node k (after :: states) (t :: w)

def streamStart (states : List ParserState) : List TokenType → Move
  | [] => none
  | t :: w =>
    if t = .streamStart then some (.streamStart, ⟨.implicitDocumentStart, states, w⟩) else none

def documentStart (states : List ParserState) : List TokenType → Move
  | [] => none
  | t :: w =>
    if t = .streamEnd then some (.streamEnd, ⟨.end, states, w⟩)
    else
      match (t :: w).dropWhile isDirective with
      | .documentStart :: v =>
        some (.documentStart, ⟨.documentContent, .documentEnd :: states, v⟩)
      | _ => none

def implicitDocumentStart (states : List ParserState) : List TokenType → Move
  | [] => none
  | t :: w =>
    if t ∈ [TokenType.versionDirective, .tagDirective, .documentStart, .streamEnd] then
      documentStart states (t :: w)
    else some (.documentStart, ⟨.blockNode, .documentEnd :: states, t :: w⟩)

def documentContent (states : List ParserState) : List TokenType → Move
  | [] => none
  | t :: w =>
    if t ∈ [TokenType.versionDirective, .tagDirective, .documentStart, .documentEnd,
        .streamEnd] then pop .scalar states (t :: w)
    else node .block states (t :: w)

def documentEnd (states : List ParserState) : List TokenType → Move
  | [] => none
  | t :: w => some (.documentEnd, ⟨.documentStart, states, if t = .documentEnd then w else t :: w⟩)

def blockSequenceEntry (states : List ParserState) : List TokenType → Move
  | [] => none
  | t :: w =>
    if t = .blockEntry then
      optionalNode .block [.blockEntry, .blockEnd] .blockSequenceEntry states w
    else if t = .blockEnd then pop .sequenceEnd states w
    else none

def indentlessSequenceEntry (states : List ParserState) : List TokenType → Move
  | [] => none
  | t :: w =>
    if t = .blockEntry then
      optionalNode .block [.blockEntry, .key, .value, .blockEnd] .indentlessSequenceEntry states w
    else pop .sequenceEnd states (t :: w)

def blockMappingKey (states : List ParserState) : List TokenType → Move
  | [] => none
  | t :: w =>
    if t = .key then
      optionalNode .blockOrIndentless [.key, .value, .blockEnd] .blockMappingValue states w
    else if t = .blockEnd then pop .mappingEnd states w
    else none

def blockMappingValue (states : List ParserState) : List TokenType → Move
  | [] => none
  | t :: w =>
    if t = .value then
      optionalNode .blockOrIndentless [.key, .value, .blockEnd] .blockMappingKey states w
    else some (.scalar, ⟨.blockMappingKey, states, t :: w⟩)

/-- The event a flow collection ends with. -/
def endEvent : FlowKind → EventType
  | .sequence => .sequenceEnd
  | .mapping => .mappingEnd

def flowSequenceEntry (states : List ParserState) : List TokenType → Move
  | [] => none
  | t :: w =>
    if t = .key then some (.mappingStart, ⟨.flowSequenceEntryMappingKey, states, w⟩)
    else if t = .flowSequenceEnd then pop .sequenceEnd states w
    else node .flow (.flowSequenceEntry :: states) (t :: w)

def flowMappingKey (states : List ParserState) : List TokenType → Move
  | [] => none
  | t :: w =>
    if t = .key then
      optionalNode .flow [.value, .flowEntry, .flowMappingEnd] .flowMappingValue states w
    else if t = .flowMappingEnd then pop .mappingEnd states w
    else node .flow (.flowMappingEmptyValue :: states) (t :: w)

/-- Where an entry of a flow collection may start. -/
def flowEntry : FlowKind → List ParserState → List TokenType → Move
  | .sequence => flowSequenceEntry
  | .mapping => flowMappingKey

/-- Behind an entry of a flow collection. -/
def flowSeparator (s : FlowKind) (states : List ParserState) : List TokenType → Move
  | [] => none
  | t :: w =>
    if t = s.closing then pop (endEvent s) states w
    else if t = .flowEntry then flowEntry s states w
    else none

def flowSequenceEntryMappingKey (states : List ParserState) : List TokenType → Move
  | [] => none
  | t :: w =>
    if t ∈ [TokenType.value, .flowEntry, .flowSequenceEnd] then
      some (.scalar, ⟨.flowSequenceEntryMappingValue, states, w⟩)
    else node .flow (.flowSequenceEntryMappingValue :: states) (t :: w)

def flowValue (follow : List TokenType) (after : ParserState) (states : List ParserState) :
    List TokenType → Move
  | [] => none
  | t :: w =>
    if t = .value then optionalNode .flow follow after states w
    else some (.scalar, ⟨after, states, t :: w⟩)

def step (c : Config) : Move :=
  match c.state with
  | .streamStart => streamStart c.states c.tokens
  | .implicitDocumentStart => implicitDocumentStart c.states c.tokens
  | .documentStart => documentStart c.states (c.tokens.dropWhile (· = .documentEnd))
  | .documentContent => documentContent c.states c.tokens
  | .documentEnd => documentEnd c.states c.tokens
  | .blockNode => node .block c.states c.tokens
  | .blockNodeOrIndentlessSequence => node .blockOrIndentless c.states c.tokens
  | .flowNode => node .flow c.states c.tokens
  | .blockSequenceFirstEntry => blockSequenceEntry c.states c.tokens.tail
  | .blockSequenceEntry => blockSequenceEntry c.states c.tokens
  | .indentlessSequenceEntry => indentlessSequenceEntry c.states c.tokens
  | .blockMappingFirstKey => blockMappingKey c.states c.tokens.tail
  | .blockMappingKey => blockMappingKey c.states c.tokens
  | .blockMappingValue => blockMappingValue c.states c.tokens
  | .flowSequenceFirstEntry => flowEntry .sequence c.states c.tokens.tail
  | .flowSequenceEntry => flowSeparator .sequence c.states c.tokens
  | .flowSequenceEntryMappingKey => flowSequenceEntryMappingKey c.states c.tokens
  | .flowSequenceEntryMappingValue =>
    flowValue [.flowEntry, .flowSequenceEnd] .flowSequenceEntryMappingEnd c.states c.tokens
  | .flowSequenceEntryMappingEnd =>
    if c.tokens = [] then none else some (.mappingEnd, ⟨.flowSequenceEntry, c.states, c.tokens⟩)
  | .flowMappingFirstKey => flowEntry .mapping c.states c.tokens.tail
  | .flowMappingKey => flowSeparator .mapping c.states c.tokens
  | .flowMappingValue => flowValue [.flowEntry, .flowMappingEnd] .flowMappingKey c.states c.tokens
  | .flowMappingEmptyValue =>
    if c.tokens = [] then none else some (.scalar, ⟨.flowMappingKey, c.states, c.tokens⟩)
  | .end => none

/-! ## What may follow -/

/-- What may follow in `state`, when what follows it below is `K`. -/
def After (state : ParserState) (K : Lang) : Lang :=
  match state with
  | .streamStart => Stream .code
  | .implicitDocumentStart => fun w =>
    StreamRest .code w ∨ Then (TokenGrammar.Node .code .block) (DocumentRest .code) w
  | .documentStart | .documentEnd => DocumentRest .code
  | .documentContent => Then (OptNode .code .block) K
  | .blockNode => Then (TokenGrammar.Node .code .block) K
  | .blockNodeOrIndentlessSequence => Then (TokenGrammar.Node .code .blockOrIndentless) K
  | .flowNode => Then (TokenGrammar.Node .code .flow) K
  | .blockSequenceFirstEntry => Tok .blockSequenceStart (Then (BlockEntries .code) (Tok .blockEnd K))
  | .blockSequenceEntry => Then (BlockEntries .code) (Tok .blockEnd K)
  | .indentlessSequenceEntry => Then (BlockEntries .code) K
  | .blockMappingFirstKey => Tok .blockMappingStart (Then (BlockPairs .code) (Tok .blockEnd K))
  | .blockMappingKey => Then (BlockPairs .code) (Tok .blockEnd K)
  | .blockMappingValue =>
    Then (OptValue .code .blockOrIndentless) (Then (BlockPairs .code) (Tok .blockEnd K))
  | .flowSequenceFirstEntry => Tok .flowSequenceStart (FlowRest .code .sequence K)
  | .flowSequenceEntry | .flowSequenceEntryMappingEnd => FlowTail .code .sequence K
  | .flowSequenceEntryMappingKey => PairRest (FlowTail .code .sequence K)
  | .flowSequenceEntryMappingValue => Then (OptValue .code .flow) (FlowTail .code .sequence K)
  | .flowMappingFirstKey => Tok .flowMappingStart (FlowRest .code .mapping K)
  | .flowMappingKey | .flowMappingEmptyValue => FlowTail .code .mapping K
  | .flowMappingValue => Then (OptValue .code .flow) (FlowTail .code .mapping K)
  | .end => fun w => w = []

/-- What may follow once the machine pops the stack. -/
def Follows : List ParserState → Lang
  | [] => fun _ => False
  | s :: rest => After s (Follows rest)

/-- The tokens left are a word of what the grammar allows next. -/
def Config.Viable (c : Config) : Prop := After c.state (Follows c.states) c.tokens

/-- The tokens that may follow first when the machine pops `s`. -/
def followSet : ParserState → List TokenType
  | .documentEnd => [.documentEnd, .versionDirective, .tagDirective, .documentStart, .streamEnd]
  | .blockSequenceEntry => [.blockEntry, .blockEnd]
  | .indentlessSequenceEntry => [.blockEntry, .key, .value, .blockEnd]
  | .blockMappingKey => [.key, .blockEnd]
  | .blockMappingValue => [.value, .key, .blockEnd]
  | .flowSequenceEntry | .flowSequenceEntryMappingEnd => [.flowSequenceEnd, .flowEntry]
  | .flowSequenceEntryMappingValue => [.value, .flowSequenceEnd, .flowEntry]
  | .flowMappingKey | .flowMappingEmptyValue => [.flowMappingEnd, .flowEntry]
  | .flowMappingValue => [.value, .flowMappingEnd, .flowEntry]
  | _ => []

def followOf : List ParserState → List TokenType
  | [] => []
  | s :: _ => followSet s

/-- The tokens that may follow a node of kind `k`. -/
def kindFollow : NodeKind → List TokenType
  | .block => [.documentEnd, .versionDirective, .tagDirective, .documentStart, .streamEnd,
      .blockEntry, .key, .value, .blockEnd]
  | .blockOrIndentless => [.key, .value, .blockEnd]
  | .flow => [.value, .flowEntry, .flowSequenceEnd, .flowMappingEnd]

/-- A node of kind `k` may be parsed with `states` below it. -/
def Fits (k : NodeKind) (states : List ParserState) : Prop :=
  ∀ t ∈ followOf states, t ∈ kindFollow k

/-- A stack of states to return to. -/
inductive Stack : List ParserState → Prop
  | nil : Stack []
  | push {s : ParserState} {states : List ParserState} (hs : followSet s ≠ [])
      (hi : s = .indentlessSequenceEntry → Fits .blockOrIndentless states)
      (h : Stack states) : Stack (s :: states)

/-- The token that brought the machine into a state, and that the state has still to skip. -/
def opener : ParserState → Option TokenType
  | .blockSequenceFirstEntry => some .blockSequenceStart
  | .blockMappingFirstKey => some .blockMappingStart
  | .flowSequenceFirstEntry => some .flowSequenceStart
  | .flowMappingFirstKey => some .flowMappingStart
  | _ => none

/-- The kind of node that a state may parse in place of itself. -/
def nodeKind : ParserState → Option NodeKind
  | .documentContent | .blockNode => some .block
  | .blockNodeOrIndentlessSequence | .indentlessSequenceEntry => some .blockOrIndentless
  | .flowNode => some .flow
  | _ => none

structure Config.Valid (c : Config) : Prop where
  stack : Stack c.states
  opens : ∀ t, opener c.state = some t → c.tokens.head? = some t
  fits : ∀ k, nodeKind c.state = some k → Fits k c.states
  root : c.state = .documentContent → ∃ rest, c.states = .documentEnd :: rest

/-- The move keeps the question whether `w` is a word of `L`, and answers it with no if there is
none.  It ends the stream just when it delivers the event for it. -/
def Keeps (L : Lang) (w : List TokenType) (m : Move) : Prop :=
  match m with
  | some (e, c) => c.Valid ∧ (L w ↔ c.Viable) ∧ (e = .streamEnd ↔ c.state = .end)
  | none => ¬L w

section Moves

variable {L : Lang} {w v : List TokenType} {states : List ParserState} {s : ParserState}
  {e : EventType} {k : NodeKind}

theorem Keeps.ite {c : Prop} [Decidable c] {x y : Move} (hx : c → Keeps L w x)
    (hy : ¬c → Keeps L w y) : Keeps L w (if c then x else y) := by
  split
  · exact hx ‹_›
  · exact hy ‹_›

theorem starts_false : Starts [] fun _ => False := fun _ h => h.elim

theorem Stack.starts : ∀ {states : List ParserState}, Stack states →
    Starts (followOf states) (Follows states)
  | [], _ => starts_false
  | s :: states, .push hs hi h => by
    have hend : Starts [.blockEnd] (Tok .blockEnd (Follows states)) := starts_tok
    cases s with
    | documentEnd =>
      rintro w ⟨n, v, hv, rfl⟩
      obtain ⟨t, v, rfl, ht⟩ := starts_streamRest v hv
      cases n with
      | zero => exact ⟨t, v, rfl, List.mem_cons_of_mem _ ht⟩
      | succ n => exact ⟨_, _, rfl, by simp [followOf, followSet]⟩
    | blockSequenceEntry => exact starts_then_blockEntries hend
    | indentlessSequenceEntry =>
      refine (starts_then_blockEntries h.starts).mono fun t ht => ?_
      rcases List.mem_cons.mp ht with rfl | ht
      · simp [followOf, followSet]
      · exact List.mem_cons_of_mem _ (hi rfl t ht)
    | blockMappingKey => exact starts_then_blockPairs hend
    | blockMappingValue => exact starts_then_optValue (starts_then_blockPairs hend)
    | flowSequenceEntry | flowSequenceEntryMappingEnd => exact starts_flowTail
    | flowSequenceEntryMappingValue => exact starts_then_optValue starts_flowTail
    | flowMappingKey | flowMappingEmptyValue => exact starts_flowTail
    | flowMappingValue => exact starts_then_optValue starts_flowTail
    | _ => exact absurd rfl hs

theorem ne_end (hs : followSet s ≠ []) : s ≠ .end := by
  rintro rfl
  exact hs rfl

theorem pop_keeps (h : Stack states) (he : e ≠ .streamEnd) (hL : L w ↔ Follows states v) :
    Keeps L w (pop e states v) := by
  cases h with
  | nil => exact fun hw => hL.mp hw
  | @push s rest hs hi h =>
    refine ⟨⟨h, fun t ht => ?_, fun k hk => ?_, ?_⟩, hL, iff_of_false he ?_⟩
    · cases s <;> simp_all [opener, followSet]
    · cases s <;> simp_all [nodeKind, followSet]
    · rintro rfl
      exact absurd rfl hs
    · exact ne_end hs

/-- A move to a state that neither opens a collection nor parses a node in its own place. -/
theorem goto_keeps (h : Stack states) (ho : opener s = none) (hk : nodeKind s = none)
    (he : e = .streamEnd ↔ s = .end) (hL : L w ↔ After s (Follows states) v) :
    Keeps L w (some (e, ⟨s, states, v⟩)) :=
  ⟨⟨h, by simp [ho], by simp [hk], by rintro rfl; simp [nodeKind] at hk⟩, hL, he⟩

/-- A move to a state that opens a collection. -/
theorem open_keeps (h : Stack states) {t : TokenType} (ho : opener s = some t)
    (hk : nodeKind s = none)
    (he : e = .streamEnd ↔ s = .end) (hL : L w ↔ After s (Follows states) (t :: v)) :
    Keeps L w (some (e, ⟨s, states, t :: v⟩)) :=
  ⟨⟨h, by simp [ho], by simp [hk], by rintro rfl; simp [nodeKind] at hk⟩, hL, he⟩

theorem notMem_nodeFirst {t : TokenType} (h : t ∈ kindFollow k) : t ∉ nodeFirst k := by
  cases k <;> simp only [kindFollow, List.mem_cons, List.not_mem_nil, or_false] at h <;>
    rcases h with rfl | rfl | rfl | rfl | rfl | rfl | rfl | rfl | rfl <;>
    simp [nodeFirst, contentFirst]

theorem not_follows (h : Stack states) (hf : Fits k states) {t : TokenType}
    (ht : t ∈ nodeFirst k) (v : List TokenType) : ¬Follows states (t :: v) :=
  fun hw => notMem_nodeFirst (hf t (h.starts.mem hw)) ht

theorem content_keeps (h : Stack states) (hf : Fits k states) {present : Bool} {t : TokenType}
    (hL : L w ↔ Then (Content .code k) (Follows states) (t :: v) ∨
      present = true ∧ Follows states (t :: v)) :
    Keeps L w (content k present states (t :: v)) := by
  have hfirst (ht : t ∈ contentFirst k) :
      L w ↔ Then (Content .code k) (Follows states) (t :: v) := by
    rw [hL]
    exact or_iff_left fun hp => not_follows h hf (by simp [nodeFirst, ht]) v hp.2
  refine Keeps.ite (fun hi => ?_) fun hi => Keeps.ite (fun hs => ?_) fun hs =>
    Keeps.ite (fun hs => ?_) fun hfs => Keeps.ite (fun hs => ?_) fun hfm =>
    Keeps.ite (fun hs => ?_) fun hbs => Keeps.ite (fun hs => ?_) fun hbm => ?_
  · obtain ⟨rfl, rfl⟩ := hi
    refine ⟨⟨h, by simp [opener], fun k hk => ?_, by simp⟩, ?_, by simp⟩
    · obtain rfl : NodeKind.blockOrIndentless = k := by simpa [nodeKind] using hk
      exact hf
    · rw [hfirst (by simp [contentFirst])]
      exact then_content_blockEntry fun w => not_follows h hf (by simp [nodeFirst, contentFirst]) w
  · subst hs
    exact pop_keeps h (by simp) ((hfirst (by cases k <;> simp [contentFirst])).trans then_content_scalar)
  · subst hs
    refine open_keeps h rfl rfl (by simp) ((hfirst (by cases k <;> simp [contentFirst])).trans ?_)
    simpa [After, FlowKind.opening] using then_content_flow (s := .sequence)
  · subst hs
    refine open_keeps h rfl rfl (by simp) ((hfirst (by cases k <;> simp [contentFirst])).trans ?_)
    simpa [After, FlowKind.opening] using then_content_flow (s := .mapping)
  · obtain ⟨hk, rfl⟩ := hs
    refine open_keeps h rfl rfl (by simp) ((hfirst (by cases k <;> simp_all [contentFirst])).trans ?_)
    simp [After, then_content_blockSequence, hk]
  · obtain ⟨hk, rfl⟩ := hs
    refine open_keeps h rfl rfl (by simp) ((hfirst (by cases k <;> simp_all [contentFirst])).trans ?_)
    simp [After, then_content_blockMapping, hk]
  · have hnone : L w ↔ present = true ∧ Follows states (t :: v) := by
      rw [hL]
      refine or_iff_right fun hc => ?_
      have := starts_then_content.mem hc
      cases k <;> simp_all [contentFirst]
    cases present with
    | true => exact pop_keeps h (by simp) (by simpa using hnone)
    | false => exact fun hw => by simpa using hnone.mp hw

theorem node_keeps (h : Stack states) (hf : Fits k states)
    (hL : L w ↔ Then (TokenGrammar.Node .code k) (Follows states) v) : Keeps L w (node k states v) := by
  have hS (t : TokenType) (ht : t ∈ followOf states) : t ∉ nodeFirst k := notMem_nodeFirst (hf t ht)
  rcases v with _ | ⟨t, v⟩
  · exact fun hw => (starts_then_node.not_nil) (hL.mp hw)
  refine Keeps.ite (fun ht => ?_) fun ht => ?_
  · subst ht
    exact pop_keeps h (by simp) (hL.trans then_node_alias)
  rw [then_node_iff h.starts hS ht] at hL
  rcases hs : stripProperties (t :: v) with ⟨present, _ | ⟨t', v'⟩⟩
  · rw [hs] at hL
    exact fun hw => (hL.mp hw).elim starts_then_content.not_nil fun hp => h.starts.not_nil hp.2
  · rw [hs] at hL
    exact content_keeps h hf hL

theorem optionalNode_keeps {after : ParserState} {follow : List TokenType}
    (h : Stack (after :: states)) (ho : opener after = none) (hn : nodeKind after = none ∨
      nodeKind after = some .blockOrIndentless ∧ Fits .blockOrIndentless states)
    (hf : Fits k (after :: states))
    (hfollow : ∀ t ∈ follow, t ∉ nodeFirst k) (hmem : ∀ t ∈ followSet after, t ∈ follow)
    (hL : L w ↔ Then (OptNode .code k) (After after (Follows states)) v) :
    Keeps L w (optionalNode k follow after states v) := by
  rcases v with _ | ⟨t, v⟩
  · refine fun hw => ?_
    rcases then_optNode_iff.mp (hL.mp hw) with h' | h'
    · exact h.starts.not_nil h'
    · exact starts_then_node.not_nil h'
  refine Keeps.ite (fun ht => ?_) fun ht => ?_
  · rw [then_optNode_of_notMem (hfollow t ht)] at hL
    cases h with
    | push hs _ h =>
      refine ⟨⟨h, by simp [ho], fun k' hk => ?_, ?_⟩, hL, iff_of_false (by simp) (ne_end hs)⟩
      · rcases hn with hn | ⟨hn, hfit⟩
        · simp [hn] at hk
        · obtain rfl : NodeKind.blockOrIndentless = k' := by simpa [hn] using hk
          exact hfit
      · rintro rfl
        simp [nodeKind] at hn
  · refine node_keeps h hf (hL.trans (then_optNode_of_starts h.starts fun hm => ht ?_))
    exact hmem t hm

/-! ## Documents -/

theorem streamStart_keeps (h : Stack states) (hL : L w ↔ Stream .code v) :
    Keeps L w (streamStart states v) := by
  rcases v with _ | ⟨t, v⟩
  · exact fun hw => by rcases hL.mp hw with ⟨⟩
  refine Keeps.ite (fun ht => ?_) fun ht => fun hw => ?_
  · subst ht
    refine goto_keeps h rfl rfl (by simp) (hL.trans ?_)
    constructor
    · rintro (hd | ⟨n, hu, hd⟩)
      · exact Or.inl ⟨_, hd, rfl⟩
      · exact Or.inr ⟨_, _, hu, ⟨n, _, ⟨_, hd, rfl⟩, rfl⟩, by simp⟩
    · rintro (⟨v, hd, rfl⟩ | ⟨u, -, hu, ⟨n, -, ⟨v, hd, rfl⟩, rfl⟩, rfl⟩)
      · exact .explicit hd
      · have := Stream.implicit n hu hd
        simpa only [List.append_assoc, List.cons_append] using this
  · rcases hL.mp hw with ⟨⟩ <;> exact ht rfl

theorem documentStart_keeps (h : Stack states) (hL : L w ↔ StreamRest .code v) :
    Keeps L w (documentStart states v) := by
  rcases v with _ | ⟨t, v⟩
  · exact fun hw => starts_streamRest.not_nil (hL.mp hw)
  refine Keeps.ite (fun ht => ?_) fun ht => ?_
  · subst ht
    refine goto_keeps h rfl rfl (by simp) (hL.trans ?_)
    constructor
    · rintro ⟨u, hu, he⟩
      cases hu with
      | nil => exact (List.cons.inj he).2
      | @cons ds _ _ _ hds =>
        rcases ds with _ | ⟨d, ds⟩
        · exact absurd (List.cons.inj he).1 (by simp)
        · obtain ⟨rfl, -⟩ := List.cons.inj he
          simpa using hds .streamEnd (by simp)
    · rintro rfl
      exact ⟨[], .nil, rfl⟩
  · rw [streamRest_iff fun u hu => ht (List.cons.inj hu).1] at hL
    split
    · rename_i u hu
      have hst : Stack (.documentEnd :: states) := .push (by simp [followSet]) (by simp) h
      refine ⟨⟨hst, by simp [opener], fun k hk => ?_, fun _ => ⟨states, rfl⟩⟩, ?_, by simp⟩
      · obtain rfl : NodeKind.block = k := by simpa [nodeKind] using hk
        simp [Fits, followOf, followSet, kindFollow]
      · rw [hL, hu]
        constructor
        · rintro ⟨u', he, hu'⟩
          obtain ⟨-, rfl⟩ := List.cons.inj he
          exact hu'
        · exact fun hu' => ⟨u, rfl, hu'⟩
    · rename_i hno
      intro hw
      obtain ⟨u, hu, -⟩ := hL.mp hw
      exact hno u hu

theorem implicitDocumentStart_keeps (h : Stack states)
    (hL : L w ↔ StreamRest .code v ∨ Then (TokenGrammar.Node .code .block) (DocumentRest .code) v) :
    Keeps L w (implicitDocumentStart states v) := by
  rcases v with _ | ⟨t, v⟩
  · exact fun hw => (hL.mp hw).elim starts_streamRest.not_nil starts_then_node.not_nil
  refine Keeps.ite (fun ht => ?_) fun ht => ?_
  · refine documentStart_keeps h (hL.trans (or_iff_left fun hn => ?_))
    have hn := starts_then_node.mem hn
    simp only [List.mem_cons, List.not_mem_nil, or_false] at ht
    rcases ht with rfl | rfl | rfl | rfl <;> simp [nodeFirst, contentFirst] at hn
  · have hst : Stack (.documentEnd :: states) := .push (by simp [followSet]) (by simp) h
    refine ⟨⟨hst, by simp [opener], fun k hk => ?_, fun _ => ⟨states, rfl⟩⟩, ?_, by simp⟩
    · obtain rfl : NodeKind.block = k := by simpa [nodeKind] using hk
      simp [Fits, followOf, followSet, kindFollow]
    · exact hL.trans (or_iff_right fun hs => ht (starts_streamRest.mem hs))

theorem documentContent_keeps (h : Stack (.documentEnd :: states))
    (hL : L w ↔ Then (OptNode .code .block) (Follows (.documentEnd :: states)) v) :
    Keeps L w (documentContent (.documentEnd :: states) v) := by
  rcases v with _ | ⟨t, v⟩
  · refine fun hw => ?_
    rcases then_optNode_iff.mp (hL.mp hw) with h' | h'
    · exact h.starts.not_nil h'
    · exact starts_then_node.not_nil h'
  refine Keeps.ite (fun ht => ?_) fun ht => ?_
  · rw [then_optNode_of_notMem] at hL
    · exact pop_keeps h (by simp) hL
    · simp only [List.mem_cons, List.not_mem_nil, or_false] at ht
      rcases ht with rfl | rfl | rfl | rfl | rfl <;> simp [nodeFirst, contentFirst]
  · refine node_keeps h (by simp [Fits, followOf, followSet, kindFollow])
      (hL.trans (then_optNode_of_starts h.starts fun hm => ht ?_))
    simp only [followOf, followSet, List.mem_cons, List.not_mem_nil, or_false] at hm ⊢
    grind

theorem documentEnd_keeps (h : Stack states) (hL : L w ↔ DocumentRest .code v) :
    Keeps L w (documentEnd states v) := by
  rcases v with _ | ⟨t, v⟩
  · refine fun hw => starts_streamRest.not_nil (documentRest_iff.mp (hL.mp hw))
  refine goto_keeps h rfl rfl (by simp) (hL.trans ?_)
  by_cases ht : t = .documentEnd
  · subst ht
    simp [After, documentRest_iff]
  · rw [if_neg ht]
    rfl

/-! ## Block collections -/

theorem Stack.blockSequenceEntry (h : Stack states) : Stack (.blockSequenceEntry :: states) :=
  .push (by simp [followSet]) (by simp) h

theorem blockSequenceEntry_keeps (h : Stack states)
    (hL : L w ↔ Then (BlockEntries .code) (Tok .blockEnd (Follows states)) v) :
    Keeps L w (blockSequenceEntry states v) := by
  rcases v with _ | ⟨t, v⟩
  · exact fun hw => (starts_then_blockEntries starts_tok).not_nil (hL.mp hw)
  refine Keeps.ite (fun ht => ?_) fun ht => Keeps.ite (fun ht => ?_) fun ht' => ?_
  · subst ht
    refine optionalNode_keeps (h.blockSequenceEntry) rfl (Or.inl rfl)
      (by simp [Fits, followOf, followSet, kindFollow]) (by simp [nodeFirst, contentFirst])
      (by simp [followSet]) (hL.trans (then_blockEntries_entry (by simp)))
  · subst ht
    exact pop_keeps h (by simp) (hL.trans ((then_blockEntries_of_ne (by simp)).trans (by simp)))
  · intro hw
    have := (then_blockEntries_of_ne ht).mp (hL.mp hw)
    exact ht' (by simpa using (tok_cons.mp this).1)

theorem indentlessSequenceEntry_keeps (h : Stack states) (hf : Fits .blockOrIndentless states)
    (hL : L w ↔ Then (BlockEntries .code) (Follows states) v) :
    Keeps L w (indentlessSequenceEntry states v) := by
  rcases v with _ | ⟨t, v⟩
  · exact fun hw => (starts_then_blockEntries h.starts).not_nil (hL.mp hw)
  refine Keeps.ite (fun ht => ?_) fun ht => ?_
  · subst ht
    refine optionalNode_keeps (.push (by simp [followSet]) (fun _ => hf) h) rfl (Or.inr ⟨rfl, hf⟩)
      (by simp [Fits, followOf, followSet, kindFollow]) (by simp [nodeFirst, contentFirst])
      (by simp [followSet]) (hL.trans (then_blockEntries_entry fun w =>
        not_follows h hf (by simp [nodeFirst, contentFirst]) w))
  · exact pop_keeps h (by simp) (hL.trans (then_blockEntries_of_ne ht))

theorem blockMappingKey_keeps (h : Stack states)
    (hL : L w ↔ Then (BlockPairs .code) (Tok .blockEnd (Follows states)) v) :
    Keeps L w (blockMappingKey states v) := by
  rcases v with _ | ⟨t, v⟩
  · exact fun hw => (starts_then_blockPairs starts_tok).not_nil (hL.mp hw)
  refine Keeps.ite (fun ht => ?_) fun ht => Keeps.ite (fun ht => ?_) fun ht' => ?_
  · subst ht
    refine optionalNode_keeps (.push (by simp [followSet]) (by simp) h) rfl (Or.inl rfl)
      (by simp [Fits, followOf, followSet, kindFollow]) (by simp [nodeFirst, contentFirst])
      (by simp [followSet]) (hL.trans (then_blockPairs_key (by simp)))
  · subst ht
    exact pop_keeps h (by simp) (hL.trans ((then_blockPairs_of_ne (by simp)).trans (by simp)))
  · intro hw
    have := (then_blockPairs_of_ne ht).mp (hL.mp hw)
    exact ht' (by simpa using (tok_cons.mp this).1)

theorem blockMappingValue_keeps (h : Stack states)
    (hL : L w ↔ Then (OptValue .code .blockOrIndentless)
      (Then (BlockPairs .code) (Tok .blockEnd (Follows states))) v) :
    Keeps L w (blockMappingValue states v) := by
  have hK := starts_then_blockPairs (r := .code) (starts_tok (t := .blockEnd) (K := Follows states))
  rcases v with _ | ⟨t, v⟩
  · exact fun hw => (starts_then_optValue hK).not_nil (hL.mp hw)
  refine Keeps.ite (fun ht => ?_) fun ht => ?_
  · subst ht
    refine optionalNode_keeps (.push (by simp [followSet]) (by simp) h) rfl (Or.inl rfl)
      (by simp [Fits, followOf, followSet, kindFollow]) (by simp [nodeFirst, contentFirst])
      (by simp [followSet]) (hL.trans (then_optValue_value fun w hw => ?_))
    simpa using hK.mem hw
  · exact goto_keeps h rfl rfl (by simp) (hL.trans (then_optValue_of_ne ht))

/-! ## Flow collections -/

theorem flowSequenceEntry_keeps (h : Stack states)
    (hL : L w ↔ FlowRest .code .sequence (Follows states) v) :
    Keeps L w (flowSequenceEntry states v) := by
  rcases v with _ | ⟨t, v⟩
  · refine fun hw => ?_
    obtain ⟨u, -, -, ⟨v, -, rfl⟩, he⟩ := hL.mp hw
    simp at he
  refine Keeps.ite (fun ht => ?_) fun ht => Keeps.ite (fun ht => ?_) fun ht' => ?_
  · subst ht
    refine goto_keeps h rfl rfl (by simp) (hL.trans ((flowRest_of_ne (by simp) ?_).trans ?_))
    · simp [FlowKind.closing]
    · exact then_flowEntry_key_code
  · subst ht
    exact pop_keeps h (by simp) (hL.trans (flowRest_closing (s := .sequence)))
  · refine node_keeps (.push (by simp [followSet]) (by simp) h)
      (by simp [Fits, followOf, followSet, kindFollow])
      (hL.trans ((flowRest_of_ne (by simp) ht').trans (then_flowEntry_of_ne ht)))

theorem flowMappingKey_keeps (h : Stack states)
    (hL : L w ↔ FlowRest .code .mapping (Follows states) v) :
    Keeps L w (flowMappingKey states v) := by
  rcases v with _ | ⟨t, v⟩
  · refine fun hw => ?_
    obtain ⟨u, -, -, ⟨v, -, rfl⟩, he⟩ := hL.mp hw
    simp at he
  refine Keeps.ite (fun ht => ?_) fun ht => Keeps.ite (fun ht => ?_) fun ht' => ?_
  · subst ht
    refine optionalNode_keeps (.push (by simp [followSet]) (by simp) h) rfl (Or.inl rfl)
      (by simp [Fits, followOf, followSet, kindFollow]) (by simp [nodeFirst, contentFirst])
      (by simp [followSet]) (hL.trans ((flowRest_of_ne (by simp) ?_).trans
        then_flowEntry_key_mapping))
    simp [FlowKind.closing]
  · subst ht
    exact pop_keeps h (by simp) (hL.trans (flowRest_closing (s := .mapping)))
  · refine node_keeps (.push (by simp [followSet]) (by simp) h)
      (by simp [Fits, followOf, followSet, kindFollow])
      (hL.trans ((flowRest_of_ne (by simp) ht').trans (then_flowEntry_of_ne ht)))

theorem flowEntry_keeps (s : FlowKind) (h : Stack states)
    (hL : L w ↔ FlowRest .code s (Follows states) v) : Keeps L w (flowEntry s states v) := by
  cases s with
  | sequence => exact flowSequenceEntry_keeps h hL
  | mapping => exact flowMappingKey_keeps h hL

theorem flowSeparator_keeps (s : FlowKind) (h : Stack states)
    (hL : L w ↔ FlowTail .code s (Follows states) v) : Keeps L w (flowSeparator s states v) := by
  rcases v with _ | ⟨t, v⟩
  · exact fun hw => starts_flowTail.not_nil (hL.mp hw)
  refine Keeps.ite (fun ht => ?_) fun ht => Keeps.ite (fun ht => ?_) fun ht' => ?_
  · subst ht
    exact pop_keeps h (by cases s <;> simp [endEvent]) (hL.trans flowTail_closing)
  · subst ht
    exact flowEntry_keeps s h (hL.trans flowTail_flowEntry)
  · exact fun hw => not_flowTail ht ht' (hL.mp hw)

theorem flowSequenceEntryMappingKey_keeps (h : Stack states)
    (hL : L w ↔ PairRest (FlowTail .code .sequence (Follows states)) v) :
    Keeps L w (flowSequenceEntryMappingKey states v) := by
  rcases v with _ | ⟨t, v⟩
  · refine fun hw => ?_
    rcases hL.mp hw with h' | ⟨x, v, he, -⟩
    · exact starts_then_node.not_nil h'
    · cases he
  refine Keeps.ite (fun ht => ?_) fun ht => ?_
  · refine goto_keeps h rfl rfl (by simp) (hL.trans ?_)
    constructor
    · rintro (h' | ⟨x, v', he, -, h'⟩)
      · have h' := starts_then_node.mem h'
        simp only [List.mem_cons, List.not_mem_nil, or_false] at ht
        rcases ht with rfl | rfl | rfl <;> simp [nodeFirst, contentFirst] at h'
      · obtain ⟨-, rfl⟩ := List.cons.inj he
        exact h'
    · exact fun h' => Or.inr ⟨t, v, rfl, ht, h'⟩
  · refine node_keeps (.push (by simp [followSet]) (by simp) h)
      (by simp [Fits, followOf, followSet, kindFollow]) (hL.trans (or_iff_left ?_))
    rintro ⟨x, v', he, hx, -⟩
    obtain ⟨rfl, -⟩ := List.cons.inj he
    exact ht hx

theorem flowValue_keeps (s : FlowKind) {after : ParserState} {follow : List TokenType}
    (h : Stack (after :: states)) (ho : opener after = none) (hn : nodeKind after = none)
    (hf : Fits .flow (after :: states)) (hfollow : ∀ t ∈ follow, t ∉ nodeFirst .flow)
    (hmem : ∀ t ∈ followSet after, t ∈ follow)
    (ha : After after (Follows states) = FlowTail .code s (Follows states))
    (hL : L w ↔ Then (OptValue .code .flow) (FlowTail .code s (Follows states)) v) :
    Keeps L w (flowValue follow after states v) := by
  rcases v with _ | ⟨t, v⟩
  · exact fun hw => (starts_then_optValue starts_flowTail).not_nil (hL.mp hw)
  refine Keeps.ite (fun ht => ?_) fun ht => ?_
  · subst ht
    refine optionalNode_keeps h ho (Or.inl hn) hf hfollow hmem ?_
    rw [ha]
    exact hL.trans (then_optValue_value fun w =>
      not_flowTail (closing_ne_value s).symm (by simp))
  · cases h with
    | push hs _ h =>
      refine goto_keeps h ho hn (iff_of_false (by simp) (ne_end hs)) ?_
      rw [ha]
      exact hL.trans (then_optValue_of_ne ht)

end Moves

/-! ## Runs -/

/-- A move keeps the question whether the tokens left are a word of what the grammar allows. -/
theorem step_keeps {c : Config} (h : c.Valid) (he : c.state ≠ .end) :
    Keeps (After c.state (Follows c.states)) c.tokens (step c) := by
  obtain ⟨state, states, tokens⟩ := c
  obtain ⟨hst, hopen, hfit, hroot⟩ := h
  have hskip (t : TokenType) (ht : opener state = some t) : ∃ v, tokens = t :: v :=
    List.head?_eq_some_iff.mp (hopen t ht)
  cases state with
  | streamStart => exact streamStart_keeps hst Iff.rfl
  | implicitDocumentStart => exact implicitDocumentStart_keeps hst Iff.rfl
  | documentStart => exact documentStart_keeps hst documentRest_iff
  | documentContent =>
    obtain ⟨rest, rfl⟩ := hroot rfl
    exact documentContent_keeps hst Iff.rfl
  | documentEnd => exact documentEnd_keeps hst Iff.rfl
  | blockNode | blockNodeOrIndentlessSequence | flowNode =>
    exact node_keeps hst (hfit _ rfl) Iff.rfl
  | blockSequenceFirstEntry =>
    obtain ⟨v, rfl⟩ := hskip _ rfl
    exact blockSequenceEntry_keeps hst (by simp [After])
  | blockSequenceEntry => exact blockSequenceEntry_keeps hst Iff.rfl
  | indentlessSequenceEntry => exact indentlessSequenceEntry_keeps hst (hfit _ rfl) Iff.rfl
  | blockMappingFirstKey =>
    obtain ⟨v, rfl⟩ := hskip _ rfl
    exact blockMappingKey_keeps hst (by simp [After])
  | blockMappingKey => exact blockMappingKey_keeps hst Iff.rfl
  | blockMappingValue => exact blockMappingValue_keeps hst Iff.rfl
  | flowSequenceFirstEntry =>
    obtain ⟨v, rfl⟩ := hskip _ rfl
    exact flowEntry_keeps .sequence hst (by simp [After])
  | flowSequenceEntry => exact flowSeparator_keeps .sequence hst Iff.rfl
  | flowSequenceEntryMappingKey => exact flowSequenceEntryMappingKey_keeps hst Iff.rfl
  | flowSequenceEntryMappingValue =>
    exact flowValue_keeps .sequence (.push (by simp [followSet]) (by simp) hst) rfl rfl
      (by simp [Fits, followOf, followSet, kindFollow]) (by simp [nodeFirst, contentFirst])
      (by simp [followSet]) rfl Iff.rfl
  | flowSequenceEntryMappingEnd =>
    refine Keeps.ite (fun ht => ?_) fun _ => goto_keeps hst rfl rfl (by simp) Iff.rfl
    subst ht
    exact starts_flowTail.not_nil
  | flowMappingFirstKey =>
    obtain ⟨v, rfl⟩ := hskip _ rfl
    exact flowEntry_keeps .mapping hst (by simp [After])
  | flowMappingKey => exact flowSeparator_keeps .mapping hst Iff.rfl
  | flowMappingValue =>
    exact flowValue_keeps .mapping (.push (by simp [followSet]) (by simp) hst) rfl rfl
      (by simp [Fits, followOf, followSet, kindFollow]) (by simp [nodeFirst, contentFirst])
      (by simp [followSet]) rfl Iff.rfl
  | flowMappingEmptyValue =>
    refine Keeps.ite (fun ht => ?_) fun _ => goto_keeps hst rfl rfl (by simp) Iff.rfl
    subst ht
    exact starts_flowTail.not_nil
  | «end» => exact absurd rfl he

/-- What a state weighs beside the tokens: it pays for the moves that take no token. -/
def rank : ParserState → Nat
  | .implicitDocumentStart | .flowSequenceEntryMappingKey => 4
  | .documentContent | .blockNode | .blockNodeOrIndentlessSequence | .flowNode
  | .flowSequenceEntryMappingValue => 2
  | .documentEnd | .indentlessSequenceEntry | .blockMappingValue | .flowSequenceEntryMappingEnd
  | .flowMappingValue | .flowMappingEmptyValue => 1
  | _ => 0

def load (states : List ParserState) : Nat := (states.map rank).sum

def Config.weight (c : Config) : Nat := 8 * c.tokens.length + rank c.state + load c.states

/-- The move leads to a configuration of weight `n` at most. -/
def Weighs (n : Nat) (m : Move) : Prop := ∀ e c, m = some (e, c) → c.weight ≤ n

section Weights

variable {n m : Nat} {states : List ParserState} {s : ParserState} {e : EventType} {k : NodeKind}

theorem Weighs.none : Weighs n none := fun _ _ h => by cases h

theorem Weighs.some {c : Config} (h : c.weight ≤ n) : Weighs n (some (e, c)) := by
  rintro e' c' he
  obtain ⟨-, rfl⟩ := Prod.mk.inj (Option.some.inj he)
  exact h

theorem Weighs.ite {c : Prop} [Decidable c] {x y : Move} (hx : c → Weighs n x)
    (hy : ¬c → Weighs n y) : Weighs n (if c then x else y) := by
  split
  · exact hx ‹_›
  · exact hy ‹_›

theorem Weighs.mono {x : Move} (h : Weighs n x) (hn : n ≤ m) : Weighs m x :=
  fun e c he => (h e c he).trans hn

@[simp] theorem load_cons : load (s :: states) = rank s + load states := by simp [load]

theorem weighs_pop (v : List TokenType) (h : 8 * v.length + load states ≤ n) :
    Weighs n (pop e states v) := by
  cases states with
  | nil => exact Weighs.none
  | cons s rest =>
    refine Weighs.some ?_
    rw [load_cons] at h
    simp only [Config.weight]
    omega

theorem weighs_goto (v : List TokenType) (h : 8 * v.length + rank s + load states ≤ n) :
    Weighs n (some (e, ⟨s, states, v⟩)) :=
  Weighs.some h

theorem weighs_content (present : Bool) (v : List TokenType)
    (h : 8 * v.length + load states + 1 ≤ n) : Weighs n (content k present states v) := by
  rcases v with _ | ⟨t, v⟩
  · exact Weighs.none
  have hlen : (t :: v).length = v.length + 1 := rfl
  refine Weighs.ite (fun _ => weighs_goto _ ?_) fun _ => Weighs.ite (fun _ => weighs_pop _ ?_)
    fun _ => Weighs.ite (fun _ => weighs_goto _ ?_) fun _ => Weighs.ite (fun _ => weighs_goto _ ?_)
    fun _ => Weighs.ite (fun _ => weighs_goto _ ?_) fun _ => Weighs.ite (fun _ => weighs_goto _ ?_)
    fun _ => Weighs.ite (fun _ => weighs_pop _ ?_) fun _ => Weighs.none <;>
  simp only [rank, hlen] at h ⊢ <;> omega

theorem stripProperties_length (w : List TokenType) : (stripProperties w).2.length ≤ w.length := by
  rcases stripProperties_spec w with ⟨hs, -⟩ | ⟨p, v, -, rfl, hs⟩
  · rw [hs]
  · rw [hs]
    simp

theorem weighs_node (v : List TokenType) (h : 8 * v.length + load states + 1 ≤ n) :
    Weighs n (node k states v) := by
  rcases v with _ | ⟨t, v⟩
  · exact Weighs.none
  have hlen : (t :: v).length = v.length + 1 := rfl
  refine Weighs.ite (fun _ => weighs_pop _ ?_) fun _ => weighs_content _ _ ?_
  · omega
  · have := stripProperties_length (t :: v)
    omega

theorem weighs_optionalNode {follow : List TokenType} {after : ParserState} (v : List TokenType)
    (h : 8 * v.length + rank after + load states + 1 ≤ n) :
    Weighs n (optionalNode k follow after states v) := by
  rcases v with _ | ⟨t, v⟩
  · exact Weighs.none
  refine Weighs.ite (fun _ => weighs_goto _ ?_) fun _ => weighs_node _ ?_
  · omega
  · rw [load_cons]
    omega

theorem weighs_documentStart (v : List TokenType) (h : 8 * v.length + load states ≤ n + 1) :
    Weighs n (documentStart states v) := by
  rcases v with _ | ⟨t, v⟩
  · exact Weighs.none
  have hlen : (t :: v).length = v.length + 1 := rfl
  refine Weighs.ite (fun _ => weighs_goto _ ?_) fun _ => ?_
  · simp only [rank]
    omega
  · split
    · rename_i u hu
      have := (List.dropWhile_sublist (l := t :: v) isDirective).length_le
      rw [hu, List.length_cons] at this
      refine weighs_goto _ ?_
      simp only [load_cons, rank]
      omega
    · exact Weighs.none

theorem weighs_flowEntry (s : FlowKind) (v : List TokenType) (h : 8 * v.length + load states + 7 ≤ n) :
    Weighs n (flowEntry s states v) := by
  rcases v with _ | ⟨t, v⟩
  · cases s <;> exact Weighs.none
  have hlen : (t :: v).length = v.length + 1 := rfl
  cases s with
  | sequence =>
    refine Weighs.ite (fun _ => weighs_goto _ ?_) fun _ => Weighs.ite (fun _ => weighs_pop _ ?_)
      fun _ => weighs_node _ ?_
    · simp only [rank]
      omega
    · omega
    · simp only [load_cons, rank]
      omega
  | mapping =>
    refine Weighs.ite (fun _ => weighs_optionalNode _ ?_) fun _ =>
      Weighs.ite (fun _ => weighs_pop _ ?_) fun _ => weighs_node _ ?_
    · simp only [rank]
      omega
    · omega
    · simp only [load_cons, rank]
      omega

theorem weighs_flowSeparator (s : FlowKind) (v : List TokenType)
    (h : 8 * v.length + load states ≤ n + 1) : Weighs n (flowSeparator s states v) := by
  rcases v with _ | ⟨t, v⟩
  · exact Weighs.none
  have hlen : (t :: v).length = v.length + 1 := rfl
  refine Weighs.ite (fun _ => weighs_pop _ ?_) fun _ => Weighs.ite (fun _ => weighs_flowEntry s _ ?_)
    fun _ => Weighs.none <;> omega

theorem weighs_blockSequenceEntry (v : List TokenType) (h : 8 * v.length + load states ≤ n + 1) :
    Weighs n (blockSequenceEntry states v) := by
  rcases v with _ | ⟨t, v⟩
  · exact Weighs.none
  have hlen : (t :: v).length = v.length + 1 := rfl
  refine Weighs.ite (fun _ => weighs_optionalNode _ ?_) fun _ =>
    Weighs.ite (fun _ => weighs_pop _ ?_) fun _ => Weighs.none
  · simp only [rank]
    omega
  · omega

theorem weighs_indentlessSequenceEntry (v : List TokenType) (h : 8 * v.length + load states ≤ n) :
    Weighs n (indentlessSequenceEntry states v) := by
  rcases v with _ | ⟨t, v⟩
  · exact Weighs.none
  have hlen : (t :: v).length = v.length + 1 := rfl
  refine Weighs.ite (fun _ => weighs_optionalNode _ ?_) fun _ => weighs_pop _ h
  simp only [rank]
  omega

theorem weighs_blockMappingKey (v : List TokenType) (h : 8 * v.length + load states ≤ n + 1) :
    Weighs n (blockMappingKey states v) := by
  rcases v with _ | ⟨t, v⟩
  · exact Weighs.none
  have hlen : (t :: v).length = v.length + 1 := rfl
  refine Weighs.ite (fun _ => weighs_optionalNode _ ?_) fun _ =>
    Weighs.ite (fun _ => weighs_pop _ ?_) fun _ => Weighs.none
  · simp only [rank]
    omega
  · omega

theorem weighs_blockMappingValue (v : List TokenType) (h : 8 * v.length + load states ≤ n) :
    Weighs n (blockMappingValue states v) := by
  rcases v with _ | ⟨t, v⟩
  · exact Weighs.none
  have hlen : (t :: v).length = v.length + 1 := rfl
  refine Weighs.ite (fun _ => weighs_optionalNode _ ?_) fun _ => weighs_goto _ ?_
  · simp only [rank]
    omega
  · simp only [rank]
    omega

theorem weighs_flowValue {follow : List TokenType} {after : ParserState} (v : List TokenType)
    (h : 8 * v.length + rank after + load states ≤ n) :
    Weighs n (flowValue follow after states v) := by
  rcases v with _ | ⟨t, v⟩
  · exact Weighs.none
  have hlen : (t :: v).length = v.length + 1 := rfl
  exact Weighs.ite (fun _ => weighs_optionalNode _ (by omega)) fun _ => weighs_goto _ h

theorem weighs_flowSequenceEntryMappingKey (v : List TokenType)
    (h : 8 * v.length + 3 + load states ≤ n) :
    Weighs n (flowSequenceEntryMappingKey states v) := by
  rcases v with _ | ⟨t, v⟩
  · exact Weighs.none
  have hlen : (t :: v).length = v.length + 1 := rfl
  refine Weighs.ite (fun _ => weighs_goto _ ?_) fun _ => weighs_node _ ?_
  · simp only [rank]
    omega
  · simp only [load_cons, rank]
    omega

/-- Every move makes the configuration lighter. -/
theorem step_weight {c c' : Config} (h : step c = some (e, c')) : c'.weight < c.weight := by
  obtain ⟨state, states, tokens⟩ := c
  rcases tokens with _ | ⟨t, v⟩
  · cases state <;> cases h
  have hlen : (t :: v).length = v.length + 1 := rfl
  suffices hw : Weighs (8 * v.length + 7 + rank state + load states) (step ⟨state, states, t :: v⟩) by
    have := hw _ _ h
    simp only [Config.weight, hlen] at this ⊢
    omega
  clear h
  cases state with
  | streamStart =>
    exact Weighs.ite (fun _ => weighs_goto _ (by simp only [rank]; omega)) fun _ => Weighs.none
  | implicitDocumentStart =>
    refine Weighs.ite (fun _ => weighs_documentStart _ ?_) fun _ => weighs_goto _ ?_
    · simp only [rank]
      omega
    · simp only [rank, load_cons]
      omega
  | documentStart =>
    have := (List.dropWhile_sublist (l := t :: v) (· = .documentEnd)).length_le
    refine weighs_documentStart _ ?_
    simp only [rank]
    omega
  | documentContent =>
    refine Weighs.ite (fun _ => weighs_pop _ ?_) fun _ => weighs_node _ ?_
    · simp only [rank]
      omega
    · simp only [rank]
      omega
  | documentEnd =>
    refine weighs_goto _ ?_
    split
    · simp only [rank]
      omega
    · simp only [rank]
      omega
  | blockNode | blockNodeOrIndentlessSequence | flowNode =>
    refine weighs_node (t :: v) ?_
    simp only [rank, hlen]
    omega
  | blockSequenceFirstEntry =>
    refine weighs_blockSequenceEntry _ ?_
    simp only [rank, List.tail_cons]
    omega
  | blockSequenceEntry =>
    refine weighs_blockSequenceEntry (t :: v) ?_
    simp only [rank, hlen]
    omega
  | indentlessSequenceEntry =>
    refine weighs_indentlessSequenceEntry (t :: v) ?_
    simp only [rank, hlen]
    omega
  | blockMappingFirstKey =>
    refine weighs_blockMappingKey _ ?_
    simp only [rank, List.tail_cons]
    omega
  | blockMappingKey =>
    refine weighs_blockMappingKey (t :: v) ?_
    simp only [rank, hlen]
    omega
  | blockMappingValue =>
    refine weighs_blockMappingValue (t :: v) ?_
    simp only [rank, hlen]
    omega
  | flowSequenceFirstEntry =>
    refine weighs_flowEntry .sequence v ?_
    simp only [rank]
    omega
  | flowSequenceEntry =>
    refine weighs_flowSeparator .sequence (t :: v) ?_
    simp only [rank, hlen]
    omega
  | flowSequenceEntryMappingKey =>
    refine weighs_flowSequenceEntryMappingKey (t :: v) ?_
    simp only [rank, hlen]
    omega
  | flowMappingFirstKey =>
    refine weighs_flowEntry .mapping v ?_
    simp only [rank]
    omega
  | flowMappingKey =>
    refine weighs_flowSeparator .mapping (t :: v) ?_
    simp only [rank, hlen]
    omega
  | flowSequenceEntryMappingValue | flowMappingValue =>
    refine weighs_flowValue (t :: v) ?_
    simp only [rank, hlen]
    omega
  | flowSequenceEntryMappingEnd =>
    have hstep : step ⟨.flowSequenceEntryMappingEnd, states, t :: v⟩ =
        some (.mappingEnd, ⟨.flowSequenceEntry, states, t :: v⟩) := rfl
    rw [hstep]
    refine weighs_goto (t :: v) ?_
    simp only [rank, hlen]
    omega
  | flowMappingEmptyValue =>
    have hstep : step ⟨.flowMappingEmptyValue, states, t :: v⟩ =
        some (.scalar, ⟨.flowMappingKey, states, t :: v⟩) := rfl
    rw [hstep]
    refine weighs_goto (t :: v) ?_
    simp only [rank, hlen]
    omega
  | «end» => exact Weighs.none

end Weights

end Automaton

end LibYaml
