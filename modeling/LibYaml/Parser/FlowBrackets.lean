import LibYaml.Parser.Acceptance

/-!
# The brackets of flow collections

A collection in brackets ends where its bracket closes: the token that the event for its end takes
is the one that matches the token the collection started with, as long as no single pair has taken
the end of its sequence for a part of itself (`flowEndsMatch_of_calls`).
-/

namespace LibYaml

namespace TokenGrammar

def brackets : List TokenType :=
  [.flowSequenceStart, .flowSequenceEnd, .flowMappingStart, .flowMappingEnd]

def Plain (w : List TokenType) : Prop := ∀ t ∈ w, t ∉ brackets

/-- Every bracket of a flow collection in the word matches another one in it. -/
inductive Balanced : List TokenType → Prop
  | nil : Balanced []
  | skip {t : TokenType} {w : List TokenType} : t ∉ brackets → Balanced w → Balanced (t :: w)
  | pair (s : FlowKind) {u v : List TokenType} : Balanced u → Balanced v →
      Balanced (s.opening :: u ++ s.closing :: v)

theorem Balanced.append {u v : List TokenType} (hu : Balanced u) (hv : Balanced v) :
    Balanced (u ++ v) := by
  induction hu with
  | nil => exact hv
  | skip ht _ ih => exact .skip ht ih
  | pair s hu _ _ ih => simpa using Balanced.pair s hu ih

theorem Plain.balanced : ∀ {w : List TokenType}, Plain w → Balanced w
  | [], _ => .nil
  | t :: w, h => .skip (h t (by simp))
    (Plain.balanced fun t' ht => h t' (List.mem_cons_of_mem _ ht))

theorem Plain.nil : Plain [] := by simp [Plain]

theorem Plain.append {u v : List TokenType} (hu : Plain u) (hv : Plain v) : Plain (u ++ v) := by
  intro t ht
  rcases List.mem_append.mp ht with h | h
  · exact hu t h
  · exact hv t h

theorem Plain.single {t : TokenType} (h : t ∉ brackets) : Plain [t] := by simpa [Plain] using h

theorem Properties.plain {p : List TokenType} (h : Properties p) : Plain p := by
  cases h <;> simp [Plain, brackets]

end TokenGrammar

namespace Automaton

open TokenGrammar

/-- For each open collection, innermost first, its brackets if it has any. -/
abbrev Shape := List (Option FlowKind)

def owned : ParserState → Shape
  | .blockSequenceFirstEntry | .blockSequenceEntry | .indentlessSequenceEntry
  | .blockMappingFirstKey | .blockMappingKey | .blockMappingValue => [none]
  | .flowSequenceFirstEntry | .flowSequenceEntry => [some .sequence]
  | .flowSequenceEntryMappingKey | .flowSequenceEntryMappingValue
  | .flowSequenceEntryMappingEnd => [none, some .sequence]
  | .flowMappingFirstKey | .flowMappingKey | .flowMappingValue | .flowMappingEmptyValue =>
    [some .mapping]
  | _ => []

def shapeOf (states : List ParserState) : Shape := states.flatMap owned

@[simp] theorem shapeOf_cons (s : ParserState) (states : List ParserState) :
    shapeOf (s :: states) = owned s ++ shapeOf states := rfl

/-- The flow collection whose opening bracket a state has still to skip. -/
def opening : ParserState → Option FlowKind
  | .flowSequenceFirstEntry => some .sequence
  | .flowMappingFirstKey => some .mapping
  | _ => none

/-- The tokens left behind an opening bracket that is still to be skipped. -/
def Config.rest (c : Config) : List TokenType :=
  if (opening c.state).isSome then c.tokens.tail else c.tokens

def Config.shape (c : Config) : Shape := shapeOf (c.state :: c.states)

def opens (e : EventType) : Prop := e = .sequenceStart ∨ e = .mappingStart

def closes (e : EventType) : Prop := e = .sequenceEnd ∨ e = .mappingEnd

instance (e : EventType) : Decidable (opens e) := inferInstanceAs (Decidable (_ ∨ _))

instance (e : EventType) : Decidable (closes e) := inferInstanceAs (Decidable (_ ∨ _))

/-- What a move does to the open collections and to the tokens `w`. -/
inductive Effect (g : Shape) (w : List TokenType) (e : EventType) (c : Config) : Prop
  | stay {x : List TokenType} : ¬opens e → ¬closes e → w = x ++ c.tokens → Plain x →
      c.shape = g → opening c.state = none → Effect g w e c
  | push {x : List TokenType} : opens e → w = x ++ c.tokens → Plain x →
      c.shape = opening c.state :: g →
      (∀ s, opening c.state = some s → c.tokens.head? = some s.opening) → Effect g w e c
  | pop (o : Option FlowKind) {x : List TokenType} : closes e → g = o :: c.shape →
      w = x ++ (o.map FlowKind.closing).toList ++ c.tokens → Plain x →
      (∀ s, o = some s → e = endEvent s) → opening c.state = none → Effect g w e c

def Moves (g : Shape) (w : List TokenType) (m : Move) : Prop :=
  ∀ e c, m = some (e, c) → Effect g w e c

section Moves

variable {g : Shape} {w v x : List TokenType} {e : EventType} {m m' : Move}
  {states : List ParserState} {s : ParserState} {t : TokenType}

theorem Moves.none : Moves g w none := fun _ _ h => by cases h

theorem Moves.ite {p : Prop} [Decidable p] (h : p → Moves g w m) (h' : ¬p → Moves g w m') :
    Moves g w (if p then m else m') := by
  split
  · exact h ‹_›
  · exact h' ‹_›

theorem Moves.behind (hx : Plain x) (h : Moves g v m) : Moves g (x ++ v) m := by
  intro e c hm
  cases h e c hm with
  | stay ho hc hv hy hs hn => exact .stay ho hc (by rw [hv, List.append_assoc]) (hx.append hy) hs hn
  | push ho hv hy hs hn => exact .push ho (by rw [hv, List.append_assoc]) (hx.append hy) hs hn
  | pop o hc hg hv hy he hn =>
    exact .pop o hc hg (by rw [hv]; simp [List.append_assoc]) (hx.append hy) he hn

theorem Moves.skip (ht : t ∉ brackets) (h : Moves g v m) : Moves g (t :: v) m :=
  Moves.behind (Plain.single ht) h

theorem opening_of_followSet (h : followSet s ≠ []) : opening s = Option.none := by
  cases s <;> simp_all [followSet, opening]

theorem moves_pop (h : Stack states) (ho : ¬opens e) (hc : ¬closes e) :
    Moves (shapeOf states) v (pop e states v) := by
  rintro e c hm
  cases h with
  | nil => cases hm
  | push hs =>
    obtain ⟨rfl, rfl⟩ := Prod.mk.inj (Option.some.inj hm)
    exact .stay (x := []) ho hc rfl .nil rfl (opening_of_followSet hs)

theorem moves_close (o : Option FlowKind) (h : Stack states) (hc : closes e)
    (he : ∀ s, o = some s → e = endEvent s) :
    Moves (o :: shapeOf states) ((o.map FlowKind.closing).toList ++ v) (pop e states v) := by
  rintro e c hm
  cases h with
  | nil => cases hm
  | push hs =>
    obtain ⟨rfl, rfl⟩ := Prod.mk.inj (Option.some.inj hm)
    exact .pop (x := []) o hc rfl rfl .nil he (opening_of_followSet hs)

theorem moves_goto (s : ParserState) (states : List ParserState) (ho : ¬opens e) (hc : ¬closes e)
    (hs : opening s = Option.none) :
    Moves (owned s ++ shapeOf states) v (some (e, ⟨s, states, v⟩)) := by
  rintro e c hm
  obtain ⟨rfl, rfl⟩ := Prod.mk.inj (Option.some.inj hm)
  exact .stay (x := []) ho hc rfl .nil rfl hs

theorem moves_open (ho : opens e) (hs : owned s = [opening s])
    (hv : ∀ k, opening s = some k → v.head? = some k.opening) :
    Moves (shapeOf states) v (some (e, ⟨s, states, v⟩)) := by
  rintro e c hm
  obtain ⟨rfl, rfl⟩ := Prod.mk.inj (Option.some.inj hm)
  exact .push (x := []) ho rfl .nil (by simp [Config.shape, hs]) hv

theorem moves_content {k : NodeKind} (h : Stack states) (present : Bool) :
    ∀ v, Moves (shapeOf states) v (content k present states v)
  | [] => .none
  | t :: v => by
    refine .ite (fun hi => moves_open (by simp [opens]) rfl (by simp [opening])) fun _ =>
      .ite (fun hs => ?_) fun _ => .ite (fun hs => ?_) fun _ => .ite (fun hs => ?_) fun _ =>
      .ite (fun _ => moves_open (by simp [opens]) rfl (by simp [opening])) fun _ =>
      .ite (fun _ => moves_open (by simp [opens]) rfl (by simp [opening])) fun _ =>
      .ite (fun _ => moves_pop h (by simp [opens]) (by simp [closes])) fun _ => .none
    · exact .skip (by simp [hs, brackets]) (moves_pop h (by simp [opens]) (by simp [closes]))
    · exact moves_open (by simp [opens]) rfl (by simp [opening, FlowKind.opening, hs])
    · exact moves_open (by simp [opens]) rfl (by simp [opening, FlowKind.opening, hs])

theorem moves_node {k : NodeKind} (h : Stack states) :
    ∀ v, Moves (shapeOf states) v (node k states v)
  | [] => .none
  | t :: v => by
    refine .ite (fun ht => ?_) fun _ => ?_
    · exact .skip (by simp [ht, brackets]) (moves_pop h (by simp [opens]) (by simp [closes]))
    · rcases stripProperties_spec (t :: v) with ⟨hs, -⟩ | ⟨p, u, hp, he, hs⟩
      · rw [hs]
        exact moves_content h _ _
      · have : Moves (shapeOf states) (p ++ u) (content k true states u) :=
          .behind hp.plain (moves_content h _ _)
        rwa [hs, he]

theorem moves_optionalNode {k : NodeKind} {follow : List TokenType} {after : ParserState}
    (h : Stack (after :: states)) :
    ∀ v, Moves (owned after ++ shapeOf states) v (optionalNode k follow after states v)
  | [] => .none
  | t :: v => by
    refine .ite (fun _ => ?_) fun _ => moves_node h _
    cases h with
    | push hs => exact moves_goto _ _ (by simp [opens]) (by simp [closes]) (opening_of_followSet hs)

theorem moves_streamStart : ∀ v, Moves (shapeOf states) v (streamStart states v)
  | [] => .none
  | t :: v => .ite (fun ht => .skip (by simp [ht, brackets])
      (moves_goto .implicitDocumentStart _ (by simp [opens]) (by simp [closes]) rfl))
      fun _ => .none

theorem moves_documentStart : ∀ v, Moves (shapeOf states) v (documentStart states v)
  | [] => .none
  | t :: v => by
    refine .ite (fun ht => .skip (by simp [ht, brackets])
      (moves_goto .end _ (by simp [opens]) (by simp [closes]) rfl)) fun _ => ?_
    split
    · rename_i u hu
      have hp : Plain ((t :: v).takeWhile isDirective ++ [.documentStart]) := by
        refine Plain.append (fun t' ht' => ?_) (.single (by simp [brackets]))
        have := List.mem_takeWhile_imp ht'
        rintro hb
        simp only [brackets, List.mem_cons, List.not_mem_nil, or_false] at hb
        rcases hb with rfl | rfl | rfl | rfl <;> simp [isDirective] at this
      have hm : Moves (shapeOf states) (((t :: v).takeWhile isDirective ++ [.documentStart]) ++ u)
          (some (.documentStart, ⟨.documentContent, .documentEnd :: states, u⟩)) :=
        .behind hp (moves_goto .documentContent (.documentEnd :: states)
          (by simp [opens]) (by simp [closes]) rfl)
      rwa [List.append_assoc, List.singleton_append, ← hu, List.takeWhile_append_dropWhile] at hm
    · exact .none

theorem moves_implicitDocumentStart :
    ∀ v, Moves (shapeOf states) v (implicitDocumentStart states v)
  | [] => .none
  | t :: v => .ite (fun _ => moves_documentStart _) fun _ =>
    moves_goto .blockNode (.documentEnd :: states) (by simp [opens])
      (by simp [closes]) rfl

theorem moves_documentContent (h : Stack states) :
    ∀ v, Moves (shapeOf states) v (documentContent states v)
  | [] => .none
  | t :: v => .ite (fun _ => moves_pop h (by simp [opens]) (by simp [closes])) fun _ =>
    moves_node h _

theorem moves_documentEnd : ∀ v, Moves (shapeOf states) v (documentEnd states v)
  | [] => .none
  | t :: v => by
    by_cases ht : t = .documentEnd
    · rw [documentEnd, if_pos ht]
      exact .skip (by simp [ht, brackets])
        (moves_goto .documentStart _ (by simp [opens]) (by simp [closes]) rfl)
    · rw [documentEnd, if_neg ht]
      exact moves_goto .documentStart _ (by simp [opens]) (by simp [closes]) rfl

theorem Stack.cons (h : Stack states) (hs : followSet s ≠ [])
    (hi : s ≠ .indentlessSequenceEntry) : Stack (s :: states) :=
  .push hs (fun he => absurd he hi) h

theorem moves_blockSequenceEntry (h : Stack states) :
    ∀ v, Moves (none :: shapeOf states) v (blockSequenceEntry states v)
  | [] => .none
  | t :: v => .ite (fun ht => .skip (by simp [ht, brackets])
      (moves_optionalNode (h.cons (by simp [followSet]) (by simp)) v)) fun _ =>
    .ite (fun ht => .skip (by simp [ht, brackets])
      (moves_close none h (by simp [closes]) (by simp))) fun _ => .none

theorem moves_indentlessSequenceEntry (h : Stack states) (hf : Fits .blockOrIndentless states) :
    ∀ v, Moves (none :: shapeOf states) v (indentlessSequenceEntry states v)
  | [] => .none
  | t :: v => .ite (fun ht => .skip (by simp [ht, brackets])
      (moves_optionalNode (.push (by simp [followSet]) (fun _ => hf) h) v)) fun _ =>
    moves_close none h (by simp [closes]) (by simp)

theorem moves_blockMappingKey (h : Stack states) :
    ∀ v, Moves (none :: shapeOf states) v (blockMappingKey states v)
  | [] => .none
  | t :: v => .ite (fun ht => .skip (by simp [ht, brackets])
      (moves_optionalNode (h.cons (s := .blockMappingValue) (by simp [followSet]) (by simp)) v))
      fun _ => .ite (fun ht => .skip (by simp [ht, brackets])
      (moves_close none h (by simp [closes]) (by simp))) fun _ => .none

theorem moves_blockMappingValue (h : Stack states) :
    ∀ v, Moves (none :: shapeOf states) v (blockMappingValue states v)
  | [] => .none
  | t :: v => .ite (fun ht => .skip (by simp [ht, brackets])
      (moves_optionalNode (h.cons (s := .blockMappingKey) (by simp [followSet]) (by simp)) v))
      fun _ => moves_goto .blockMappingKey _ (by simp [opens]) (by simp [closes]) rfl

theorem moves_flowSequenceEntry (h : Stack states) :
    ∀ v, Moves (some .sequence :: shapeOf states) v (flowSequenceEntry states v)
  | [] => .none
  | t :: v => by
    refine .ite (fun ht => .skip (by simp [ht, brackets]) ?_) fun _ => .ite (fun ht => ?_) fun _ =>
      moves_node (h.cons (s := .flowSequenceEntry) (by simp [followSet]) (by simp)) _
    · rintro e c hm
      obtain ⟨rfl, rfl⟩ := Prod.mk.inj (Option.some.inj hm)
      exact .push (x := []) (by simp [opens]) rfl .nil rfl (by simp [opening])
    · rw [ht]
      exact moves_close (some .sequence) h (by simp [closes]) (by simp [endEvent])

theorem moves_flowMappingKey (h : Stack states) :
    ∀ v, Moves (some .mapping :: shapeOf states) v (flowMappingKey states v)
  | [] => .none
  | t :: v => by
    refine .ite (fun ht => .skip (by simp [ht, brackets]) (moves_optionalNode
      (h.cons (s := .flowMappingValue) (by simp [followSet]) (by simp)) v)) fun _ =>
      .ite (fun ht => ?_) fun _ =>
      moves_node (h.cons (s := .flowMappingEmptyValue) (by simp [followSet]) (by simp)) _
    rw [ht]
    exact moves_close (some .mapping) h (by simp [closes]) (by simp [endEvent])

theorem moves_flowEntry (s : FlowKind) (h : Stack states) (v : List TokenType) :
    Moves (some s :: shapeOf states) v (flowEntry s states v) := by
  cases s with
  | sequence => exact moves_flowSequenceEntry h v
  | mapping => exact moves_flowMappingKey h v

theorem moves_flowSeparator (s : FlowKind) (h : Stack states) :
    ∀ v, Moves (some s :: shapeOf states) v (flowSeparator s states v)
  | [] => .none
  | t :: v => by
    refine .ite (fun ht => ?_) fun _ => .ite (fun ht => .skip (by simp [ht, brackets])
      (moves_flowEntry s h v)) fun _ => .none
    rw [ht]
    exact moves_close (some s) h (by cases s <;> simp [closes, endEvent]) (by simp)

theorem moves_flowSequenceEntryMappingKey (h : Stack states) :
    ∀ v, v.head? ≠ some .flowSequenceEnd → Moves (none :: some .sequence :: shapeOf states) v
      (flowSequenceEntryMappingKey states v)
  | [], _ => .none
  | t :: v, hn => by
    refine .ite (fun ht => .skip ?_ (moves_goto .flowSequenceEntryMappingValue _
      (by simp [opens]) (by simp [closes]) rfl)) fun _ =>
      moves_node (h.cons (s := .flowSequenceEntryMappingValue) (by simp [followSet]) (by simp)) _
    simp only [List.mem_cons, List.not_mem_nil, or_false] at ht
    rcases ht with rfl | rfl | rfl
    · simp [brackets]
    · simp [brackets]
    · exact absurd rfl hn

theorem moves_flowValue {follow : List TokenType} {after : ParserState}
    (h : Stack (after :: states)) :
    ∀ v, Moves (owned after ++ shapeOf states) v (flowValue follow after states v)
  | [] => .none
  | t :: v => by
    refine .ite (fun ht => .skip (by simp [ht, brackets]) (moves_optionalNode h v)) fun _ => ?_
    cases h with
    | push hs => exact moves_goto _ _ (by simp [opens]) (by simp [closes]) (opening_of_followSet hs)

/-- A single pair of a flow sequence that takes the end of its sequence for a part of itself. -/
def Config.Swallows (c : Config) : Prop :=
  c.state = .flowSequenceEntryMappingKey ∧ c.tokens.head? = some .flowSequenceEnd

theorem moves_opened {t : TokenType} (ht : t ∉ brackets) (hv : v.head? = some t)
    (h : Moves g v.tail m) : Moves g v m := by
  rcases v with _ | ⟨t', v⟩
  · cases hv
  · obtain rfl : t' = t := by simpa using hv
    exact h.skip ht

theorem step_moves {c : Config} (hv : c.Valid) (hs : ¬c.Swallows) :
    Moves c.shape c.rest (step c) := by
  obtain ⟨state, states, v⟩ := c
  obtain ⟨h, hopens, hfits, -⟩ := hv
  have hfits : ∀ k, nodeKind state = some k → Fits k states := hfits
  have hopens : ∀ t, opener state = some t → v.head? = some t := hopens
  cases state with
  | streamStart => exact moves_streamStart v
  | implicitDocumentStart => exact moves_implicitDocumentStart v
  | documentStart =>
    have hp : Plain (v.takeWhile (· = .documentEnd)) := by
      intro t ht
      have := List.mem_takeWhile_imp ht
      simp only [decide_eq_true_eq] at this
      simp [this, brackets]
    have hm : Moves (shapeOf states) (v.takeWhile (· = .documentEnd) ++
        v.dropWhile (· = .documentEnd)) _ := .behind hp (moves_documentStart _)
    rwa [List.takeWhile_append_dropWhile] at hm
  | documentContent => exact moves_documentContent h v
  | documentEnd => exact moves_documentEnd v
  | blockNode | blockNodeOrIndentlessSequence | flowNode => exact moves_node h v
  | blockSequenceFirstEntry =>
    exact moves_opened (by simp [brackets]) (hopens _ rfl) (moves_blockSequenceEntry h _)
  | blockSequenceEntry => exact moves_blockSequenceEntry h v
  | indentlessSequenceEntry => exact moves_indentlessSequenceEntry h (hfits _ rfl) v
  | blockMappingFirstKey =>
    exact moves_opened (by simp [brackets]) (hopens _ rfl) (moves_blockMappingKey h _)
  | blockMappingKey => exact moves_blockMappingKey h v
  | blockMappingValue => exact moves_blockMappingValue h v
  | flowSequenceFirstEntry => exact moves_flowEntry .sequence h _
  | flowSequenceEntry => exact moves_flowSeparator .sequence h v
  | flowSequenceEntryMappingKey =>
    exact moves_flowSequenceEntryMappingKey h v fun hh => hs ⟨rfl, hh⟩
  | flowSequenceEntryMappingValue =>
    exact moves_flowValue (h.cons (by simp [followSet]) (by simp)) v
  | flowSequenceEntryMappingEnd =>
    refine .ite (fun _ => .none) fun _ => ?_
    rintro e c hm
    obtain ⟨rfl, rfl⟩ := Prod.mk.inj (Option.some.inj hm)
    exact .pop (x := []) none (by simp [closes]) rfl rfl .nil (by simp) rfl
  | flowMappingFirstKey => exact moves_flowEntry .mapping h _
  | flowMappingKey => exact moves_flowSeparator .mapping h v
  | flowMappingValue => exact moves_flowValue (h.cons (by simp [followSet]) (by simp)) v
  | flowMappingEmptyValue =>
    exact .ite (fun _ => .none) fun _ =>
      moves_goto .flowMappingKey _ (by simp [opens]) (by simp [closes]) rfl
  | «end» => exact .none

end Moves

/-! ## Open collections -/

/-- For each open collection, innermost first, the tokens from its opening bracket on, if it has
one. -/
abbrev Openings := List (Option (List TokenType))

/-- The open collections once `e` is delivered, with the machine in `state` and `w` left. -/
def openings (g : Openings) (e : EventType) (state : ParserState) (w : List TokenType) : Openings :=
  if opens e then (if (opening state).isSome then some w else none) :: g
  else if closes e then g.tail
  else g

/-- If `e` ends a collection, there is one; and if that has brackets, then the last token that `e`
takes is the one that matches the opening bracket. -/
def EndMatches (g : Openings) (e : EventType) (before after : List TokenType) : Prop :=
  closes e → ∃ o g', g = o :: g' ∧ ∀ v, o = some v → ∃ (s : FlowKind) (inner : List TokenType),
    v = s.opening :: inner ++ s.closing :: after ∧ Balanced inner ∧ e = endEvent s ∧
      ∃ u, before = u ++ s.closing :: after

/-- Between each opening bracket and the next one that is open, and behind the last up to `w`, the
brackets match. -/
def Pending : Shape → Openings → List TokenType → Prop
  | [], [], _ => True
  | none :: sh, none :: g, w => Pending sh g w
  | some s :: sh, some v :: g, w =>
    (∃ inner, v = s.opening :: inner ++ w ∧ Balanced inner) ∧ Pending sh g v
  | _, _, _ => False

theorem Pending.behind {x w : List TokenType} (hx : Balanced x) :
    ∀ {sh : Shape} {g : Openings}, Pending sh g (x ++ w) → Pending sh g w
  | [], [], _ => trivial
  | none :: sh, none :: g, h => by
    have ih : Pending sh g w := Pending.behind hx h
    exact ih
  | some s :: sh, some v :: g, h => by
    obtain ⟨⟨inner, rfl, hi⟩, h⟩ := h
    exact ⟨⟨inner ++ x, by simp, hi.append hx⟩, h⟩
  | [], _ :: _, h => h
  | _ :: _, [], h => by simp [Pending] at h
  | none :: _, some _ :: _, h => h
  | some _ :: _, none :: _, h => h

theorem Config.rest_of_none {c : Config} (h : opening c.state = none) : c.rest = c.tokens := by
  simp [Config.rest, h]

theorem Effect.pending {sh : Shape} {g : Openings} {w : List TokenType} {e : EventType} {c : Config}
    (h : Effect sh w e c) (hp : Pending sh g w) :
    Pending c.shape (openings g e c.state c.tokens) c.rest ∧ EndMatches g e w c.tokens := by
  cases h with
  | stay ho hc hv hx hs hn =>
    rw [Config.rest_of_none hn, openings, if_neg ho, if_neg hc, hs]
    exact ⟨Pending.behind hx.balanced (hv ▸ hp), fun h => absurd h hc⟩
  | push ho hv hx hs hh =>
    have hc : ¬closes e := by rcases ho with rfl | rfl <;> simp [closes]
    have hp' : Pending sh g c.tokens := Pending.behind hx.balanced (hv ▸ hp)
    refine ⟨?_, fun h => absurd h hc⟩
    rw [openings, if_pos ho, hs]
    cases hk : opening c.state with
    | none =>
      rw [Config.rest_of_none hk]
      exact hp'
    | some s =>
      have hh := hh s hk
      rcases hw : c.tokens with _ | ⟨t, w'⟩
      · simp [hw] at hh
      · obtain rfl : t = s.opening := by simpa [hw] using hh
        have hr : c.rest = w' := by simp [Config.rest, hk, hw]
        rw [hr]
        exact ⟨⟨[], rfl, .nil⟩, hw ▸ hp'⟩
  | @pop o x hc hg hv hx he hn =>
    subst hg hv
    have ho : ¬opens e := by rcases hc with rfl | rfl <;> simp [opens]
    rw [Config.rest_of_none hn, openings, if_neg ho, if_pos hc]
    rcases o with _ | s
    · rcases g with _ | ⟨_ | v, g⟩
      · simp [Pending] at hp
      · refine ⟨Pending.behind hx.balanced (by simpa [Pending] using hp), fun _ => ⟨_, _, rfl, ?_⟩⟩
        simp
      · simp [Pending] at hp
    · rcases g with _ | ⟨_ | v, g⟩
      · simp [Pending] at hp
      · simp [Pending] at hp
      · obtain ⟨⟨inner, rfl, hi⟩, hp⟩ := hp
        have hin := hi.append hx.balanced
        have hv : s.opening :: inner ++ (x ++ [s.closing] ++ c.tokens) =
            s.opening :: (inner ++ x) ++ s.closing :: c.tokens := by simp
        refine ⟨Pending.behind (x := s.opening :: (inner ++ x) ++ [s.closing]) (.pair s hin .nil) ?_,
          fun _ => ⟨_, g, rfl, ?_⟩⟩
        · have hp : Pending c.shape g (s.opening :: inner ++ (x ++ [s.closing] ++ c.tokens)) := hp
          simpa using hp
        · rintro _ ⟨⟩
          exact ⟨s, inner ++ x, hv, hin, he s rfl, x, by simp⟩

theorem EndMatches.behind {g : Openings} {e : EventType} {before after : List TokenType}
    (h : EndMatches g e before after) (x : List TokenType) :
    EndMatches g e (x ++ before) after := by
  intro hc
  obtain ⟨o, g', hg, ho⟩ := h hc
  refine ⟨o, g', hg, fun v hv => ?_⟩
  obtain ⟨s, inner, hi, hb, he, u, rfl⟩ := ho v hv
  exact ⟨s, inner, hi, hb, he, x ++ u, by simp⟩

/-- One move of the automaton keeps what is known about the open collections. -/
theorem step_pending {c c' : Config} {g : Openings} {e : EventType} (hv : c.Valid)
    (hs : ¬c.Swallows) (hp : Pending c.shape g c.rest) (hc : step c = some (e, c')) :
    Pending c'.shape (openings g e c'.state c'.tokens) c'.rest ∧
      EndMatches g e c.tokens c'.tokens := by
  obtain ⟨hp', hm⟩ := (step_moves hv hs e c' hc).pending hp
  refine ⟨hp', ?_⟩
  unfold Config.rest at hm
  split at hm
  · have : c.tokens = c.tokens.take 1 ++ c.tokens.tail := by
      cases c.tokens <;> simp
    rw [this]
    exact hm.behind _
  · exact hm

end Automaton

namespace Parser

open Automaton TokenGrammar

/-- The token behind the `KEY` of a single pair in a flow sequence is the end of the sequence. -/
def Swallows (p : Parser TokenList) : Prop :=
  p.state = .flowSequenceEntryMappingKey ∧
    (typesOf p.source.tokens).head? = some .flowSequenceEnd

instance (p : Parser TokenList) : Decidable (Swallows p) := inferInstanceAs (Decidable (_ ∧ _))

/-- Among `n` calls every event for the end of a collection in brackets takes the token that matches
the one its start was delivered for. -/
def FlowEndsMatch (fuel : Nat) : Nat → Openings → Parser TokenList → Prop
  | 0, _, _ => True
  | n + 1, g, p =>
    match parse fuel p with
    | .ok e p' =>
      EndMatches g e.type (typesOf p.source.tokens) (typesOf p'.source.tokens) ∧
        FlowEndsMatch fuel n (openings g e.type p'.state (typesOf p'.source.tokens)) p'
    | .error _ p' => FlowEndsMatch fuel n g p'

theorem flowEndsMatch_stopped {fuel : Nat} {p : Parser TokenList} (hs : Stopped p) :
    ∀ (n : Nat) (g : Openings), FlowEndsMatch fuel n g p
  | 0, _ => trivial
  | n + 1, g => by
    rw [FlowEndsMatch, parse_stopped hs]
    refine ⟨fun h => ?_, ?_⟩
    · simp [closes, Event.empty, Event.type, EventData.type] at h
    · exact flowEndsMatch_stopped hs n g

theorem flowEndsMatch_of_calls {fuel : Nat} {tokens : List Token} : ∀ (n : Nat) {c : Config}
    {p : Parser TokenList} {g : Openings}, Beside fuel tokens c p → Pending c.shape g c.rest →
    (∀ m < n, ¬Swallows (calls fuel m p).2) → FlowEndsMatch fuel n g p
  | 0, _, _, _, _, _, _ => trivial
  | n + 1, c, p, g, h, hp, hn => by
    by_cases hs : Stopped p
    · exact flowEndsMatch_stopped hs _ _
    rcases parse_beside h hs with ⟨e, p', c', hok, hc, -, h'⟩ | ⟨f, p', herr, -, hst⟩
    · have hsw : ¬c.Swallows := by
        rintro ⟨hstate, htok⟩
        refine hn 0 (Nat.zero_lt_succ n) ⟨h.shows.state.trans hstate, ?_⟩
        simpa [calls, h.shows.tokens] using htok
      obtain ⟨hp', hm⟩ := step_pending h.valid hsw hp hc
      rw [← h'.shows.state, ← h'.shows.tokens] at hp'
      rw [← h'.shows.tokens, ← h.shows.tokens] at hm
      rw [FlowEndsMatch, hok]
      refine ⟨hm, flowEndsMatch_of_calls n h' hp' fun m hlt => ?_⟩
      have := hn (m + 1) (Nat.succ_lt_succ hlt)
      simpa only [calls, hok] using this
    · rw [FlowEndsMatch, herr]
      exact flowEndsMatch_stopped hst n g

end Parser

end LibYaml
