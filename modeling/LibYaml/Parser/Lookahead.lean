import LibYaml.Parser.TokenGrammar
import Mathlib.Data.List.TakeWhile

/-!
# One token of lookahead

The languages of what may still follow, and what the first token says about a word of them.
-/

namespace LibYaml

namespace TokenGrammar

abbrev Lang := List TokenType → Prop

/-- A word of `A`, then one of `K`. -/
def Then (A K : Lang) : Lang := fun w => ∃ u v, A u ∧ K v ∧ w = u ++ v

/-- The token `t`, then a word of `K`. -/
def Tok (t : TokenType) (K : Lang) : Lang := fun w => ∃ v, K v ∧ w = t :: v

/-- The words of `K` start with a token of `S`. -/
def Starts (S : List TokenType) (K : Lang) : Prop := ∀ w, K w → ∃ t v, w = t :: v ∧ t ∈ S

section Languages

variable {A B K : Lang} {S : List TokenType} {t t' : TokenType} {w : List TokenType}

@[simp] theorem tok_cons : Tok t K (t' :: w) ↔ t' = t ∧ K w := by
  constructor
  · rintro ⟨v, hv, h⟩
    obtain ⟨rfl, rfl⟩ := List.cons.inj h
    exact ⟨rfl, hv⟩
  · rintro ⟨rfl, h⟩
    exact ⟨w, h, rfl⟩

@[simp] theorem not_tok_nil : ¬Tok t K [] := by
  rintro ⟨v, -, h⟩
  cases h

theorem Starts.mem (h : Starts S K) (hw : K (t :: w)) : t ∈ S := by
  obtain ⟨t', v, he, ht⟩ := h _ hw
  obtain ⟨rfl, -⟩ := List.cons.inj he
  exact ht

theorem Starts.not_nil (h : Starts S K) : ¬K [] := by
  intro hw
  obtain ⟨t, v, he, -⟩ := h _ hw
  cases he

theorem Starts.mono {S' : List TokenType} (h : Starts S K) (hS : ∀ t ∈ S, t ∈ S') : Starts S' K := by
  intro w hw
  obtain ⟨t, v, rfl, ht⟩ := h w hw
  exact ⟨t, v, rfl, hS t ht⟩

theorem starts_tok : Starts [t] (Tok t K) := by
  rintro w ⟨v, -, rfl⟩
  exact ⟨t, v, rfl, by simp⟩

theorem Then.assoc : Then (fun w => ∃ u v, A u ∧ B v ∧ w = u ++ v) K w ↔ Then A (Then B K) w := by
  constructor
  · rintro ⟨-, k, ⟨u, v, hu, hv, rfl⟩, hk, rfl⟩
    exact ⟨u, v ++ k, hu, ⟨v, k, hv, hk, rfl⟩, by simp⟩
  · rintro ⟨u, -, hu, ⟨v, k, hv, hk, rfl⟩, rfl⟩
    exact ⟨u ++ v, k, ⟨u, v, hu, hv, rfl⟩, hk, by simp⟩

end Languages

/-! ## First tokens -/

def contentFirst : NodeKind → List TokenType
  | .block => [.scalar, .flowSequenceStart, .flowMappingStart, .blockSequenceStart,
      .blockMappingStart]
  | .blockOrIndentless => [.scalar, .flowSequenceStart, .flowMappingStart, .blockSequenceStart,
      .blockMappingStart, .blockEntry]
  | .flow => [.scalar, .flowSequenceStart, .flowMappingStart]

def nodeFirst (k : NodeKind) : List TokenType := .alias :: .anchor :: .tag :: contentFirst k

variable {r : Reading} {k : NodeKind} {s : FlowKind} {w : List TokenType}

theorem Content.first (h : Content r k w) : ∃ t v, w = t :: v ∧ t ∈ contentFirst k := by
  cases h with
  | scalar => exact ⟨_, _, rfl, by cases k <;> simp [contentFirst]⟩
  | @flow _ s _ _ => exact ⟨_, _, rfl, by cases k <;> cases s <;> simp [contentFirst, FlowKind.opening]⟩
  | blockSequence hk => exact ⟨_, _, rfl, by cases k <;> simp_all [contentFirst]⟩
  | blockMapping hk => exact ⟨_, _, rfl, by cases k <;> simp_all [contentFirst]⟩
  | indentless => exact ⟨_, _, rfl, by simp [contentFirst]⟩

theorem Properties.first {p : List TokenType} (h : Properties p) :
    ∃ t v, p = t :: v ∧ (t = .anchor ∨ t = .tag) := by
  cases h <;> exact ⟨_, _, rfl, by simp⟩

theorem Node.first (h : Node r k w) : ∃ t v, w = t :: v ∧ t ∈ nodeFirst k := by
  cases h with
  | «alias» => exact ⟨_, _, rfl, by simp [nodeFirst]⟩
  | properties _ hp =>
    obtain ⟨t, v, rfl, rfl | rfl⟩ := hp.first <;> exact ⟨_, _, rfl, by simp [nodeFirst]⟩
  | content hc =>
    obtain ⟨t, v, rfl, ht⟩ := hc.first
    exact ⟨t, v, rfl, by simp [nodeFirst, ht]⟩
  | propertiesContent hp hc =>
    obtain ⟨t, v, rfl, rfl | rfl⟩ := hp.first <;> exact ⟨_, _, rfl, by simp [nodeFirst]⟩

/-! ## Nodes -/

/-- Whether properties come first, and what comes after them. -/
def stripProperties : List TokenType → Bool × List TokenType
  | .anchor :: .tag :: w => (true, w)
  | .anchor :: w => (true, w)
  | .tag :: .anchor :: w => (true, w)
  | .tag :: w => (true, w)
  | w => (false, w)

theorem stripProperties_append {p : List TokenType} (hp : Properties p) {t : TokenType}
    (ha : t ≠ .anchor) (ht : t ≠ .tag) (w : List TokenType) :
    stripProperties (p ++ t :: w) = (true, t :: w) := by
  cases hp <;> cases t <;> simp_all [stripProperties]

theorem stripProperties_of_ne {t : TokenType} (ha : t ≠ .anchor) (ht : t ≠ .tag)
    (w : List TokenType) : stripProperties (t :: w) = (false, t :: w) := by
  cases t <;> simp_all [stripProperties]

theorem stripProperties_spec (w : List TokenType) :
    (stripProperties w = (false, w) ∧ ∀ t v, w = t :: v → t ≠ .anchor ∧ t ≠ .tag) ∨
      ∃ p v, Properties p ∧ w = p ++ v ∧ stripProperties w = (true, v) := by
  rcases w with _ | ⟨t, w⟩
  · exact Or.inl ⟨rfl, by simp⟩
  by_cases ha : t = .anchor
  · subst ha
    rcases w with _ | ⟨t', v⟩
    · exact Or.inr ⟨_, _, .anchor, rfl, rfl⟩
    by_cases ht : t' = .tag
    · subst ht
      exact Or.inr ⟨_, _, .anchorTag, rfl, rfl⟩
    · exact Or.inr ⟨_, _, .anchor, rfl, by cases t' <;> simp_all [stripProperties]⟩
  by_cases ht : t = .tag
  · subst ht
    rcases w with _ | ⟨t', v⟩
    · exact Or.inr ⟨_, _, .tag, rfl, rfl⟩
    by_cases ht : t' = .anchor
    · subst ht
      exact Or.inr ⟨_, _, .tagAnchor, rfl, rfl⟩
    · exact Or.inr ⟨_, _, .tag, rfl, by cases t' <;> simp_all [stripProperties]⟩
  · refine Or.inl ⟨stripProperties_of_ne ha ht w, fun t' v he => ?_⟩
    obtain ⟨rfl, rfl⟩ := List.cons.inj he
    exact ⟨ha, ht⟩

section Continuations

variable {K : Lang} {S : List TokenType}

theorem then_node_alias : Then (Node r k) K (.alias :: w) ↔ K w := by
  constructor
  · rintro ⟨u, v, hu, hv, he⟩
    cases hu with
    | «alias» =>
      obtain ⟨-, rfl⟩ := List.cons.inj he
      exact hv
    | properties _ hp => obtain ⟨t, v, rfl, rfl | rfl⟩ := hp.first <;> simp at he
    | content hc =>
      obtain ⟨t, v, rfl, ht⟩ := hc.first
      obtain ⟨rfl, -⟩ := List.cons.inj he
      cases k <;> simp [contentFirst] at ht
    | propertiesContent hp hc => obtain ⟨t, v, rfl, rfl | rfl⟩ := hp.first <;> simp at he
  · exact fun h => ⟨[.alias], w, .alias k, h, rfl⟩

/-- Which tokens are the properties of a node is determined by the tokens. -/
theorem then_node_iff (hK : Starts S K) (hS : ∀ t ∈ S, t ∉ nodeFirst k) {t : TokenType}
    (ht : t ≠ .alias) :
    Then (Node r k) K (t :: w) ↔ Then (Content r k) K (stripProperties (t :: w)).2 ∨
      (stripProperties (t :: w)).1 = true ∧ K (stripProperties (t :: w)).2 := by
  constructor
  · rintro ⟨u, v, hu, hv, he⟩
    cases hu with
    | «alias» =>
      obtain ⟨rfl, -⟩ := List.cons.inj he
      exact absurd rfl ht
    | properties _ hp =>
      obtain ⟨t', v', rfl, ht'⟩ := hK v hv
      have hf := hS t' ht'
      rw [he, stripProperties_append hp (by rintro rfl; simp [nodeFirst] at hf)
        (by rintro rfl; simp [nodeFirst] at hf)]
      exact Or.inr ⟨rfl, hv⟩
    | content hc =>
      obtain ⟨t', u', rfl, ht'⟩ := hc.first
      have hs : stripProperties (t' :: u' ++ v) = (false, t' :: u' ++ v) :=
        stripProperties_of_ne (by rintro rfl; cases k <;> simp [contentFirst] at ht')
          (by rintro rfl; cases k <;> simp [contentFirst] at ht') _
      rw [he, hs]
      exact Or.inl ⟨_, v, hc, hv, rfl⟩
    | @propertiesContent _ p c hp hc =>
      obtain ⟨t', u', rfl, ht'⟩ := hc.first
      have hs : stripProperties (p ++ t' :: (u' ++ v)) = (true, t' :: (u' ++ v)) :=
        stripProperties_append hp (by rintro rfl; cases k <;> simp [contentFirst] at ht')
          (by rintro rfl; cases k <;> simp [contentFirst] at ht') _
      rw [he, List.append_assoc, List.cons_append, hs]
      exact Or.inl ⟨_, v, hc, hv, rfl⟩
  · rcases stripProperties_spec (t :: w) with ⟨hs, -⟩ | ⟨p, v, hp, he, hs⟩
    · rw [hs]
      rintro (⟨u, v, hc, hv, he⟩ | ⟨h, -⟩)
      · exact ⟨u, v, .content hc, hv, he⟩
      · cases h
    · rw [hs, he]
      rintro (⟨u, v', hc, hv, rfl⟩ | ⟨-, h⟩)
      · exact ⟨p ++ u, v', .propertiesContent hp hc, hv, by simp⟩
      · exact ⟨p, v, .properties k hp, h, rfl⟩

theorem then_optNode_iff : Then (OptNode r k) K w ↔ K w ∨ Then (Node r k) K w := by
  constructor
  · rintro ⟨u, v, hu, hv, rfl⟩
    cases hu with
    | none => exact Or.inl hv
    | some hu => exact Or.inr ⟨u, v, hu, hv, rfl⟩
  · rintro (h | ⟨u, v, hu, hv, rfl⟩)
    · exact ⟨[], w, .none k, h, rfl⟩
    · exact ⟨u, v, .some hu, hv, rfl⟩

theorem starts_then_node : Starts (nodeFirst k) (Then (Node r k) K) := by
  rintro w ⟨u, v, hu, -, rfl⟩
  obtain ⟨t, u, rfl, ht⟩ := hu.first
  exact ⟨t, u ++ v, rfl, ht⟩

/-- A token that starts no node shows the node to be missing. -/
theorem then_optNode_of_notMem {t : TokenType} (ht : t ∉ nodeFirst k) :
    Then (OptNode r k) K (t :: w) ↔ K (t :: w) := by
  rw [then_optNode_iff]
  exact or_iff_left fun h => ht (starts_then_node.mem h)

/-- A token that nothing may follow with shows that there is a node. -/
theorem then_optNode_of_starts (hK : Starts S K) {t : TokenType} (ht : t ∉ S) :
    Then (OptNode r k) K (t :: w) ↔ Then (Node r k) K (t :: w) := by
  rw [then_optNode_iff]
  exact or_iff_right fun h => ht (hK.mem h)

theorem then_optValue_value (hK : ∀ w, ¬K (.value :: w)) :
    Then (OptValue r k) K (.value :: w) ↔ Then (OptNode r k) K w := by
  constructor
  · rintro ⟨u, v, hu, hv, he⟩
    cases hu with
    | none =>
      obtain rfl : v = _ := he.symm
      exact absurd hv (hK w)
    | some hu =>
      obtain ⟨-, rfl⟩ := List.cons.inj he
      exact ⟨_, v, hu, hv, rfl⟩
  · rintro ⟨u, v, hu, hv, rfl⟩
    exact ⟨.value :: u, v, .some hu, hv, rfl⟩

theorem then_optValue_of_ne {t : TokenType} (ht : t ≠ .value) :
    Then (OptValue r k) K (t :: w) ↔ K (t :: w) := by
  constructor
  · rintro ⟨u, v, hu, hv, he⟩
    cases hu with
    | none => rwa [he]
    | some hu => exact absurd (List.cons.inj he).1 ht
  · exact fun h => ⟨[], _, .none k, h, rfl⟩

theorem starts_then_optValue (hK : Starts S K) : Starts (.value :: S) (Then (OptValue r k) K) := by
  rintro w ⟨u, v, hu, hv, rfl⟩
  cases hu with
  | none =>
    obtain ⟨t, v, rfl, ht⟩ := hK v hv
    exact ⟨t, v, rfl, List.mem_cons_of_mem _ ht⟩
  | some => exact ⟨_, _, rfl, by simp⟩

/-! ## Block collections -/

theorem then_blockEntries_entry (hK : ∀ w, ¬K (.blockEntry :: w)) :
    Then (BlockEntries r) K (.blockEntry :: w) ↔
      Then (OptNode r .block) (Then (BlockEntries r) K) w := by
  constructor
  · rintro ⟨u, v, hu, hv, he⟩
    cases hu with
    | nil =>
      obtain rfl : v = _ := he.symm
      exact absurd hv (hK w)
    | @cons a b ha hb =>
      obtain ⟨-, rfl⟩ := List.cons.inj he
      exact ⟨a, b ++ v, ha, ⟨b, v, hb, hv, rfl⟩, by simp⟩
  · rintro ⟨a, -, ha, ⟨b, v, hb, hv, rfl⟩, rfl⟩
    exact ⟨_, v, .cons ha hb, hv, by simp⟩

theorem then_blockEntries_of_ne {t : TokenType} (ht : t ≠ .blockEntry) :
    Then (BlockEntries r) K (t :: w) ↔ K (t :: w) := by
  constructor
  · rintro ⟨u, v, hu, hv, he⟩
    cases hu with
    | nil => rwa [he]
    | cons => exact absurd (List.cons.inj he).1 ht
  · exact fun h => ⟨[], _, .nil, h, rfl⟩

theorem starts_then_blockEntries (hK : Starts S K) :
    Starts (.blockEntry :: S) (Then (BlockEntries r) K) := by
  rintro w ⟨u, v, hu, hv, rfl⟩
  cases hu with
  | nil =>
    obtain ⟨t, v, rfl, ht⟩ := hK v hv
    exact ⟨t, v, rfl, List.mem_cons_of_mem _ ht⟩
  | cons => exact ⟨_, _, rfl, by simp⟩

theorem then_blockPairs_key (hK : ∀ w, ¬K (.key :: w)) :
    Then (BlockPairs r) K (.key :: w) ↔ Then (OptNode r .blockOrIndentless)
      (Then (OptValue r .blockOrIndentless) (Then (BlockPairs r) K)) w := by
  constructor
  · rintro ⟨u, v, hu, hv, he⟩
    cases hu with
    | nil =>
      obtain rfl : v = _ := he.symm
      exact absurd hv (hK w)
    | @cons a b c ha hb hc =>
      obtain ⟨-, rfl⟩ := List.cons.inj he
      exact ⟨a, b ++ (c ++ v), ha, ⟨b, c ++ v, hb, ⟨c, v, hc, hv, rfl⟩, rfl⟩, by simp⟩
  · rintro ⟨a, -, ha, ⟨b, -, hb, ⟨c, v, hc, hv, rfl⟩, rfl⟩, rfl⟩
    exact ⟨_, v, .cons ha hb hc, hv, by simp⟩

theorem then_blockPairs_of_ne {t : TokenType} (ht : t ≠ .key) :
    Then (BlockPairs r) K (t :: w) ↔ K (t :: w) := by
  constructor
  · rintro ⟨u, v, hu, hv, he⟩
    cases hu with
    | nil => rwa [he]
    | cons => exact absurd (List.cons.inj he).1 ht
  · exact fun h => ⟨[], _, .nil, h, rfl⟩

theorem starts_then_blockPairs (hK : Starts S K) :
    Starts (.key :: S) (Then (BlockPairs r) K) := by
  rintro w ⟨u, v, hu, hv, rfl⟩
  cases hu with
  | nil =>
    obtain ⟨t, v, rfl, ht⟩ := hK v hv
    exact ⟨t, v, rfl, List.mem_cons_of_mem _ ht⟩
  | cons => exact ⟨_, _, rfl, by simp⟩

/-! ## Flow collections -/

/-- The rest of a flow collection from where an entry may start, then what `K` allows. -/
def FlowRest (r : Reading) (s : FlowKind) (K : Lang) : Lang :=
  Then (FlowEntries r s) (Tok s.closing K)

/-- The rest of a flow collection behind an entry, then what `K` allows. -/
def FlowTail (r : Reading) (s : FlowKind) (K : Lang) : Lang := fun w =>
  Tok s.closing K w ∨ Tok .flowEntry (FlowRest r s K) w

/-- The rest of a single pair behind its `KEY`, as the code reads it, then what `K` allows. -/
def PairRest (K : Lang) : Lang := fun w =>
  Then (Node .code .flow) (Then (OptValue .code .flow) K) w ∨
    ∃ x v, w = x :: v ∧ x ∈ [TokenType.value, .flowEntry, .flowSequenceEnd] ∧
      Then (OptValue .code .flow) K v

theorem closing_notMem_nodeFirst (s : FlowKind) : s.closing ∉ nodeFirst .flow := by
  cases s <;> simp [FlowKind.closing, nodeFirst, contentFirst]

theorem closing_ne_key (s : FlowKind) : s.closing ≠ .key := by
  cases s <;> simp [FlowKind.closing]

theorem closing_ne_flowEntry (s : FlowKind) : s.closing ≠ .flowEntry := by
  cases s <;> simp [FlowKind.closing]

theorem closing_ne_value (s : FlowKind) : s.closing ≠ .value := by
  cases s <;> simp [FlowKind.closing]

theorem FlowEntry.first (h : FlowEntry r s w) :
    ∃ t v, w = t :: v ∧ (t = .key ∨ t ∈ nodeFirst .flow) := by
  cases h with
  | node h =>
    obtain ⟨t, v, rfl, ht⟩ := h.first
    exact ⟨t, v, rfl, Or.inr ht⟩
  | pair | bare | swallow | value => exact ⟨_, _, rfl, Or.inl rfl⟩

@[simp] theorem flowTail_closing : FlowTail r s K (s.closing :: w) ↔ K w := by
  simp [FlowTail, closing_ne_flowEntry]

@[simp] theorem flowTail_flowEntry : FlowTail r s K (.flowEntry :: w) ↔ FlowRest r s K w := by
  simp [FlowTail, (closing_ne_flowEntry s).symm]

theorem starts_flowTail : Starts [s.closing, .flowEntry] (FlowTail r s K) := by
  rintro w (⟨v, -, rfl⟩ | ⟨v, -, rfl⟩)
  · exact ⟨_, _, rfl, by simp⟩
  · exact ⟨_, _, rfl, by simp⟩

theorem not_flowTail {t : TokenType} (hc : t ≠ s.closing) (he : t ≠ .flowEntry) :
    ¬FlowTail r s K (t :: w) := fun h => by
  have := starts_flowTail.mem h
  simp [hc, he] at this

theorem flowRest_closing : FlowRest r s K (s.closing :: w) ↔ K w := by
  have hfirst {u v : List TokenType} (hu : FlowEntry r s u) (he : s.closing :: w = u ++ v) :
      False := by
    obtain ⟨t, u', rfl, ht⟩ := hu.first
    obtain ⟨rfl, -⟩ := List.cons.inj he
    exact ht.elim (closing_ne_key s) (closing_notMem_nodeFirst s)
  constructor
  · rintro ⟨u, -, hu, ⟨v, hv, rfl⟩, he⟩
    cases hu with
    | nil =>
      obtain ⟨-, rfl⟩ := List.cons.inj he
      exact hv
    | last hu => exact (hfirst hu he).elim
    | cons hu _ => exact (hfirst hu (he.trans (List.append_assoc _ _ _))).elim
    | keyEntry => exact absurd (List.cons.inj he).1 (closing_ne_key _)
  · exact fun h => ⟨[], _, .nil s, ⟨w, h, rfl⟩, rfl⟩

theorem flowRest_of_ne (hr : r ≠ .common) {t : TokenType} (ht : t ≠ s.closing) :
    FlowRest r s K (t :: w) ↔ Then (FlowEntry r s) (FlowTail r s K) (t :: w) := by
  constructor
  · rintro ⟨u, -, hu, ⟨v, hv, rfl⟩, he⟩
    cases hu with
    | nil => exact absurd (List.cons.inj he).1 ht
    | last hu => exact ⟨u, _, hu, Or.inl ⟨v, hv, rfl⟩, he⟩
    | @cons _ a b ha hb =>
      exact ⟨a, _, ha, Or.inr ⟨_, ⟨b, _, hb, ⟨v, hv, rfl⟩, rfl⟩, rfl⟩, by rw [he]; simp⟩
    | keyEntry h => exact absurd h hr
  · rintro ⟨u, -, hu, ⟨v, hv, rfl⟩ | ⟨-, ⟨b, -, hb, ⟨v, hv, rfl⟩, rfl⟩, rfl⟩, he⟩
    · exact ⟨u, _, .last hu, ⟨v, hv, rfl⟩, he⟩
    · exact ⟨_, _, .cons hu hb, ⟨v, hv, rfl⟩, by rw [he]; simp⟩

theorem then_flowEntry_of_ne {t : TokenType} (ht : t ≠ .key) :
    Then (FlowEntry r s) K (t :: w) ↔ Then (Node r .flow) K (t :: w) := by
  constructor
  · rintro ⟨u, v, hu, hv, he⟩
    cases hu with
    | node hu => exact ⟨u, v, hu, hv, he⟩
    | pair | bare | swallow | value => exact absurd (List.cons.inj he).1 ht
  · rintro ⟨u, v, hu, hv, he⟩
    exact ⟨u, v, .node hu, hv, he⟩

theorem then_flowEntry_key_mapping : Then (FlowEntry r .mapping) K (.key :: w) ↔
    Then (OptNode r .flow) (Then (OptValue r .flow) K) w := by
  constructor
  · rintro ⟨u, v, hu, hv, he⟩
    cases hu with
    | node hu =>
      obtain ⟨t, u', rfl, ht⟩ := hu.first
      obtain ⟨rfl, -⟩ := List.cons.inj he
      simp [nodeFirst, contentFirst] at ht
    | @pair _ a b ha hb =>
      obtain ⟨-, rfl⟩ := List.cons.inj he
      exact ⟨a, b ++ v, .some ha, ⟨b, v, hb, hv, rfl⟩, by simp⟩
    | @bare _ b _ hb =>
      obtain ⟨-, rfl⟩ := List.cons.inj he
      exact ⟨[], b ++ v, .none _, ⟨b, v, hb, hv, rfl⟩, rfl⟩
  · rintro ⟨a, -, ha, ⟨b, v, hb, hv, rfl⟩, rfl⟩
    cases ha with
    | none => exact ⟨_, v, .bare (Or.inl rfl) hb, hv, rfl⟩
    | some ha => exact ⟨_, v, .pair ha hb, hv, by simp⟩

theorem then_flowEntry_key_code :
    Then (FlowEntry .code .sequence) K (.key :: w) ↔ PairRest K w := by
  constructor
  · rintro ⟨u, v, hu, hv, he⟩
    cases hu with
    | node hu =>
      obtain ⟨t, u', rfl, ht⟩ := hu.first
      obtain ⟨rfl, -⟩ := List.cons.inj he
      simp [nodeFirst, contentFirst] at ht
    | @pair _ a b ha hb =>
      obtain ⟨-, rfl⟩ := List.cons.inj he
      exact Or.inl ⟨a, b ++ v, ha, ⟨b, v, hb, hv, rfl⟩, by simp⟩
    | bare h => simp at h
    | @swallow x b _ hx hb =>
      obtain ⟨-, rfl⟩ := List.cons.inj he
      exact Or.inr ⟨x, b ++ v, rfl, hx, b, v, hb, hv, rfl⟩
    | value h => cases h
  · rintro (⟨a, -, ha, ⟨b, v, hb, hv, rfl⟩, rfl⟩ | ⟨x, -, rfl, hx, ⟨b, v, hb, hv, rfl⟩⟩)
    · exact ⟨_, v, .pair ha hb, hv, by simp⟩
    · exact ⟨_, v, .swallow rfl hx hb, hv, rfl⟩

/-! ## Contents, by their first token -/

theorem then_content_scalar : Then (Content r k) K (.scalar :: w) ↔ K w := by
  constructor
  · rintro ⟨u, v, hu, hv, he⟩
    cases hu with
    | scalar =>
      obtain ⟨-, rfl⟩ := List.cons.inj he
      exact hv
    | @flow _ s => cases s <;> exact absurd (List.cons.inj he).1 (by simp [FlowKind.opening])
    | blockSequence | blockMapping | indentless => exact absurd (List.cons.inj he).1 (by simp)
  · exact fun h => ⟨[.scalar], w, .scalar k, h, rfl⟩

theorem then_content_flow : Then (Content r k) K (s.opening :: w) ↔ FlowRest r s K w := by
  constructor
  · rintro ⟨u, v, hu, hv, he⟩
    cases hu with
    | scalar => cases s <;> exact absurd (List.cons.inj he).1 (by simp [FlowKind.opening])
    | @flow _ s' w' hw =>
      obtain ⟨hs, rfl⟩ := List.cons.inj he
      obtain rfl : s = s' := by cases s <;> cases s' <;> simp_all [FlowKind.opening]
      exact ⟨w', _, hw, ⟨v, hv, rfl⟩, by simp⟩
    | blockSequence | blockMapping | indentless =>
      cases s <;> exact absurd (List.cons.inj he).1 (by simp [FlowKind.opening])
  · rintro ⟨w', -, hw, ⟨v, hv, rfl⟩, rfl⟩
    exact ⟨_, v, .flow k hw, hv, by simp⟩

theorem then_content_blockSequence : Then (Content r k) K (.blockSequenceStart :: w) ↔
    k ≠ .flow ∧ Then (BlockEntries r) (Tok .blockEnd K) w := by
  constructor
  · rintro ⟨u, v, hu, hv, he⟩
    cases hu with
    | scalar | blockMapping | indentless => exact absurd (List.cons.inj he).1 (by simp)
    | @flow _ s => cases s <;> exact absurd (List.cons.inj he).1 (by simp [FlowKind.opening])
    | @blockSequence _ w' hk hw =>
      obtain ⟨-, rfl⟩ := List.cons.inj he
      exact ⟨hk, w', _, hw, ⟨v, hv, rfl⟩, by simp⟩
  · rintro ⟨hk, w', -, hw, ⟨v, hv, rfl⟩, rfl⟩
    exact ⟨_, v, .blockSequence hk hw, hv, by simp⟩

theorem then_content_blockMapping : Then (Content r k) K (.blockMappingStart :: w) ↔
    k ≠ .flow ∧ Then (BlockPairs r) (Tok .blockEnd K) w := by
  constructor
  · rintro ⟨u, v, hu, hv, he⟩
    cases hu with
    | scalar | blockSequence | indentless => exact absurd (List.cons.inj he).1 (by simp)
    | @flow _ s => cases s <;> exact absurd (List.cons.inj he).1 (by simp [FlowKind.opening])
    | @blockMapping _ w' hk hw =>
      obtain ⟨-, rfl⟩ := List.cons.inj he
      exact ⟨hk, w', _, hw, ⟨v, hv, rfl⟩, by simp⟩
  · rintro ⟨hk, w', -, hw, ⟨v, hv, rfl⟩, rfl⟩
    exact ⟨_, v, .blockMapping hk hw, hv, by simp⟩

theorem then_content_blockEntry (hK : ∀ w, ¬K (.blockEntry :: w)) :
    Then (Content r .blockOrIndentless) K (.blockEntry :: w) ↔
      Then (BlockEntries r) K (.blockEntry :: w) := by
  constructor
  · rintro ⟨u, v, hu, hv, he⟩
    cases hu with
    | scalar | blockSequence | blockMapping => exact absurd (List.cons.inj he).1 (by simp)
    | @flow _ s => cases s <;> exact absurd (List.cons.inj he).1 (by simp [FlowKind.opening])
    | indentless ha hb => exact ⟨_, v, .cons ha hb, hv, he⟩
  · rintro ⟨u, v, hu, hv, he⟩
    cases hu with
    | nil =>
      obtain rfl : v = _ := he.symm
      exact absurd hv (hK w)
    | cons ha hb => exact ⟨_, v, .indentless ha hb, hv, he⟩

theorem starts_then_content : Starts (contentFirst k) (Then (Content r k) K) := by
  rintro w ⟨u, v, hu, -, rfl⟩
  obtain ⟨t, u, rfl, ht⟩ := hu.first
  exact ⟨t, u ++ v, rfl, ht⟩

end Continuations

/-! ## Documents -/

/-- The rest of a stream where a document may start. -/
def StreamRest (r : Reading) : Lang := fun w => ∃ v, Documents r v ∧ w = v ++ [.streamEnd]

/-- The rest of a stream behind a document. -/
def DocumentRest (r : Reading) : Lang := fun w =>
  ∃ n v, StreamRest r v ∧ w = List.replicate n .documentEnd ++ v

def isDirective (t : TokenType) : Bool := t = .versionDirective ∨ t = .tagDirective

theorem starts_streamRest :
    Starts [.versionDirective, .tagDirective, .documentStart, .streamEnd] (StreamRest r) := by
  rintro w ⟨v, hv, rfl⟩
  cases hv with
  | nil => exact ⟨_, _, rfl, by simp⟩
  | @cons ds u v n hds _ _ =>
    rcases ds with _ | ⟨d, ds⟩
    · exact ⟨_, _, rfl, by simp⟩
    · rcases hds d (by simp) with rfl | rfl <;> exact ⟨_, _, rfl, by simp⟩

theorem documentRest_iff : DocumentRest r w ↔ StreamRest r (w.dropWhile (· = .documentEnd)) := by
  constructor
  · rintro ⟨n, v, hv, rfl⟩
    obtain ⟨t, v, rfl, ht⟩ := starts_streamRest v hv
    have ht' : t ≠ .documentEnd := by rintro rfl; simp at ht
    induction n with
    | zero => simpa [ht'] using hv
    | succ n ih => simpa [List.replicate_succ] using ih
  · intro h
    refine ⟨(w.takeWhile (· = .documentEnd)).length, _, h, ?_⟩
    have hrep : w.takeWhile (· = .documentEnd) =
        List.replicate (w.takeWhile (· = .documentEnd)).length .documentEnd :=
      List.eq_replicate_of_mem fun t ht => by simpa using List.mem_takeWhile_imp ht
    rw [← hrep, List.takeWhile_append_dropWhile]

theorem streamRest_iff (h : ∀ v, w ≠ .streamEnd :: v) : StreamRest r w ↔
    ∃ v, w.dropWhile isDirective = .documentStart :: v ∧
      Then (OptNode r .block) (DocumentRest r) v := by
  constructor
  · rintro ⟨v, hv, rfl⟩
    cases hv with
    | nil => exact absurd rfl (h [])
    | @cons ds u v n hds hu hv =>
      refine ⟨u ++ (List.replicate n .documentEnd ++ (v ++ [.streamEnd])), ?_, u, _, hu,
        ⟨n, _, ⟨v, hv, rfl⟩, rfl⟩, rfl⟩
      rw [show ds ++ TokenType.documentStart :: u ++ List.replicate n .documentEnd ++ v ++
          [TokenType.streamEnd] = ds ++ TokenType.documentStart ::
          (u ++ (List.replicate n .documentEnd ++ (v ++ [.streamEnd]))) by simp,
        List.dropWhile_append_of_pos fun t ht => by simpa [isDirective] using hds t ht]
      rfl
  · rintro ⟨-, he, u, -, hu, ⟨n, -, ⟨v, hv, rfl⟩, rfl⟩, rfl⟩
    have hds : ∀ t ∈ w.takeWhile isDirective, t = .versionDirective ∨ t = .tagDirective :=
      fun t ht => by simpa [isDirective] using List.mem_takeWhile_imp ht
    refine ⟨_, .cons n hds hu hv, (List.takeWhile_append_dropWhile (p := isDirective)).symm.trans ?_⟩
    rw [he]
    simp

end TokenGrammar

end LibYaml
