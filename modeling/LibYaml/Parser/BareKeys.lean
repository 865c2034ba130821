import LibYaml.Parser.Lookahead

/-!
# Single pairs whose key has no node

The code skips the token that shows the key of a single pair in a flow sequence to have no node.
The documented grammar and the grammar as the code reads it agree on a sequence of tokens exactly
when every such key is followed by `VALUE` and the end of its entry, or by a `FLOW-ENTRY` that
closes the sequence.
-/

namespace LibYaml

namespace TokenGrammar

/-! ## Counting brackets -/

/-- No `STREAM-END`, and a `FLOW-SEQUENCE-END` for every `FLOW-SEQUENCE-START`: just one, unless
the code swallows some. -/
structure Tally (r : Reading) (w : List TokenType) : Prop where
  streamEnd : .streamEnd ∉ w
  le : w.count .flowSequenceStart ≤ w.count .flowSequenceEnd
  eq : r = .documented → w.count .flowSequenceStart = w.count .flowSequenceEnd

variable {r : Reading}

theorem Tally.nil : Tally r [] := ⟨by simp, by simp, by simp⟩

theorem Tally.append {u v : List TokenType} (hu : Tally r u) (hv : Tally r v) :
    Tally r (u ++ v) := by
  refine ⟨by simp [hu.streamEnd, hv.streamEnd], ?_, fun hr => ?_⟩
  · have h1 := hu.le
    have h2 := hv.le
    simp only [List.count_append]
    omega
  · simp only [List.count_append, hu.eq hr, hv.eq hr]

theorem Tally.cons {t : TokenType} {w : List TokenType} (h : Tally r w) (he : t ≠ .streamEnd)
    (ho : t ≠ .flowSequenceStart) (hc : t ≠ .flowSequenceEnd) : Tally r (t :: w) := by
  refine ⟨by simp [he.symm, h.streamEnd], ?_, fun hr => ?_⟩
  · simpa [ho, hc] using h.le
  · simpa [ho, hc] using h.eq hr

theorem Tally.single {t : TokenType} (he : t ≠ .streamEnd) (ho : t ≠ .flowSequenceStart)
    (hc : t ≠ .flowSequenceEnd) : Tally r [t] := Tally.nil.cons he ho hc

theorem Tally.flow {s : FlowKind} {w : List TokenType} (h : Tally r w) :
    Tally r (s.opening :: w ++ [s.closing]) := by
  cases s with
  | sequence =>
    refine ⟨by simp [FlowKind.opening, FlowKind.closing, h.streamEnd], ?_, fun hr => ?_⟩
    · have := h.le
      simp [FlowKind.opening, FlowKind.closing]
      omega
    · have := h.eq hr
      simp [FlowKind.opening, FlowKind.closing]
      omega
  | mapping =>
    simp only [FlowKind.opening, FlowKind.closing]
    exact (h.append (.single (by simp) (by simp) (by simp))).cons (by simp) (by simp) (by simp)

theorem Tally.block {t : TokenType} {w : List TokenType} (h : Tally r w) (he : t ≠ .streamEnd)
    (ho : t ≠ .flowSequenceStart) (hc : t ≠ .flowSequenceEnd) : Tally r (t :: w ++ [.blockEnd]) :=
  (h.append (.single (by simp) (by simp) (by simp))).cons he ho hc

theorem Properties.tally {p : List TokenType} (h : Properties p) : Tally r p := by
  cases h with
  | tag | anchor => exact .single (by simp) (by simp) (by simp)
  | tagAnchor | anchorTag =>
    exact (Tally.single (by simp) (by simp) (by simp)).cons (by simp) (by simp) (by simp)

mutual

theorem Node.tally : ∀ {k : NodeKind} {w : List TokenType}, Node r k w → Tally r w
  | _, _, .alias _ => .single (by simp) (by simp) (by simp)
  | _, _, .properties _ hp => hp.tally
  | _, _, .content h => h.tally
  | _, _, .propertiesContent hp h => hp.tally.append h.tally

theorem Content.tally : ∀ {k : NodeKind} {w : List TokenType}, Content r k w → Tally r w
  | _, _, .scalar _ => .single (by simp) (by simp) (by simp)
  | _, _, .flow _ h => h.tally.flow
  | _, _, .blockSequence _ h => h.tally.block (by simp) (by simp) (by simp)
  | _, _, .blockMapping _ h => h.tally.block (by simp) (by simp) (by simp)
  | _, _, .indentless hu hv => (hu.tally.append hv.tally).cons (by simp) (by simp) (by simp)

theorem BlockEntries.tally : ∀ {w : List TokenType}, BlockEntries r w → Tally r w
  | _, .nil => .nil
  | _, .cons hu hv => (hu.tally.append hv.tally).cons (by simp) (by simp) (by simp)

theorem BlockPairs.tally : ∀ {w : List TokenType}, BlockPairs r w → Tally r w
  | _, .nil => .nil
  | _, .cons hu hv hw =>
    ((hu.tally.append hv.tally).append hw.tally).cons (by simp) (by simp) (by simp)

theorem OptNode.tally : ∀ {k : NodeKind} {w : List TokenType}, OptNode r k w → Tally r w
  | _, _, .none _ => .nil
  | _, _, .some h => h.tally

theorem OptValue.tally : ∀ {k : NodeKind} {w : List TokenType}, OptValue r k w → Tally r w
  | _, _, .none _ => .nil
  | _, _, .some h => h.tally.cons (by simp) (by simp) (by simp)

theorem FlowEntries.tally : ∀ {s : FlowKind} {w : List TokenType}, FlowEntries r s w → Tally r w
  | _, _, .nil _ => .nil
  | _, _, .last h => h.tally
  | _, _, .cons hu hv => hu.tally.append (hv.tally.cons (by simp) (by simp) (by simp))
  | _, _, .keyEntry _ =>
    (Tally.single (by simp) (by simp) (by simp)).cons (by simp) (by simp) (by simp)

theorem FlowEntry.tally : ∀ {s : FlowKind} {w : List TokenType}, FlowEntry r s w → Tally r w
  | _, _, .node h => h.tally
  | _, _, .pair hu hv => (hu.tally.append hv.tally).cons (by simp) (by simp) (by simp)
  | _, _, .bare _ hv => hv.tally.cons (by simp) (by simp) (by simp)
  | _, _, .swallow (x := x) hr hx hv => by
    refine Tally.cons ?_ (by simp) (by simp) (by simp)
    simp only [List.mem_cons, List.not_mem_nil, or_false] at hx
    rcases hx with rfl | rfl | rfl
    · exact hv.tally.cons (by simp) (by simp) (by simp)
    · exact hv.tally.cons (by simp) (by simp) (by simp)
    · refine ⟨by simp [hv.tally.streamEnd], ?_, by simp [hr]⟩
      have := hv.tally.le
      simp
      omega
  | _, _, .value _ =>
    (Tally.single (by simp) (by simp) (by simp)).cons (by simp) (by simp) (by simp)

end

/-! ## What both readings have in common -/

mutual

theorem Node.of_common : ∀ {k : NodeKind} {w : List TokenType}, Node .common k w → Node r k w
  | _, _, .alias k => .alias k
  | _, _, .properties k hp => .properties k hp
  | _, _, .content h => .content h.of_common
  | _, _, .propertiesContent hp h => .propertiesContent hp h.of_common

theorem Content.of_common : ∀ {k : NodeKind} {w : List TokenType}, Content .common k w →
    Content r k w
  | _, _, .scalar k => .scalar k
  | _, _, .flow k h => .flow k h.of_common
  | _, _, .blockSequence hk h => .blockSequence hk h.of_common
  | _, _, .blockMapping hk h => .blockMapping hk h.of_common
  | _, _, .indentless hu hv => .indentless hu.of_common hv.of_common

theorem BlockEntries.of_common : ∀ {w : List TokenType}, BlockEntries .common w → BlockEntries r w
  | _, .nil => .nil
  | _, .cons hu hv => .cons hu.of_common hv.of_common

theorem BlockPairs.of_common : ∀ {w : List TokenType}, BlockPairs .common w → BlockPairs r w
  | _, .nil => .nil
  | _, .cons hu hv hw => .cons hu.of_common hv.of_common hw.of_common

theorem OptNode.of_common : ∀ {k : NodeKind} {w : List TokenType}, OptNode .common k w →
    OptNode r k w
  | _, _, .none k => .none k
  | _, _, .some h => .some h.of_common

theorem OptValue.of_common : ∀ {k : NodeKind} {w : List TokenType}, OptValue .common k w →
    OptValue r k w
  | _, _, .none k => .none k
  | _, _, .some h => .some h.of_common

theorem FlowEntries.of_common : ∀ {s : FlowKind} {w : List TokenType}, FlowEntries .common s w →
    FlowEntries r s w
  | _, _, .nil s => .nil s
  | _, _, .last h => .last h.of_common
  | _, _, .cons hu hv => .cons hu.of_common hv.of_common
  | _, _, .keyEntry h => by
    cases r with
    | documented => exact .cons (.bare (Or.inr rfl) (.none _)) (.nil _)
    | code => exact .last (.swallow rfl (by simp) (.none _))
    | common => exact .keyEntry h

theorem FlowEntry.of_common : ∀ {s : FlowKind} {w : List TokenType}, FlowEntry .common s w →
    FlowEntry r s w
  | _, _, .node h => .node h.of_common
  | _, _, .pair hu hv => .pair hu.of_common hv.of_common
  | _, _, .bare hs hv => .bare (Or.inl (by simpa using hs)) hv.of_common
  | _, _, .value h => by
    cases r with
    | documented => exact .bare (Or.inr rfl) (.some (.none _))
    | code => exact .swallow rfl (by simp) (.none _)
    | common => exact .value h

end

theorem Documents.of_common {w : List TokenType} (h : Documents .common w) : Documents r w := by
  induction h with
  | nil => exact .nil
  | cons n hds hu _ ih => exact .cons n hds hu.of_common ih

theorem Stream.of_common {w : List TokenType} : Stream .common w → Stream r w
  | .explicit hd => .explicit hd.of_common
  | .implicit n hu hd => .implicit n hu.of_common hd.of_common

/-! ## Words of both readings -/

/-- The words of `K` close `d` more flow sequences than they open. -/
def Deficit (d : Nat) (K : Lang) : Prop :=
  ∀ v, K v → v.count .flowSequenceStart + d ≤ v.count .flowSequenceEnd

/-- `K` may follow, `rest` does, neither starts with a token of `F`, and `rest` closes no more flow
sequences than it must. -/
structure Follow (F : List TokenType) (d : Nat) (K : Lang) (rest : List TokenType) : Prop where
  starts : ∃ S, Starts S K ∧ ∀ t ∈ S, t ∉ F
  deficit : Deficit d K
  head : ∀ t v, rest = t :: v → t ∉ F
  tight : rest.count .flowSequenceEnd = rest.count .flowSequenceStart + d

section Both

variable {A K : Lang} {F F' : List TokenType} {d : Nat} {w rest : List TokenType} {k : NodeKind}
  {s : FlowKind}

theorem Deficit.then (hK : Deficit d K) (hA : ∀ u, A u → Tally r u) : Deficit d (Then A K) := by
  rintro w ⟨u, v, hu, hv, rfl⟩
  have h1 := (hA u hu).le
  have h2 := hK v hv
  simp only [List.count_append]
  omega

theorem Deficit.tok (hK : Deficit d K) {t : TokenType} (ho : t ≠ .flowSequenceStart)
    (hc : t ≠ .flowSequenceEnd) : Deficit d (Tok t K) := by
  rintro w ⟨v, hv, rfl⟩
  have := hK v hv
  simpa [ho, hc] using this

/-- How many flow sequences the end of the collection closes. -/
def depth : FlowKind → Nat
  | .sequence => 1
  | .mapping => 0

theorem count_closing (s : FlowKind) (w : List TokenType) :
    (s.closing :: w).count .flowSequenceEnd = w.count .flowSequenceEnd + depth s ∧
      (s.closing :: w).count .flowSequenceStart = w.count .flowSequenceStart := by
  cases s <;> simp [FlowKind.closing, depth]

theorem Deficit.flowTail (hK : Deficit d K) : Deficit (d + depth s) (FlowTail .code s K) := by
  have hclose (v : List TokenType) (hv : K v) : (s.closing :: v).count .flowSequenceStart +
      (d + depth s) ≤ (s.closing :: v).count .flowSequenceEnd := by
    have h1 := hK v hv
    have h2 := count_closing s v
    omega
  rintro w (⟨v, hv, rfl⟩ | ⟨-, ⟨u, -, hu, ⟨v, hv, rfl⟩, rfl⟩, rfl⟩)
  · exact hclose v hv
  · have h1 := hclose v hv
    have h2 := hu.tally.le
    rw [List.count_cons_of_ne (by simp), List.count_cons_of_ne (by simp), List.count_append,
      List.count_append]
    omega

theorem Follow.mono (h : Follow F d K rest) (hF : ∀ t ∈ F', t ∈ F) : Follow F' d K rest := by
  obtain ⟨⟨S, hS, hd⟩, hdef, hh, ht⟩ := h
  exact ⟨⟨S, hS, fun t hm hf => hd t hm (hF t hf)⟩, hdef, fun t v he hf => hh t v he (hF t hf), ht⟩

theorem Follow.tok {t : TokenType} (ho : t ≠ .flowSequenceStart) (hc : t ≠ .flowSequenceEnd)
    (ht : t ∉ F) (hdef : Deficit d K)
    (htight : rest.count .flowSequenceEnd = rest.count .flowSequenceStart + d) :
    Follow F d (Tok t K) (t :: rest) := by
  refine ⟨⟨[t], starts_tok, by simpa using ht⟩, hdef.tok ho hc, fun t' v he => ?_, ?_⟩
  · obtain ⟨rfl, -⟩ := List.cons.inj he
    exact ht
  · simpa [ho, hc] using htight

/-- What may follow in front of more that may be missing. -/
theorem Follow.then {f : TokenType} (h : Follow (f :: F) d K rest) (hf : f ∉ F) {u : List TokenType}
    (hA : ∀ S, Starts S K → Starts (f :: S) (Then A K)) (htally : ∀ u, A u → Tally .code u)
    (hu : Tally .documented u) (hfirst : ∀ t v, u = t :: v → t = f) :
    Follow F d (Then A K) (u ++ rest) := by
  obtain ⟨⟨S, hS, hd⟩, hdef, hh, ht⟩ := h
  refine ⟨⟨f :: S, hA S hS, ?_⟩, hdef.then htally, ?_, ?_⟩
  · intro t hm hF
    rcases List.mem_cons.mp hm with rfl | hm
    · exact hf hF
    · exact hd t hm (List.mem_cons_of_mem _ hF)
  · intro t v he hF
    cases u with
    | nil => exact hh t v he (List.mem_cons_of_mem _ hF)
    | cons a u =>
      obtain ⟨rfl, -⟩ := List.cons.inj he
      exact hf (hfirst a u rfl ▸ hF)
  · have := hu.eq rfl
    simp only [List.count_append]
    omega

theorem Follow.not_starts (h : Follow F d K rest) {t : TokenType} (ht : t ∈ F)
    (v : List TokenType) : ¬K (t :: v) := by
  obtain ⟨S, hS, hd⟩ := h.starts
  exact fun hK => hd t (hS.mem hK) ht

/-- What starts with `f`, if it is there at all, is missing in front of another token. -/
theorem Then.skip {f : TokenType} (hA : ∀ u, A u → u = [] ∨ ∃ v, u = f :: v)
    (hf : ∀ v, rest ≠ f :: v) (h : Then A K rest) : K rest := by
  obtain ⟨u, v, hu, hv, rfl⟩ := h
  rcases hA u hu with rfl | ⟨u', rfl⟩
  · exact hv
  · exact absurd rfl (hf (u' ++ v))

theorem BlockEntries.first {w : List TokenType} (h : BlockEntries r w) :
    w = [] ∨ ∃ v, w = .blockEntry :: v := by
  cases h with
  | nil => exact Or.inl rfl
  | cons => exact Or.inr ⟨_, rfl⟩

theorem BlockPairs.first {w : List TokenType} (h : BlockPairs r w) :
    w = [] ∨ ∃ v, w = .key :: v := by
  cases h with
  | nil => exact Or.inl rfl
  | cons => exact Or.inr ⟨_, rfl⟩

theorem OptValue.first {w : List TokenType} (h : OptValue r k w) :
    w = [] ∨ ∃ v, w = .value :: v := by
  cases h with
  | none => exact Or.inl rfl
  | some => exact Or.inr ⟨_, rfl⟩

theorem FlowEntries.first {w : List TokenType} (h : FlowEntries r s w) :
    w = [] ∨ ∃ t v, w = t :: v ∧ (t = .key ∨ t ∈ nodeFirst .flow) := by
  cases h with
  | nil => exact Or.inl rfl
  | last hu => exact Or.inr hu.first
  | cons hu =>
    obtain ⟨t, v, rfl, ht⟩ := hu.first
    exact Or.inr ⟨t, _, rfl, ht⟩
  | keyEntry => exact Or.inr ⟨_, _, rfl, Or.inl rfl⟩

theorem Follow.skip {f : TokenType} (h : Follow F d K rest) (hf : f ∈ F)
    (hA : ∀ u, A u → u = [] ∨ ∃ v, u = f :: v) (hw : Then A K rest) : K rest :=
  Then.skip hA (fun v he => h.head f v he hf) hw

theorem Follow.blockEntries (h : Follow (nodeFirst .blockOrIndentless) d K rest)
    {u : List TokenType} (hu : BlockEntries .documented u) :
    Follow (nodeFirst .block) d (Then (BlockEntries .code) K) (u ++ rest) := by
  have hf : Follow (.blockEntry :: nodeFirst .block) d K rest := h.mono (by
    simp [nodeFirst, contentFirst])
  refine hf.then (by simp [nodeFirst, contentFirst]) (fun S => starts_then_blockEntries)
    (fun _ => BlockEntries.tally) hu.tally fun t v he => ?_
  rcases hu.first with rfl | ⟨v', rfl⟩
  · cases he
  · exact (List.cons.inj he).1.symm

theorem Follow.blockPairs (h : Follow (.key :: .value :: nodeFirst .blockOrIndentless) d K rest)
    {u : List TokenType} (hu : BlockPairs .documented u) :
    Follow (.value :: nodeFirst .blockOrIndentless) d (Then (BlockPairs .code) K) (u ++ rest) := by
  refine h.then (by simp [nodeFirst, contentFirst]) (fun S => starts_then_blockPairs)
    (fun _ => BlockPairs.tally) hu.tally fun t v he => ?_
  rcases hu.first with rfl | ⟨v', rfl⟩
  · cases he
  · exact (List.cons.inj he).1.symm

theorem Follow.optValue (h : Follow (.value :: nodeFirst k) d K rest)
    {u : List TokenType} (hu : OptValue .documented k u) :
    Follow (nodeFirst k) d (Then (OptValue .code k) K) (u ++ rest) := by
  refine h.then (by cases k <;> simp [nodeFirst, contentFirst]) (fun S => starts_then_optValue)
    (fun _ => OptValue.tally) hu.tally fun t v he => ?_
  rcases hu.first with rfl | ⟨v', rfl⟩
  · cases he
  · exact (List.cons.inj he).1.symm

/-- Behind properties there is either content or what follows the node. -/
theorem Follow.properties (h : Follow (nodeFirst k) d K rest) {p w : List TokenType}
    (hp : Properties p) (hw : ∀ t v, w = t :: v → t ≠ .anchor ∧ t ≠ .tag)
    (hn : Then (Node .code k) K (p ++ w)) : Then (Content .code k) K w ∨ K w := by
  obtain ⟨S, hS, hd⟩ := h.starts
  have hstrip : stripProperties (p ++ w) = (true, w) := by
    rcases w with _ | ⟨t, v⟩
    · cases hp <;> rfl
    · exact stripProperties_append hp (hw t v rfl).1 (hw t v rfl).2 v
  obtain ⟨t, p', rfl, ht⟩ := hp.first
  have hta : t ≠ .alias := by rcases ht with rfl | rfl <;> simp
  rw [List.cons_append, then_node_iff hS hd hta, ← List.cons_append, hstrip] at hn
  exact hn.imp id And.right

theorem ne_of_mem_contentFirst {t : TokenType} (h : t ∈ contentFirst k) :
    t ≠ .alias ∧ t ≠ .anchor ∧ t ≠ .tag := by
  refine ⟨?_, ?_, ?_⟩ <;> rintro rfl <;> cases k <;> simp [contentFirst] at h

theorem Follow.propertiesContent (h : Follow (nodeFirst k) d K rest) {p w : List TokenType}
    (hp : Properties p) (hc : Content r k w) (hn : Then (Node .code k) K (p ++ w ++ rest)) :
    Then (Content .code k) K (w ++ rest) := by
  obtain ⟨t, v, rfl, ht⟩ := hc.first
  obtain ⟨-, h2, h3⟩ := ne_of_mem_contentFirst ht
  rw [List.append_assoc] at hn
  refine (h.properties hp (fun t' v' he => ?_) hn).resolve_right
    (h.not_starts (by simp [nodeFirst, ht]) _)
  obtain ⟨rfl, -⟩ := List.cons.inj he
  exact ⟨h2, h3⟩

theorem Follow.content (h : Follow (nodeFirst k) d K rest) {w : List TokenType}
    (hc : Content r k w) (hn : Then (Node .code k) K (w ++ rest)) :
    Then (Content .code k) K (w ++ rest) := by
  obtain ⟨S, hS, hd⟩ := h.starts
  obtain ⟨t, v, rfl, ht⟩ := hc.first
  obtain ⟨h1, h2, h3⟩ := ne_of_mem_contentFirst ht
  rw [List.cons_append, then_node_iff hS hd h1, stripProperties_of_ne h2 h3] at hn
  exact hn.resolve_right (by simp)

theorem Follow.optNode (h : Follow (nodeFirst k) d K rest) {w : List TokenType}
    (hu : Node r k w) (hn : Then (OptNode .code k) K (w ++ rest)) :
    Then (Node .code k) K (w ++ rest) := by
  obtain ⟨t, v, rfl, ht⟩ := hu.first
  exact (then_optNode_iff.mp hn).resolve_left (h.not_starts ht _)

/-- A pair of a flow collection whose key has a node. -/
theorem Follow.pair (h : Follow (nodeFirst .flow) d (Then (OptValue .code .flow) K) rest)
    {w : List TokenType} (hu : Node r .flow w)
    (hn : Then (FlowEntry .code s) K (.key :: (w ++ rest))) :
    Then (Node .code .flow) (Then (OptValue .code .flow) K) (w ++ rest) := by
  cases s with
  | mapping =>
    rw [then_flowEntry_key_mapping] at hn
    exact h.optNode hu hn
  | sequence =>
    rw [then_flowEntry_key_code] at hn
    refine hn.resolve_right ?_
    obtain ⟨t, u, rfl, ht⟩ := hu.first
    rintro ⟨x, v, he, hx, -⟩
    obtain ⟨rfl, -⟩ := List.cons.inj he
    simp only [List.mem_cons, List.not_mem_nil, or_false] at hx
    rcases hx with rfl | rfl | rfl <;> simp [nodeFirst, contentFirst] at ht

theorem FlowKind.eq_or (s : FlowKind) : s = .sequence ∨ s = .mapping := by
  cases s <;> simp

theorem Node.then_node {w : List TokenType} (hw : Node r .flow w)
    (h : Then (FlowEntry .code s) K (w ++ rest)) : Then (Node .code .flow) K (w ++ rest) := by
  obtain ⟨t, w, rfl, ht⟩ := hw.first
  refine (then_flowEntry_of_ne ?_).mp h
  rintro rfl
  simp [nodeFirst, contentFirst] at ht

theorem FlowEntry.then_of_flowRest {u : List TokenType} (hu : FlowEntry r s u)
    (h : FlowRest .code s K (u ++ rest)) :
    Then (FlowEntry .code s) (FlowTail .code s K) (u ++ rest) := by
  obtain ⟨t, u, rfl, ht⟩ := hu.first
  refine (flowRest_of_ne (by simp) ?_).mp h
  rintro rfl
  exact ht.elim (closing_ne_key s) (closing_notMem_nodeFirst s)

theorem starts_flowTail_notMem (s : FlowKind) :
    ∀ t ∈ [s.closing, .flowEntry], t ∉ TokenType.value :: nodeFirst .flow := by
  cases s <;> simp [FlowKind.closing, nodeFirst, contentFirst]

/-- What may follow an entry: the end of its collection. -/
theorem Follow.closing (hK : Deficit d K)
    (ht : rest.count .flowSequenceEnd = rest.count .flowSequenceStart + d) :
    Follow (.value :: nodeFirst .flow) (d + depth s) (FlowTail .code s K) (s.closing :: rest) := by
  refine ⟨⟨_, starts_flowTail, starts_flowTail_notMem s⟩, hK.flowTail, fun t v he => ?_, ?_⟩
  · obtain ⟨rfl, -⟩ := List.cons.inj he
    exact starts_flowTail_notMem s _ (by simp)
  · have := count_closing s rest
    omega

/-- What may follow an entry: a separator, and more entries. -/
theorem Follow.flowEntry (hK : Deficit d K)
    (ht : rest.count .flowSequenceEnd = rest.count .flowSequenceStart + d) {v : List TokenType}
    (hv : FlowEntries .documented s v) : Follow (.value :: nodeFirst .flow) (d + depth s)
      (FlowTail .code s K) (.flowEntry :: (v ++ s.closing :: rest)) := by
  refine ⟨⟨_, starts_flowTail, starts_flowTail_notMem s⟩, hK.flowTail, fun t v he => ?_, ?_⟩
  · obtain ⟨rfl, -⟩ := List.cons.inj he
    exact starts_flowTail_notMem s _ (by simp)
  · have h1 := count_closing s rest
    have h2 := hv.tally.eq rfl
    rw [List.count_cons_of_ne (by simp), List.count_cons_of_ne (by simp), List.count_append,
      List.count_append]
    omega

/-- A bare key that takes the separator behind it for a part of its pair can only be the last. -/
theorem FlowEntries.keyEntry_of {u v : List TokenType} (hs : s = .sequence) (hu : u = [.key])
    (hv : FlowEntries .documented s v)
    (h : Then (OptValue .code .flow) (FlowTail .code .sequence K) (v ++ s.closing :: rest)) :
    FlowEntries .common s (u ++ .flowEntry :: v) ∧ K rest := by
  subst hs hu
  rcases hv.first with rfl | ⟨t, v, rfl, ht⟩
  · exact ⟨.keyEntry rfl, flowTail_closing.mp (Then.skip (fun _ => OptValue.first)
      (fun v he => closing_ne_value _ (List.cons.inj he).1) h)⟩
  · have htv : t ≠ .value := by
      rintro rfl
      simp [nodeFirst, contentFirst] at ht
    refine absurd ((then_optValue_of_ne htv).mp h) (not_flowTail ?_ ?_)
    · rintro rfl
      exact ht.elim (closing_ne_key _) (closing_notMem_nodeFirst _)
    · rintro rfl
      simp [nodeFirst, contentFirst] at ht

theorem Follow.bare_mapping (hf : Follow (.value :: nodeFirst .flow) d K rest) (hs : s = .mapping)
    {v : List TokenType} (hv : OptValue r .flow v)
    (h : Then (FlowEntry .code s) K (.key :: (v ++ rest))) :
    Then (OptValue .code .flow) K (v ++ rest) := by
  subst hs
  rw [then_flowEntry_key_mapping, then_optNode_iff] at h
  refine h.resolve_right fun hn => ?_
  obtain ⟨t, u, he, ht⟩ := starts_then_node _ hn
  rcases hv.first with rfl | ⟨v', rfl⟩
  · exact hf.head t u he (List.mem_cons_of_mem _ ht)
  · obtain ⟨rfl, -⟩ := List.cons.inj he
    simp [nodeFirst, contentFirst] at ht

/-- A single pair without a node as its key. -/
theorem Follow.bare_sequence
    (hf : Follow (.value :: nodeFirst .flow) (d + depth s) (FlowTail .code s K) rest)
    (hs : s = .sequence) {v : List TokenType} (hv : OptValue .documented .flow v)
    (h : Then (FlowEntry .code s) (FlowTail .code s K) (.key :: (v ++ rest))) :
    (FlowEntry .common s (.key :: v) ∧ FlowTail .code s K rest) ∨
      (s = .sequence ∧ TokenType.key :: v = [.key] ∧ ∃ v', rest = .flowEntry :: v' ∧
        Then (OptValue .code .flow) (FlowTail .code .sequence K) v') := by
  subst hs
  rw [then_flowEntry_key_code] at h
  rcases h with hn | ⟨x, y, he, hx, hy⟩
  · obtain ⟨t, u, he, ht⟩ := starts_then_node _ hn
    rcases hv.first with rfl | ⟨v', rfl⟩
    · exact absurd (List.mem_cons_of_mem _ ht) (hf.head t u he)
    · obtain ⟨rfl, -⟩ := List.cons.inj he
      simp [nodeFirst, contentFirst] at ht
  · simp only [List.mem_cons, List.not_mem_nil, or_false] at hx
    cases hv with
    | none =>
      obtain rfl : rest = x :: y := he
      rcases hx with rfl | rfl | rfl
      · exact absurd List.mem_cons_self (hf.head _ _ rfl)
      · exact Or.inr ⟨rfl, rfl, y, rfl, hy⟩
      · -- swallowing the end of a sequence leaves too few
        have h1 := hf.tight
        have h2 := hf.deficit.then (fun _ => OptValue.tally) y hy
        simp only [List.count_cons_self, ne_eq, reduceCtorEq, not_false_eq_true,
          List.count_cons_of_ne] at h1
        omega
    | @some _ u hu =>
      obtain ⟨rfl, rfl⟩ := List.cons.inj he
      cases hu with
      | none =>
        exact Or.inl ⟨.value rfl, hf.skip List.mem_cons_self (fun _ => OptValue.first) hy⟩
      | some hu =>
        obtain ⟨t, u, rfl, ht⟩ := hu.first
        have := (starts_then_optValue starts_flowTail).mem hy
        rcases List.mem_cons.mp this with rfl | hm
        · simp [nodeFirst, contentFirst] at ht
        · exact absurd (List.mem_cons_of_mem _ ht) (starts_flowTail_notMem _ t hm)

mutual

/-- A node as documented, at the head of a word that the code's reading allows, is the same node for
both. -/
theorem Node.common {K : Lang} {d : Nat} {rest : List TokenType} :
    ∀ {k : NodeKind} {w : List TokenType}, Node .documented k w →
    Follow (nodeFirst k) d K rest → Then (Node .code k) K (w ++ rest) → Node .common k w ∧ K rest
  | k, _, .alias _, hf, h => ⟨.alias k, then_node_alias.mp h⟩
  | k, _, .properties _ hp, hf, h => by
    have hne (t : TokenType) (v : List TokenType) (he : rest = t :: v) : t ≠ .anchor ∧ t ≠ .tag :=
      ⟨fun ha => hf.head t v he (by simp [ha, nodeFirst]),
        fun ha => hf.head t v he (by simp [ha, nodeFirst])⟩
    refine ⟨.properties k hp, (hf.properties hp hne h).resolve_left fun hc => ?_⟩
    obtain ⟨t, v, he, ht⟩ := starts_then_content rest hc
    exact hf.head t v he (by simp [nodeFirst, ht])
  | k, _, .content hc, hf, h => by
    obtain ⟨hc', hr⟩ := hc.common hf (hf.content hc h)
    exact ⟨.content hc', hr⟩
  | k, _, .propertiesContent hp hc, hf, h => by
    obtain ⟨hc', hr⟩ := hc.common hf (hf.propertiesContent hp hc h)
    exact ⟨.propertiesContent hp hc', hr⟩

theorem Content.common {K : Lang} {d : Nat} {rest : List TokenType} :
    ∀ {k : NodeKind} {w : List TokenType}, Content .documented k w →
    Follow (nodeFirst k) d K rest → Then (Content .code k) K (w ++ rest) →
    Content .common k w ∧ K rest
  | k, _, .scalar _, hf, h => ⟨.scalar k, then_content_scalar.mp h⟩
  | k, _, .flow (s := s) _ hw, hf, h => by
    rw [List.append_assoc, List.cons_append, then_content_flow] at h
    obtain ⟨hw', hr⟩ := hw.common hf.deficit hf.tight h
    exact ⟨.flow k hw', hr⟩
  | k, _, .blockSequence hk hw, hf, h => by
    rw [List.append_assoc, List.cons_append, then_content_blockSequence] at h
    have hf' := Follow.tok (t := .blockEnd) (F := nodeFirst .blockOrIndentless) (by simp) (by simp)
      (by simp [nodeFirst, contentFirst]) hf.deficit hf.tight
    obtain ⟨hw', hr⟩ := hw.common hf' h.2
    exact ⟨.blockSequence hk hw', by simpa using hr⟩
  | k, _, .blockMapping hk hw, hf, h => by
    rw [List.append_assoc, List.cons_append, then_content_blockMapping] at h
    have hf' := Follow.tok (t := .blockEnd) (F := .key :: .value :: nodeFirst .blockOrIndentless)
      (by simp) (by simp) (by simp [nodeFirst, contentFirst]) hf.deficit hf.tight
    obtain ⟨hw', hr⟩ := hw.common hf' h.2
    exact ⟨.blockMapping hk hw', by simpa using hr⟩
  | _, _, .indentless hu hv, hf, h => by
    have hbe := hf.not_starts (t := .blockEntry) (by simp [nodeFirst, contentFirst])
    rw [List.append_assoc, List.cons_append, then_content_blockEntry hbe,
      then_blockEntries_entry hbe] at h
    obtain ⟨hu', h⟩ := hu.common (hf.blockEntries hv) h
    obtain ⟨hv', hr⟩ := hv.common hf h
    exact ⟨.indentless hu' hv', hr⟩

theorem BlockEntries.common {K : Lang} {d : Nat} {rest : List TokenType} :
    ∀ {w : List TokenType}, BlockEntries .documented w →
    Follow (nodeFirst .blockOrIndentless) d K rest → Then (BlockEntries .code) K (w ++ rest) →
    BlockEntries .common w ∧ K rest
  | _, .nil, hf, h =>
    ⟨.nil, hf.skip (by simp [nodeFirst, contentFirst]) (fun _ => BlockEntries.first) h⟩
  | _, .cons hu hv, hf, h => by
    have hbe := hf.not_starts (t := .blockEntry) (by simp [nodeFirst, contentFirst])
    rw [List.append_assoc, List.cons_append, then_blockEntries_entry hbe] at h
    obtain ⟨hu', h⟩ := hu.common (hf.blockEntries hv) h
    obtain ⟨hv', hr⟩ := hv.common hf h
    exact ⟨.cons hu' hv', hr⟩

theorem BlockPairs.common {K : Lang} {d : Nat} {rest : List TokenType} :
    ∀ {w : List TokenType}, BlockPairs .documented w →
    Follow (.key :: .value :: nodeFirst .blockOrIndentless) d K rest →
    Then (BlockPairs .code) K (w ++ rest) → BlockPairs .common w ∧ K rest
  | _, .nil, hf, h => ⟨.nil, hf.skip (by simp) (fun _ => BlockPairs.first) h⟩
  | _, .cons hu hv hw, hf, h => by
    rw [List.append_assoc, List.append_assoc, List.cons_append,
      then_blockPairs_key (hf.not_starts (by simp))] at h
    have hf' := hf.blockPairs hw
    obtain ⟨hu', h⟩ := hu.common (hf'.optValue hv) h
    obtain ⟨hv', h⟩ := hv.common hf' h
    obtain ⟨hw', hr⟩ := hw.common hf h
    exact ⟨.cons hu' hv' hw', hr⟩

theorem OptNode.common {K : Lang} {d : Nat} {rest : List TokenType} :
    ∀ {k : NodeKind} {w : List TokenType}, OptNode .documented k w →
    Follow (nodeFirst k) d K rest → Then (OptNode .code k) K (w ++ rest) →
    OptNode .common k w ∧ K rest
  | k, _, .none _, hf, h => by
    refine ⟨.none k, (then_optNode_iff.mp h).resolve_right fun hn => ?_⟩
    obtain ⟨t, v, he, ht⟩ := starts_then_node _ hn
    exact hf.head t v he ht
  | k, _, .some hw, hf, h => by
    obtain ⟨hw', hr⟩ := hw.common hf (hf.optNode hw h)
    exact ⟨.some hw', hr⟩

theorem OptValue.common {K : Lang} {d : Nat} {rest : List TokenType} :
    ∀ {k : NodeKind} {w : List TokenType}, OptValue .documented k w →
    Follow (.value :: nodeFirst k) d K rest → Then (OptValue .code k) K (w ++ rest) →
    OptValue .common k w ∧ K rest
  | k, _, .none _, hf, h => ⟨.none k, hf.skip (by simp) (fun _ => OptValue.first) h⟩
  | k, _, .some hw, hf, h => by
    rw [List.cons_append, then_optValue_value (hf.not_starts (by simp))] at h
    obtain ⟨hw', hr⟩ := hw.common (hf.mono fun t ht => List.mem_cons_of_mem _ ht) h
    exact ⟨.some hw', hr⟩

theorem FlowEntries.common {K : Lang} {d : Nat} {rest : List TokenType} :
    ∀ {s : FlowKind} {w : List TokenType}, FlowEntries .documented s w → Deficit d K →
    rest.count .flowSequenceEnd = rest.count .flowSequenceStart + d →
    FlowRest .code s K (w ++ s.closing :: rest) → FlowEntries .common s w ∧ K rest
  | s, _, .nil _, hdef, ht, h => ⟨.nil s, flowRest_closing.mp h⟩
  | s, _, .last hu, hdef, ht, h => by
    rcases hu.common (Follow.closing hdef ht) (hu.then_of_flowRest h) with
      ⟨hu', hr⟩ | ⟨-, -, v, he, -⟩
    · exact ⟨.last hu', flowTail_closing.mp hr⟩
    · exact absurd (List.cons.inj he).1 (closing_ne_flowEntry s)
  | s, _, .cons hu hv, hdef, ht, h => by
    rw [List.append_assoc] at h
    rcases hu.common (Follow.flowEntry hdef ht hv) (hu.then_of_flowRest h) with
      ⟨hu', hr⟩ | ⟨hs, hw, v, he, hr⟩
    · obtain ⟨hv', hr⟩ := hv.common hdef ht (flowTail_flowEntry.mp hr)
      exact ⟨.cons hu' hv', hr⟩
    · exact FlowEntries.keyEntry_of hs hw hv ((List.cons.inj he).2 ▸ hr)
  | _, _, .keyEntry hr, _, _, _ => by cases hr

theorem FlowEntry.common {K : Lang} {d : Nat} {rest : List TokenType} :
    ∀ {s : FlowKind} {w : List TokenType}, FlowEntry .documented s w →
    Follow (.value :: nodeFirst .flow) (d + depth s) (FlowTail .code s K) rest →
    Then (FlowEntry .code s) (FlowTail .code s K) (w ++ rest) →
    (FlowEntry .common s w ∧ FlowTail .code s K rest) ∨
      (s = .sequence ∧ w = [.key] ∧ ∃ v, rest = .flowEntry :: v ∧
        Then (OptValue .code .flow) (FlowTail .code .sequence K) v)
  | s, _, .node hw, hf, h => by
    obtain ⟨hw', hr⟩ := hw.common (hf.mono fun t ht => List.mem_cons_of_mem _ ht) (hw.then_node h)
    exact Or.inl ⟨.node hw', hr⟩
  | s, _, .pair hu hv, hf, h => by
    rw [List.append_assoc, List.cons_append] at h
    have hf' := hf.optValue hv
    obtain ⟨hu', h⟩ := hu.common hf' (hf'.pair hu h)
    obtain ⟨hv', hr⟩ := hv.common hf h
    exact Or.inl ⟨.pair hu' hv', hr⟩
  | s, _, .bare _ hv, hf, h => by
    rcases s.eq_or with hs | hs
    · exact hf.bare_sequence hs hv h
    · obtain ⟨hv', hr⟩ := hv.common hf (hf.bare_mapping hs hv h)
      exact Or.inl ⟨.bare (Or.inl hs) hv', hr⟩
  | _, _, .swallow hr _ _, _, _ => by cases hr
  | _, _, .value hr, _, _ => by cases hr

end

/-! ## Documents and streams -/

theorem tally_replicate (n : Nat) : Tally r (List.replicate n .documentEnd) := by
  induction n with
  | zero => exact .nil
  | succ n ih => exact ih.cons (by simp) (by simp) (by simp)

theorem Documents.tally {w : List TokenType} (h : Documents r w) : Tally r w := by
  induction h with
  | nil => exact .nil
  | @cons ds u v n hds hu _ ih =>
    have hd : Tally r ds := by
      clear hu ih
      induction ds with
      | nil => exact .nil
      | cons t ds ih =>
        have := ih fun t ht => hds t (List.mem_cons_of_mem _ ht)
        rcases hds t List.mem_cons_self with rfl | rfl <;>
          exact this.cons (by simp) (by simp) (by simp)
    rw [List.append_assoc, List.append_assoc]
    refine hd.append (Tally.cons ?_ (by simp) (by simp) (by simp))
    exact hu.tally.append ((tally_replicate n).append ih)

/-- The end of the stream is the last token of a stream, and only the last. -/
theorem Stream.eq_append {w : List TokenType} (h : Stream r w) :
    ∃ v, w = v ++ [.streamEnd] ∧ Tally r v := by
  cases h with
  | explicit hd => exact ⟨_, rfl, hd.tally.cons (by simp) (by simp) (by simp)⟩
  | @implicit u v n hu hd =>
    exact ⟨_, rfl, ((hu.tally.append (tally_replicate n)).append hd.tally).cons (by simp) (by simp)
      (by simp)⟩

theorem deficit_streamRest : Deficit 0 (StreamRest .code) := by
  rintro w ⟨v, hv, rfl⟩
  have := hv.tally.le
  simpa using this

theorem deficit_documentRest : Deficit 0 (DocumentRest .code) := by
  rintro w ⟨n, v, hv, rfl⟩
  have := deficit_streamRest v hv
  have hn := (tally_replicate (r := .documented) n).eq rfl
  simp only [List.count_append]
  omega

theorem starts_documentRest : Starts [.documentEnd, .versionDirective, .tagDirective,
    .documentStart, .streamEnd] (DocumentRest r) := by
  rintro w ⟨_ | n, v, hv, rfl⟩
  · exact starts_streamRest.mono (fun t ht => List.mem_cons_of_mem _ ht) _ hv
  · exact ⟨_, _, rfl, by simp⟩

/-- What may follow the node of a document. -/
theorem Follow.document (n : Nat) {v : List TokenType} (hv : Documents .documented v) :
    Follow (nodeFirst .block) 0 (DocumentRest .code)
      (List.replicate n .documentEnd ++ (v ++ [.streamEnd])) := by
  have hdisj : ∀ t ∈ [TokenType.documentEnd, .versionDirective, .tagDirective, .documentStart,
      .streamEnd], t ∉ nodeFirst .block := by simp [nodeFirst, contentFirst]
  refine ⟨⟨_, starts_documentRest, hdisj⟩, deficit_documentRest, fun t u he => ?_, ?_⟩
  · have hrest : DocumentRest .documented (t :: u) := ⟨n, _, ⟨v, hv, rfl⟩, he.symm⟩
    exact hdisj t (starts_documentRest.mem hrest)
  · have h1 := hv.tally.eq rfl
    have h2 := (tally_replicate (r := .documented) n).eq rfl
    simp only [List.count_append, List.count_singleton]
    simp
    omega

theorem DocumentRest.streamRest (n : Nat) {v : List TokenType} (hv : Documents .documented v)
    (h : DocumentRest .code (List.replicate n .documentEnd ++ (v ++ [.streamEnd]))) :
    StreamRest .code (v ++ [.streamEnd]) := by
  rw [documentRest_iff] at h
  obtain ⟨t, u, he, ht⟩ := starts_streamRest _ ⟨v, hv, rfl⟩
  have hne : t ≠ .documentEnd := by
    rintro rfl
    simp at ht
  rw [he] at h ⊢
  rw [List.dropWhile_append_of_pos fun t ht => by simpa using List.eq_of_mem_replicate ht] at h
  simpa [hne] using h

theorem Documents.common {w : List TokenType} (h : Documents .documented w) :
    StreamRest .code (w ++ [.streamEnd]) → Documents .common w := by
  induction h with
  | nil => exact fun _ => .nil
  | @cons ds u v n hds hu hv ih =>
    intro hc
    have hw : ds ++ TokenType.documentStart :: u ++ List.replicate n .documentEnd ++ v ++
        [TokenType.streamEnd] = ds ++ TokenType.documentStart ::
        (u ++ (List.replicate n .documentEnd ++ (v ++ [.streamEnd]))) := by simp
    have hne (v' : List TokenType) : ds ++ TokenType.documentStart ::
        (u ++ (List.replicate n .documentEnd ++ (v ++ [.streamEnd]))) ≠ .streamEnd :: v' := by
      rcases ds with _ | ⟨d, ds⟩
      · simp
      · rcases hds d List.mem_cons_self with rfl | rfl <;> simp
    rw [hw, streamRest_iff hne,
      List.dropWhile_append_of_pos fun t ht => by simpa [isDirective] using hds t ht] at hc
    obtain ⟨v', he, hc⟩ := hc
    obtain rfl := (List.cons.inj he).2
    obtain ⟨hu', hc⟩ := hu.common (Follow.document n hv) hc
    exact .cons n hds hu' (ih (DocumentRest.streamRest n hv hc))

/-- Behind `STREAM-START` there is a document without a start marker, or none. -/
theorem Stream.behind {w : List TokenType} (h : Stream r (.streamStart :: w)) :
    StreamRest r w ∨ Then (Node r .block) (DocumentRest r) w := by
  generalize hw : TokenType.streamStart :: w = w' at h
  cases h with
  | explicit hd =>
    obtain rfl := (List.cons.inj hw).2
    exact Or.inl ⟨_, hd, rfl⟩
  | @implicit u v n hu hd =>
    obtain rfl := (List.cons.inj hw).2
    exact Or.inr ⟨u, _, hu, ⟨n, _, ⟨v, hd, rfl⟩, rfl⟩, by simp⟩

/-- A stream as documented that is one as the code reads it, too, is the same for both. -/
theorem Stream.common {w : List TokenType} (h : Stream .documented w) (hc : Stream .code w) :
    Stream .common w := by
  cases h with
  | @explicit v hd =>
    refine .explicit (hd.common (hc.behind.resolve_right fun hn => ?_))
    obtain ⟨t, u, he, ht⟩ := starts_streamRest _ ⟨v, hd, rfl⟩
    rw [List.append_eq, he] at hn
    have := starts_then_node.mem hn
    simp only [List.mem_cons, List.not_mem_nil, or_false] at ht
    rcases ht with rfl | rfl | rfl | rfl <;> simp [nodeFirst, contentFirst] at this
  | @implicit u v n hu hd =>
    have hn := hc.behind.resolve_left fun hs => by
      obtain ⟨t, u, rfl, ht⟩ := hu.first
      have := starts_streamRest.mem hs
      simp only [List.mem_cons, List.not_mem_nil, or_false] at this
      rcases this with rfl | rfl | rfl | rfl <;> simp [nodeFirst, contentFirst] at ht
    obtain ⟨hu', hr⟩ := hu.common (Follow.document n hd) (by simpa using hn)
    exact .implicit n hu' (hd.common (DocumentRest.streamRest n hd hr))

end Both

end TokenGrammar

end LibYaml
