import LibYaml.Loader
import LibYaml.Parser.EventOrder

/-!
# The indices in a loaded document

While a document is loaded, every index in it is that of a node but one: the value of the last pair
of an open mapping is 0 between its key and its value.  What is open is read off the events: `Due`
is the language of what completes a list of open collections, and each event the parser delivers
takes the loader from one such list to the next (`Growing`, `loadEvent_spec`).  Where the parser
ends a document nothing is open, so a document that a load returns is closed (`load_spec`).
-/

namespace LibYaml

/-- The parser as the source of events, with fuel for all the tokens there are. -/
instance : EventSource (Parser TokenList) where
  next p := Parser.parse (p.source.tokens.length + 1) p
  setError problem p := { p with error := some problem }
  streamStartProduced p := p.state ≠ .streamStart
  streamEndProduced p := p.streamEndProduced

namespace Loader

open Fallible EventGrammar Document

/-! ## What is open -/

/-- A document that awaits its root, a sequence, or a mapping that awaits a key or a value. -/
inductive Frame
  | root | items | key | value
deriving DecidableEq

/-- What completes a document in which the collections of the list are open, innermost first. -/
def Due : List Frame → List EventType → Prop
  | [] => fun w => ∃ v, StreamRest v ∧ w = .documentEnd :: v
  | .root :: fs => NodeThen (Due fs)
  | .items :: fs => SequenceRest (Due fs)
  | .key :: fs => MappingRest (Due fs)
  | .value :: fs => NodeThen (MappingRest (Due fs))

/-- One more node is a part of the innermost collection. -/
def attached : List Frame → List Frame
  | [] => []
  | .root :: fs => fs
  | .items :: fs => .items :: fs
  | .key :: fs => .value :: fs
  | .value :: fs => .key :: fs

def advance (fs : List Frame) : EventType → List Frame
  | .alias | .scalar => attached fs
  | .sequenceStart => .items :: attached fs
  | .mappingStart => .key :: attached fs
  | .sequenceEnd | .mappingEnd => fs.tail
  | _ => fs

/-- The events that may come inside a document. -/
def Allowed (fs : List Frame) : EventType → Prop
  | .alias | .scalar | .sequenceStart | .mappingStart => fs ≠ []
  | .sequenceEnd => ∃ rest, fs = .items :: rest
  | .mappingEnd => ∃ rest, fs = .key :: rest
  | .documentEnd => fs = []
  | _ => False

theorem due_nodeThen {fs : List Frame} {e : EventType} {w : List EventType} (hne : fs ≠ [])
    (h : NodeThen (Due (attached fs)) (e :: w)) :
    Allowed fs e ∧ (e = .documentEnd ∨ Due (advance fs e) w) := by
  rcases nodeThen_cons h with ⟨rfl | rfl, hw⟩ | ⟨rfl, hw⟩ | ⟨rfl, hw⟩
  · exact ⟨hne, Or.inr hw⟩
  · exact ⟨hne, Or.inr hw⟩
  · exact ⟨hne, Or.inr hw⟩
  · exact ⟨hne, Or.inr hw⟩

/-- An event takes what completes the open collections to what completes those that are open after
it. -/
theorem due_cons {fs : List Frame} {e : EventType} {w : List EventType} (h : Due fs (e :: w)) :
    Allowed fs e ∧ (e = .documentEnd ∨ Due (advance fs e) w) := by
  rcases fs with _ | ⟨_ | _ | _ | _, fs⟩
  · obtain ⟨v, -, he⟩ := h
    obtain ⟨rfl, rfl⟩ := List.cons.inj he
    exact ⟨rfl, Or.inl rfl⟩
  · exact due_nodeThen (by simp) h
  · rcases sequenceRest_cons h with ⟨rfl, hw⟩ | h
    · exact ⟨⟨fs, rfl⟩, Or.inr hw⟩
    · exact due_nodeThen (by simp) h
  · rcases mappingRest_cons h with ⟨rfl, hw⟩ | h
    · exact ⟨⟨fs, rfl⟩, Or.inr hw⟩
    · exact due_nodeThen (by simp) h
  · exact due_nodeThen (by simp) h

/-! ## Nodes -/

section Nodes

variable {d : Document} {i j : Nat} {node : Node}

def withNode (d : Document) (i : Nat) (node : Node) : Document :=
  { d with nodes := d.nodes.set (i - 1) node }

def pushed (d : Document) (node : Node) : Document := { d with nodes := d.nodes ++ [node] }

@[simp] theorem has_withNode : (withNode d i node).Has j ↔ d.Has j := by
  simp [Has, withNode]

theorem node?_withNode (hi : d.Has i) : (withNode d i node).node? i = some node := by
  obtain ⟨hpos, hle⟩ := hi
  have hlt : i - 1 < d.nodes.length := by omega
  simp [node?, withNode, show i ≠ 0 by omega, hlt]

theorem node?_withNode_ne (hi : d.Has i) (hij : i ≠ j) :
    (withNode d i node).node? j = d.node? j := by
  unfold node? withNode
  split
  · rfl
  · have := hi.1
    rw [List.getElem?_set_ne (by omega)]

theorem has_pushed (h : d.Has i) (node : Node) : (pushed d node).Has i := by
  refine ⟨h.1, ?_⟩
  have := h.2
  simp only [pushed, List.length_append, List.length_singleton]
  omega

theorem node?_pushed (h : d.Has i) : (pushed d node).node? i = d.node? i := by
  obtain ⟨hpos, hle⟩ := h
  rw [node?, node?, if_neg (by omega), if_neg (by omega), pushed,
    List.getElem?_append_left (by omega)]

theorem node?_pushed_self : (pushed d node).node? (d.nodes.length + 1) = some node := by
  simp [node?, pushed]

theorem has_of_node? (h : d.node? i = some node) : d.Has i := by
  unfold node? at h
  split at h
  · cases h
  · obtain ⟨hlt, -⟩ := List.getElem?_eq_some_iff.mp h
    exact ⟨by omega, by omega⟩

end Nodes

/-! ## The invariant -/

/-- The node of an open collection holds nodes only, but for the value that one still lacks. -/
def Shows (d : Document) (i : Nat) : Frame → Prop
  | .root => False
  | .items => ∃ node items style, d.node? i = some node ∧ node.data = .sequence items style ∧
      ∀ j ∈ items, d.Has j
  | .key => ∃ node pairs style, d.node? i = some node ∧ node.data = .mapping pairs style ∧
      ∀ p ∈ pairs, d.Has p.1 ∧ d.Has p.2
  | .value => ∃ node pairs key style, d.node? i = some node ∧
      node.data = .mapping (pairs ++ [(key, 0)]) style ∧
      (∀ p ∈ pairs, d.Has p.1 ∧ d.Has p.2) ∧ d.Has key

/-- The nodes of the open collections. -/
inductive OpenNodes (d : Document) : List Frame → List Nat → Prop
  | nil : OpenNodes d [] []
  | root : OpenNodes d [.root] []
  | cons {f : Frame} {fs : List Frame} {i : Nat} {ctx : List Nat} (hf : Shows d i f)
      (h : OpenNodes d fs ctx) : OpenNodes d (f :: fs) (i :: ctx)

structure Growing (fs : List Frame) (d : Document) (ctx : List Nat) (aliases : List AliasData) :
    Prop where
  openNodes : OpenNodes d fs ctx
  nodup : ctx.Nodup
  closed : ∀ i node, d.node? i = some node → i ∉ ctx → ∀ j ∈ node.data.children, d.Has j
  aliases : ∀ a ∈ aliases, d.Has a.index

section Invariant

variable {d d' : Document} {fs : List Frame} {f : Frame} {ctx : List Nat} {i j : Nat} {node : Node}
  {aliases : List AliasData}

theorem Shows.has (h : Shows d i f) : d.Has i := by
  cases f with
  | root => exact h.elim
  | items => obtain ⟨_, _, _, hn, -⟩ := h; exact has_of_node? hn
  | key => obtain ⟨_, _, _, hn, -⟩ := h; exact has_of_node? hn
  | value => obtain ⟨_, _, _, _, hn, -⟩ := h; exact has_of_node? hn

theorem Shows.mono (h : Shows d i f) (hhas : ∀ j, d.Has j → d'.Has j)
    (hnode : d'.node? i = d.node? i) : Shows d' i f := by
  cases f with
  | root => exact h
  | items =>
    obtain ⟨node, items, style, hn, hd, hall⟩ := h
    exact ⟨node, items, style, hnode.trans hn, hd, fun j hj => hhas j (hall j hj)⟩
  | key =>
    obtain ⟨node, pairs, style, hn, hd, hall⟩ := h
    exact ⟨node, pairs, style, hnode.trans hn, hd,
      fun p hp => ⟨hhas _ (hall p hp).1, hhas _ (hall p hp).2⟩⟩
  | value =>
    obtain ⟨node, pairs, key, style, hn, hd, hall, hkey⟩ := h
    exact ⟨node, pairs, key, style, hnode.trans hn, hd,
      fun p hp => ⟨hhas _ (hall p hp).1, hhas _ (hall p hp).2⟩, hhas key hkey⟩

theorem OpenNodes.has (h : OpenNodes d fs ctx) (hi : i ∈ ctx) : d.Has i := by
  induction h with
  | nil => cases hi
  | root => cases hi
  | cons hf _ ih =>
    rcases List.mem_cons.mp hi with rfl | hi
    · exact hf.has
    · exact ih hi

theorem OpenNodes.mono (h : OpenNodes d fs ctx) (hhas : ∀ j, d.Has j → d'.Has j)
    (hnode : ∀ i ∈ ctx, d'.node? i = d.node? i) : OpenNodes d' fs ctx := by
  induction h with
  | nil => exact .nil
  | root => exact .root
  | cons hf _ ih =>
    exact .cons (hf.mono hhas (hnode _ List.mem_cons_self))
      (ih fun i hi => hnode i (List.mem_cons_of_mem _ hi))

/-- Where nothing is open, the nodes refer to nodes. -/
theorem Growing.closed_nil (h : Growing [] d ctx aliases) : d.Closed := by
  obtain ⟨hopen, -, hclosed, -⟩ := h
  cases hopen
  intro node hn j hj
  obtain ⟨k, hk⟩ := List.mem_iff_getElem?.mp hn
  exact hclosed (k + 1) node (by simpa [node?] using hk) (by simp) j hj

theorem Growing.pushed (h : Growing fs d ctx aliases) (hn : node.data.children = []) :
    Growing fs (pushed d node) ctx aliases := by
  have hhas : ∀ j, d.Has j → (Loader.pushed d node).Has j := fun j hj => has_pushed hj node
  refine ⟨h.openNodes.mono hhas fun i hi => node?_pushed (h.openNodes.has hi), h.nodup,
    fun i n hi hctx j hj => ?_, fun a ha => hhas _ (h.aliases a ha)⟩
  have hi' := has_of_node? hi
  by_cases he : d.Has i
  · rw [node?_pushed he] at hi
    exact hhas j (h.closed i n hi hctx j hj)
  · -- the new node
    obtain rfl : i = d.nodes.length + 1 := by
      have hpos := hi'.1
      have hle := hi'.2
      simp only [Loader.pushed, List.length_append, List.length_singleton] at hle
      have : ¬i ≤ d.nodes.length := fun hle => he ⟨hpos, hle⟩
      omega
    rw [node?_pushed_self] at hi
    obtain rfl := Option.some.inj hi
    rw [hn] at hj
    cases hj

/-- The innermost open collection has changed. -/
theorem Growing.changed (h : Growing (f :: fs) d (i :: ctx) aliases) {f' : Frame}
    (hshows : Shows (withNode d i node) i f') :
    Growing (f' :: fs) (withNode d i node) (i :: ctx) aliases := by
  obtain ⟨hopen, hnodup, hclosed, halias⟩ := h
  rcases hopen with _ | _ | ⟨hf, hopen⟩
  have hi := hf.has
  have hhas : ∀ j, d.Has j → (withNode d i node).Has j := fun j hj => has_withNode.mpr hj
  obtain ⟨hni, -⟩ := List.nodup_cons.mp hnodup
  refine ⟨.cons hshows (hopen.mono hhas fun j hj => node?_withNode_ne hi ?_), hnodup,
    fun j n hj hctx k hk => ?_, fun a ha => hhas _ (halias a ha)⟩
  · rintro rfl
    exact hni hj
  · have hij : i ≠ j := fun he => hctx (he ▸ List.mem_cons_self)
    rw [node?_withNode_ne hi hij] at hj
    exact hhas k (hclosed j n hj hctx k hk)

/-- The innermost open collection is closed, with everything that it awaits. -/
theorem Growing.popped (h : Growing (f :: fs) d (i :: ctx) aliases)
    (hf : f = .items ∨ f = .key) : Growing fs d ctx aliases := by
  obtain ⟨hopen, hnodup, hclosed, halias⟩ := h
  rcases hopen with _ | _ | ⟨hshows, hopen⟩
  refine ⟨hopen, (List.nodup_cons.mp hnodup).2, fun j n hj hctx k hk => ?_, halias⟩
  by_cases he : j = i
  · subst he
    rcases hf with rfl | rfl
    · obtain ⟨node, items, style, hn, hd, hall⟩ := hshows
      obtain rfl := Option.some.inj (hn.symm.trans hj)
      rw [hd] at hk
      exact hall k hk
    · obtain ⟨node, pairs, style, hn, hd, hall⟩ := hshows
      obtain rfl := Option.some.inj (hn.symm.trans hj)
      simp only [hd, NodeData.children, List.mem_flatMap, List.mem_cons, List.not_mem_nil,
        or_false] at hk
      obtain ⟨p, hp, rfl | rfl⟩ := hk
      · exact (hall p hp).1
      · exact (hall p hp).2
  · exact hclosed j n hj (fun hmem => (List.mem_cons.mp hmem).elim he hctx) k hk

/-- A new collection is open, and it is not yet a part of what was open before. -/
theorem Growing.opened (h : Growing fs d ctx aliases) (hn : d.node? i = some node) (hi : i ∉ ctx)
    (hf : (∃ style, f = .items ∧ node.data = .sequence [] style) ∨
      ∃ style, f = .key ∧ node.data = .mapping [] style) : Growing (f :: fs) d (i :: ctx) aliases := by
  refine ⟨.cons ?_ h.openNodes, List.nodup_cons.mpr ⟨hi, h.nodup⟩, fun j n hj hctx => ?_, h.aliases⟩
  · rcases hf with ⟨style, rfl, hd⟩ | ⟨style, rfl, hd⟩
    · exact ⟨node, [], style, hn, hd, by simp⟩
    · exact ⟨node, [], style, hn, hd, by simp⟩
  · exact h.closed j n hj fun hmem => hctx (List.mem_cons_of_mem _ hmem)

end Invariant

/-! ## Events -/

section Events

variable {σ : Type} {fs : List Frame} {s : Loader σ} {i : Nat} {node : Node}

def Grows (fs : List Frame) (s : Loader σ) : Prop := Growing fs s.document s.ctx s.aliases

/-- The computation has recorded what it failed with. -/
def Reported (f : Fault) (_ : Loader σ) : Prop := ∃ problem, f = .reported problem

theorem checkStackLimit_spec (length : Nat) {P : Loader σ → Prop} :
    Holds P (checkStackLimit length) (fun _ => P) Reported := by
  unfold checkStackLimit
  exact .ite (fun _ => .pure fun _ h => h) fun _ => .throw fun _ _ => ⟨_, rfl⟩

theorem getNode_node? (h : s.document.node? i = some node) : getNode i s = .ok node s := by
  simp [getNode, h]

/-- The loader has attached a node to the innermost collection, and only that has changed. -/
structure Attached (fs : List Frame) (s t : Loader σ) : Prop where
  grows : Grows (attached fs) t
  ctx : t.ctx = s.ctx
  node? : ∀ j, s.document.Has j → j ∉ s.ctx → t.document.node? j = s.document.node? j

theorem setNode_changed {f f' : Frame} {ctx : List Nat} (h : Grows (f :: fs) s)
    (hc : s.ctx = i :: ctx) (hf : attached (f :: fs) = f' :: fs)
    (hshows : Shows (withNode s.document i node) i f') :
    ∃ t, setNode i node s = .ok () t ∧ Attached (f :: fs) s t := by
  unfold Grows at h
  rw [hc] at h
  refine ⟨_, rfl, ?_, rfl, fun j _ hj => node?_withNode_ne (has_withNode.mp hshows.has) ?_⟩
  · unfold Grows
    rw [hf]
    exact hc ▸ h.changed hshows
  · rintro rfl
    exact hj (hc ▸ List.mem_cons_self)

theorem awaitsValue_eq_false {d : Document} {pairs : List (Nat × Nat)}
    (h : ∀ p ∈ pairs, d.Has p.1 ∧ d.Has p.2) : awaitsValue pairs = false := by
  rcases List.eq_nil_or_concat pairs with rfl | ⟨rest, p, rfl⟩
  · rfl
  · rw [List.concat_eq_append] at h ⊢
    have hpos := (h p (by simp)).2.1
    rw [awaitsValue_append]
    simp only [decide_eq_false_iff_not]
    omega

theorem loadNodeAdd_spec (h : Grows fs s) (hi : s.document.Has i) :
    Holds (· = s) (loadNodeAdd i) (fun _ => Attached fs s) Reported := by
  rintro t rfl
  have hopen := h.openNodes
  generalize hc : t.ctx = ctx at hopen
  unfold loadNodeAdd
  rw [bind_of_ok (get_apply t), hc]
  rcases hopen with _ | _ | ⟨hf, hrest⟩
  · exact ⟨h, rfl, fun _ _ _ => rfl⟩
  · refine ⟨?_, rfl, fun _ _ _ => rfl⟩
    unfold Grows at h ⊢
    rw [hc] at h ⊢
    exact ⟨.nil, h.nodup, h.closed, h.aliases⟩
  rename_i f fs p ctx
  have hp : t.document.Has p := hf.has
  -- what a write of `data` does, if the node then shows `f'`
  have hset {node : Node} (f' : Frame) (hf' : attached (f :: fs) = f' :: fs)
      (hshows : Shows (withNode t.document p node) p f') :
      Holds (· = t) (setNode p node) (fun _ => Attached (f :: fs) t) Reported := by
    obtain ⟨u, hu, ha⟩ := setNode_changed h hc hf' hshows
    rintro _ rfl
    rw [hu]
    exact ha
  simp only []
  rcases f with _ | _ | _ | _
  · exact hf.elim
  · obtain ⟨node, items, style, hn, hd, hall⟩ := hf
    rw [bind_of_ok (getNode_node? hn)]
    simp only [hd]
    refine (checkStackLimit_spec items.length).bind (fun _ => ?_) t rfl
    rintro u rfl
    have hall' : ∀ j ∈ items ++ [i], t.document.Has j := by
      intro j hj
      rcases List.mem_append.mp hj with hj | hj
      · exact hall j hj
      · exact List.mem_singleton.mp hj ▸ hi
    exact hset .items rfl
      ⟨_, items ++ [i], style, node?_withNode hp, rfl, by simpa using hall'⟩ t rfl
  · obtain ⟨node, pairs, style, hn, hd, hall⟩ := hf
    have hawaits := awaitsValue_eq_false hall
    rw [bind_of_ok (getNode_node? hn)]
    simp only [hd, hawaits, addToPairs_of_not_awaits hawaits, Bool.false_eq_true, if_false]
    refine (checkStackLimit_spec pairs.length).bind (fun _ => ?_) t rfl
    rintro u rfl
    exact hset .value rfl
      ⟨_, pairs, i, style, node?_withNode hp, rfl, by simpa using hall, by simpa using hi⟩ t rfl
  · obtain ⟨node, pairs, key, style, hn, hd, hall, hkey⟩ := hf
    have hne : key ≠ 0 := Nat.ne_of_gt hkey.1
    have hawaits : awaitsValue (pairs ++ [(key, 0)]) = true := by simp [awaitsValue_append, hne]
    have hadd : addToPairs (pairs ++ [(key, 0)]) i = pairs ++ [(key, i)] := by
      simp [addToPairs, hne]
    rw [bind_of_ok (getNode_node? hn)]
    simp only [hd, hawaits, hadd, if_true]
    have hall' : ∀ q ∈ pairs ++ [(key, i)], t.document.Has q.1 ∧ t.document.Has q.2 := by
      intro q hq
      rcases List.mem_append.mp hq with hq | hq
      · exact hall q hq
      · obtain rfl := List.mem_singleton.mp hq
        exact ⟨hkey, hi⟩
    exact hset .key rfl
      ⟨_, pairs ++ [(key, i)], style, node?_withNode hp, rfl, by simpa using hall'⟩ t rfl

theorem find_has {anchor : Bytes} {a : AliasData} (h : Grows fs s)
    (ha : (s.aliases.find? fun d => cstr d.anchor = cstr anchor) = some a) :
    s.document.Has a.index :=
  h.aliases a (List.mem_of_find?_eq_some ha)

/-- The node at `i` is not part of anything yet. -/
structure Loose (fs : List Frame) (i : Nat) (node : Node) (s : Loader σ) : Prop where
  grows : Grows fs s
  node? : s.document.node? i = some node
  notMem : i ∉ s.ctx

theorem pushNode_spec (h : node.data.children = []) :
    Holds (Grows (σ := σ) fs) (pushNode node) (fun i => Loose fs i node) Reported := by
  intro s hs
  refine ⟨hs.pushed h, node?_pushed_self, fun hmem => ?_⟩
  have := (hs.openNodes.has hmem).2
  omega

theorem registerAnchor_spec (anchor : Option Bytes) :
    Holds (Loose (σ := σ) fs i node) (registerAnchor i anchor) (fun _ => Loose fs i node)
      Reported := by
  cases anchor with
  | none => exact .pure fun _ h => h
  | some anchor =>
    intro s hs
    rw [registerAnchor, bind_of_ok (getNode_node? hs.node?), bind_of_ok (get_apply s)]
    rcases ha : s.aliases.find? fun d => cstr d.anchor = cstr anchor with _ | a <;> simp only [ha]
    · obtain ⟨⟨hopen, hnodup, hclosed, haliases⟩, hn, hi⟩ := hs
      refine ⟨⟨hopen, hnodup, hclosed, fun a ha => ?_⟩, hn, hi⟩
      rcases List.mem_append.mp ha with ha | ha
      · exact haliases a ha
      · rw [List.mem_singleton.mp ha]
        exact has_of_node? hn
    · exact ⟨_, rfl⟩

theorem addNode_spec (anchor : Option Bytes) (h : node.data.children = []) :
    Holds (Grows (σ := σ) fs) (addNode anchor node) (fun i => Loose (attached fs) i node)
      Reported := by
  unfold addNode
  refine Holds.bind (.get (Q := fun _ => Grows fs) fun _ hs => hs) fun s => ?_
  refine (checkStackLimit_spec _).bind fun _ => ?_
  refine (pushNode_spec h).bind fun i => ?_
  refine (registerAnchor_spec anchor).bind fun _ => ?_
  intro t ht
  refine Holds.bind (loadNodeAdd_spec ht.grows (has_of_node? ht.node?)) (fun _ => ?_) t rfl
  refine .pure fun u hu => ⟨hu.grows, ?_, hu.ctx ▸ ht.notMem⟩
  rw [hu.node? i (has_of_node? ht.node?) ht.notMem, ht.node?]

theorem pushContext_spec {f : Frame} (hf : (∃ style, f = .items ∧ node.data = .sequence [] style) ∨
      ∃ style, f = .key ∧ node.data = .mapping [] style) :
    Holds (Loose (σ := σ) fs i node) (pushContext i) (fun _ => Grows (f :: fs)) Reported := by
  unfold pushContext
  refine Holds.bind (.get (Q := fun _ => Loose fs i node) fun _ hs => hs) fun s => ?_
  refine (checkStackLimit_spec _).bind fun _ => ?_
  exact .modify fun t ht => ht.grows.opened ht.node? ht.notMem hf

theorem closeContext_spec {f : Frame} (kind : NodeData → Bool) (endMark : Mark)
    (hf : f = .items ∧ kind = isSequence ∨ f = .key ∧ kind = isMapping) :
    Holds (Grows (σ := σ) (f :: fs)) (closeContext kind endMark) (fun _ => Grows fs) Reported := by
  intro s hs
  have hopen := hs.openNodes
  generalize hc : s.ctx = ctx at hopen
  unfold closeContext
  rw [bind_of_ok (get_apply s), hc]
  rcases hopen with _ | _ | ⟨hshows, -⟩
  · simp at hf
  rename_i p ctx
  have hp : s.document.Has p := hshows.has
  unfold Grows at hs
  rw [hc] at hs
  simp only []
  rcases hf with ⟨rfl, rfl⟩ | ⟨rfl, rfl⟩
  · obtain ⟨node, items, style, hn, hd, hall⟩ := hshows
    have hkind : isSequence node.data = true := by rw [hd]; rfl
    have hshows' : Shows (withNode s.document p { node with endMark := endMark }) p .items :=
      ⟨_, items, style, node?_withNode hp, hd, by simpa using hall⟩
    rw [bind_of_ok (getNode_node? hn), if_pos hkind]
    exact (hs.changed hshows').popped (Or.inl rfl)
  · obtain ⟨node, pairs, style, hn, hd, hall⟩ := hshows
    have hkind : isMapping node.data = true := by rw [hd]; rfl
    have hshows' : Shows (withNode s.document p { node with endMark := endMark }) p .key :=
      ⟨_, pairs, style, node?_withNode hp, hd, by simpa using hall⟩
    rw [bind_of_ok (getNode_node? hn), if_pos hkind]
    exact (hs.changed hshows').popped (Or.inr rfl)

theorem loadAlias_spec (anchor : Bytes) (startMark : Mark) :
    Holds (Grows (σ := σ) fs) (loadAlias anchor startMark) (fun _ => Grows (attached fs))
      Reported := by
  intro s hs
  unfold loadAlias
  rw [bind_of_ok (get_apply s)]
  rcases ha : s.aliases.find? fun d => cstr d.anchor = cstr anchor with _ | a <;> simp only [ha]
  · exact ⟨_, rfl⟩
  · exact (loadNodeAdd_spec hs (find_has hs ha)).weaken (fun _ h => h) (fun _ _ h => h.grows)
      (fun _ _ h => h) s rfl

/-- An event that may come takes the loader to what is open after it. -/
theorem loadEvent_spec {e : Event} (h : Allowed fs e.type) (he : e.type ≠ .documentEnd) :
    Holds (Grows (σ := σ) fs) (loadEvent e) (fun _ => Grows (advance fs e.type)) Reported := by
  obtain ⟨data, startMark, endMark⟩ := e
  unfold loadEvent
  cases data with
  | noEvent | streamStart | streamEnd | documentStart => exact h.elim
  | documentEnd => exact absurd rfl he
  | «alias» anchor => exact loadAlias_spec anchor startMark
  | scalar => exact (addNode_spec _ rfl).bind fun _ => .pure fun _ hs => hs.grows
  | sequenceStart =>
    exact (addNode_spec _ rfl).bind fun _ => pushContext_spec (Or.inl ⟨_, rfl, rfl⟩)
  | mappingStart =>
    exact (addNode_spec _ rfl).bind fun _ => pushContext_spec (Or.inr ⟨_, rfl, rfl⟩)
  | sequenceEnd =>
    obtain ⟨rest, rfl⟩ := h
    exact closeContext_spec _ _ (Or.inl ⟨rfl, rfl⟩)
  | mappingEnd =>
    obtain ⟨rest, rfl⟩ := h
    exact closeContext_spec _ _ (Or.inr ⟨rfl, rfl⟩)

/-- What is loaded leaves the parser alone. -/
abbrev Apart {σ α : Type} (x : LoadM σ α) : Prop := Keeps Loader.source (fun _ => True) x

theorem apart_checkStackLimit (length : Nat) : Apart (checkStackLimit (σ := σ) length) :=
  .ite .pure (.throw trivial)

theorem apart_getNode (i : Nat) : Apart (getNode (σ := σ) i) := by
  intro p s hs
  rcases hn : s.document.node? i with _ | node
  · simp [getNode, hn, hs]
  · simp [getNode, hn, hs]

theorem apart_setNode (i : Nat) (node : Node) : Apart (setNode (σ := σ) i node) :=
  .modify fun _ => rfl

theorem apart_pushNode (node : Node) : Apart (pushNode (σ := σ) node) := fun _ _ hs => hs

theorem apart_registerAnchor (i : Nat) (anchor : Option Bytes) :
    Apart (registerAnchor (σ := σ) i anchor) := by
  unfold registerAnchor
  split
  · exact .pure
  · refine .bind (apart_getNode i) fun node => .bind .get fun s => ?_
    split
    · exact .throw trivial
    · exact .modify fun _ => rfl

theorem apart_loadNodeAdd (i : Nat) : Apart (loadNodeAdd (σ := σ) i) := by
  unfold loadNodeAdd
  refine .bind .get fun s => ?_
  split
  · exact .pure
  · refine .bind (apart_getNode _) fun parent => ?_
    split
    · exact .throw trivial
    · exact .bind (apart_checkStackLimit _) fun _ => apart_setNode _ _
    · split
      · exact apart_setNode _ _
      · exact .bind (apart_checkStackLimit _) fun _ => apart_setNode _ _

theorem apart_addNode (anchor : Option Bytes) (node : Node) :
    Apart (addNode (σ := σ) anchor node) :=
  .bind .get fun _ => .bind (apart_checkStackLimit _) fun _ => .bind (apart_pushNode node) fun _ =>
    .bind (apart_registerAnchor _ _) fun _ => .bind (apart_loadNodeAdd _) fun _ => .pure

theorem apart_pushContext (i : Nat) : Apart (pushContext (σ := σ) i) :=
  .bind .get fun _ => .bind (apart_checkStackLimit _) fun _ => .modify fun _ => rfl

theorem apart_closeContext (kind : NodeData → Bool) (endMark : Mark) :
    Apart (closeContext (σ := σ) kind endMark) := by
  unfold closeContext
  refine .bind .get fun s => ?_
  split
  · exact .throw trivial
  · refine .bind (apart_getNode _) fun node => .ite ?_ (.throw trivial)
    exact .bind (apart_setNode _ _) fun _ => .modify fun _ => rfl

theorem apart_loadEvent (e : Event) : Apart (loadEvent (σ := σ) e) := by
  unfold loadEvent
  split
  · refine .bind .get fun s => ?_
    split
    · exact apart_loadNodeAdd _
    · exact .throw trivial
  · exact .bind (apart_addNode _ _) fun _ => .pure
  · exact .bind (apart_addNode _ _) fun _ => apart_pushContext _
  · exact apart_closeContext _ _
  · exact .bind (apart_addNode _ _) fun _ => apart_pushContext _
  · exact apart_closeContext _ _
  · exact .throw trivial

end Events

/-! ## Loads -/

section Loads

/-- What may follow the parser. -/
def Rest (p : Parser TokenList) : List EventType → Prop := After p.state (Follows p.states)

/-- The parser is where a load may begin. -/
def Between (p : Parser TokenList) : Prop :=
  Parser.Stopped p ∨ Parser.WellFormed p.state p.states p.marks ∧
    (p.state = .streamStart ∨ ∀ w, Rest p w → StreamRest w ∨ w = [])

structure Inside (fs : List Frame) (s : Loader (Parser TokenList)) : Prop where
  grows : Grows fs s
  wellFormed : Parser.WellFormed s.source.state s.source.states s.source.marks
  due : ∀ w, Rest s.source w → Due fs w

/-- Every index that was looked at was that of a node, and the parser has recorded an error where
the loader has not. -/
def Ends (f : Fault) (s : Loader (Parser TokenList)) : Prop :=
  f ≠ .undefined ∧ (f = .silent → Parser.Stopped s.source)

theorem next_spec {s : Loader (Parser TokenList)}
    (h : Parser.WellFormed s.source.state s.source.states s.source.marks) :
    (Parser.Stopped s.source ∧ next s = .ok Event.empty s) ∨
      (∃ e p, next s = .ok e { s with source := p } ∧ e.type ≠ .noEvent ∧
        Parser.WellFormed p.state p.states p.marks ∧ ∀ w, Rest p w → Rest s.source (e.type :: w)) ∨
      ∃ problem p, next s = .error (.reported problem) { s with source := p } ∧ Parser.Stopped p := by
  have hr : Parser.Running (s.source.source.tokens.length + 1) s.source := ⟨h, Nat.lt_succ_self _⟩
  rcases Parser.parse_spec hr with ⟨hs, hp⟩ | ⟨e, p, hp, he, hr', hk⟩ | ⟨problem, p, hp, hs⟩
  · exact Or.inl ⟨hs, by simp only [next, EventSource.next, hp]⟩
  · exact Or.inr (Or.inl ⟨e, p, by simp only [next, EventSource.next, hp], he, hr'.wellFormed, hk⟩)
  · exact Or.inr (Or.inr ⟨problem, p, by simp only [next, EventSource.next, hp], hs⟩)

theorem next_stopped {s : Loader (Parser TokenList)} (h : Parser.Stopped s.source) :
    next s = .ok Event.empty s := by
  simp only [next, EventSource.next, Parser.parse_stopped h]

theorem exists_rest {p : Parser TokenList} (h : Parser.WellFormed p.state p.states p.marks) :
    ∃ w, Rest p w :=
  h.exists_after

/-- Where the parser delivers nothing more, loading comes to no end of the document. -/
theorem loadNodes_stopped : ∀ (fuel : Nat), Holds (fun s : Loader (Parser TokenList) =>
    Parser.Stopped s.source) (loadNodes fuel) (fun _ _ => False) Ends
  | 0 => .throw fun _ _ => ⟨by simp, by simp⟩
  | fuel + 1 => by
    intro s hs
    rw [loadNodes, bind_of_ok (next_stopped hs)]
    exact ⟨by simp, fun _ => hs⟩

theorem loadNodes_event {σ : Type} [EventSource σ] {fuel : Nat} {e : Event} {s t : Loader σ}
    (h : next s = .ok e t) (he : e.type ≠ .documentEnd) :
    loadNodes (fuel + 1) s = (loadEvent e >>= fun _ => loadNodes fuel) t := by
  obtain ⟨data, startMark, endMark⟩ := e
  rw [loadNodes, bind_of_ok h]
  cases data with
  | documentEnd => exact absurd rfl he
  | _ => rfl

theorem loadNodes_spec : ∀ (fuel : Nat) (fs : List Frame), Holds (Inside fs) (loadNodes fuel)
    (fun _ s => s.document.Closed ∧ Between s.source) Ends
  | 0, _ => .throw fun _ _ => ⟨by simp, by simp⟩
  | fuel + 1, fs => by
    intro s hs
    rcases next_spec hs.wellFormed with ⟨hstop, -⟩ | ⟨e, p, hn, he, hw, hk⟩ | ⟨problem, p, hn, hp⟩
    · have h := loadNodes_stopped (fuel + 1) s hstop
      rcases hl : loadNodes (fuel + 1) s with ⟨_, t⟩ | ⟨f, t⟩
      · rw [hl] at h
        exact h.elim
      · rw [hl] at h
        exact h
    · have hdue (w : List EventType) (hr : Rest p w) :=
        due_cons (hs.due (e.type :: w) (hk w hr))
      obtain ⟨w₀, hw₀⟩ := exists_rest hw
      by_cases hend : e.type = .documentEnd
      · -- nothing is open any more
        obtain rfl : fs = [] := by
          have h := (hdue w₀ hw₀).1
          rwa [hend] at h
        have hbetween : Between p := by
          refine Or.inr ⟨hw, Or.inr fun w hr => Or.inl ?_⟩
          obtain ⟨v, hv, hcons⟩ := hs.due (e.type :: w) (hk w hr)
          exact (List.cons.inj hcons).2 ▸ hv
        obtain ⟨data, startMark, endMark⟩ := e
        rw [loadNodes, bind_of_ok hn]
        cases data with
        | documentEnd => exact ⟨hs.grows.closed_nil, hbetween⟩
        | _ => simp [Event.type, EventData.type] at hend
      · rw [loadNodes_event hn hend]
        have hadv : ∀ w, Rest p w → Due (advance fs e.type) w :=
          fun w hr => (hdue w hr).2.resolve_left hend
        have hevent := loadEvent_spec (hdue w₀ hw₀).1 hend { s with source := p } hs.grows
        have hsource := apart_loadEvent e p { s with source := p } rfl
        rw [bind_apply]
        rcases hl : loadEvent e { s with source := p } with ⟨_, t⟩ | ⟨f, t⟩ <;>
          rw [hl] at hevent hsource
        · obtain rfl : t.source = p := hsource
          exact loadNodes_spec fuel _ t ⟨hevent, hw, hadv⟩
        · obtain ⟨problem, rfl⟩ := hevent
          exact ⟨by simp, by simp⟩
    · rw [loadNodes, bind_of_error hn]
      exact ⟨by simp, by simp⟩

theorem streamRest_or_nil {p q : Parser TokenList} {e : EventType}
    (h : ∀ w, Rest p w → StreamRest w ∨ w = []) (hq : Parser.WellFormed q.state q.states q.marks)
    (hk : ∀ w, Rest q w → Rest p (e :: w)) :
    e = .streamEnd ∧ (∀ w, Rest q w → w = []) ∨ e = .documentStart ∧ ∀ w, Rest q w → Due [.root] w := by
  have hcases (w : List EventType) (hw : Rest q w) : e = .streamEnd ∧ w = [] ∨
      e = .documentStart ∧ Due [.root] w :=
    streamRest_cons ((h _ (hk w hw)).resolve_right (by simp))
  obtain ⟨w₀, hw₀⟩ := exists_rest hq
  rcases hcases w₀ hw₀ with ⟨rfl, -⟩ | ⟨rfl, -⟩
  · exact Or.inl ⟨rfl, fun w hw => ((hcases w hw).resolve_right (by simp)).2⟩
  · exact Or.inr ⟨rfl, fun w hw => ((hcases w hw).resolve_left (by simp)).2⟩

/-- A load of an event that the parser delivers between two documents. -/
theorem loadDocument_spec (fuel : Nat) {e : Event} (he : e.type = .documentStart) :
    Holds (fun s : Loader (Parser TokenList) => s.document = {} ∧ s.aliases = [] ∧
        Parser.WellFormed s.source.state s.source.states s.source.marks ∧
        ∀ w, Rest s.source w → Due [.root] w)
      (loadDocument fuel e) (fun _ s => s.document.Closed ∧ Between s.source) Ends := by
  rintro s ⟨hd, ha, hw, hdue⟩
  obtain ⟨data, startMark, endMark⟩ := e
  unfold loadDocument
  cases data with
  | documentStart =>
    refine loadNodes_spec fuel [.root] _ ⟨⟨.root, List.nodup_nil, fun i node hn => ?_, ?_⟩, hw, hdue⟩
    · simp [node?, hd] at hn
    · simp [ha]
  | _ => simp [Event.type, EventData.type] at he

theorem loadDocument_stopped (fuel : Nat) : Holds (fun s : Loader (Parser TokenList) =>
    Parser.Stopped s.source) (loadDocument fuel Event.empty) (fun _ _ => False) Ends :=
  fun s hs => loadNodes_stopped fuel { s with ctx := [] } hs

/-- What follows the start of the stream in a load. -/
def loadNext (fuel : Nat) : LoadM (Parser TokenList) Unit := do
  let s ← get
  if EventSource.streamEndProduced s.source then pure ()
  else do
    let event ← next
    if event.type = .streamEnd then pure ()
    else do
      modify fun s => { s with aliases := [] }
      loadDocument fuel event
      modify fun s => { s with aliases := [] }

/-- The parser has delivered nothing, the end of the stream or the start of a document. -/
def Fetched (e : Event) (s : Loader (Parser TokenList)) : Prop :=
  s.document = {} ∧
    (e = Event.empty ∧ Parser.Stopped s.source ∨
      e.type = .streamEnd ∧ Between s.source ∨
      e.type = .documentStart ∧ Parser.WellFormed s.source.state s.source.states s.source.marks ∧
        ∀ w, Rest s.source w → Due [.root] w)

/-- The stream has begun, or it never will. -/
def Begun (s : Loader (Parser TokenList)) : Prop :=
  s.document = {} ∧
    (Parser.Stopped s.source ∨
      Parser.WellFormed s.source.state s.source.states s.source.marks ∧
        ∀ w, Rest s.source w → StreamRest w ∨ w = [])

/-- A closed document, and the parser is where the next load may begin. -/
def Loaded (s : Loader (Parser TokenList)) : Prop := s.document.Closed ∧ Between s.source

theorem Begun.ready {s : Loader (Parser TokenList)} (h : Begun s) : Loaded s := by
  obtain ⟨hd, hs⟩ := h
  refine ⟨hd ▸ ?_, hs.imp id fun h => ⟨h.1, Or.inr h.2⟩⟩
  simp [Closed]

theorem next_begun : Holds Begun next Fetched Ends := by
  rintro s ⟨hd, hs⟩
  rcases hs with hs | ⟨hw, hrest⟩
  · rw [next_stopped hs]
    exact ⟨hd, Or.inl ⟨rfl, hs⟩⟩
  rcases next_spec hw with ⟨hs, hn⟩ | ⟨e, p, hn, -, hw', hk⟩ | ⟨problem, p, hn, hp⟩
  · rw [hn]
    exact ⟨hd, Or.inl ⟨rfl, hs⟩⟩
  · rw [hn]
    rcases streamRest_or_nil hrest hw' hk with ⟨he, hnil⟩ | ⟨he, hdue⟩
    · exact ⟨hd, Or.inr (Or.inl ⟨he, Or.inr ⟨hw', Or.inr fun w hw => Or.inr (hnil w hw)⟩⟩)⟩
    · exact ⟨hd, Or.inr (Or.inr ⟨he, hw', hdue⟩)⟩
  · rw [hn]
    exact ⟨by simp, by simp⟩

theorem loadDocument_fetched (fuel : Nat) {e : Event} (he : e.type ≠ .streamEnd) :
    Holds (fun s => Fetched e s ∧ s.aliases = []) (loadDocument fuel e) (fun _ => Loaded) Ends := by
  rintro s ⟨⟨hd, ⟨rfl, hs⟩ | ⟨h, -⟩ | ⟨h, hw, hdue⟩⟩, ha⟩
  · have h := loadDocument_stopped fuel s hs
    rcases hl : loadDocument fuel Event.empty s with ⟨_, t⟩ | ⟨f, t⟩ <;> rw [hl] at h
    · exact h.elim
    · exact h
  · exact absurd h he
  · exact loadDocument_spec fuel h s ⟨hd, ha, hw, hdue⟩

theorem loadNext_spec (fuel : Nat) : Holds Begun (loadNext fuel) (fun _ => Loaded) Ends := by
  unfold loadNext
  refine Holds.bind (.get (Q := fun _ => Begun) fun _ h => h) fun s => .ite (fun _ => ?_) fun _ => ?_
  · exact .pure fun _ h => h.ready
  refine next_begun.bind fun e => .ite (fun he => ?_) fun he => ?_
  · refine .pure fun s hs => ?_
    obtain ⟨hd, ⟨rfl, -⟩ | ⟨-, hb⟩ | ⟨h, -⟩⟩ := hs
    · cases he
    · exact ⟨by simp [hd, Closed], hb⟩
    · rw [h] at he
      cases he
  refine Holds.bind (.modify (Q := fun _ s => Fetched e s ∧ s.aliases = []) fun s h => ⟨h, rfl⟩)
    fun _ => (loadDocument_fetched fuel he).bind fun _ => .modify fun s h => h

theorem next_streamStart : Holds (fun s : Loader (Parser TokenList) =>
      s.document = {} ∧ Between s.source ∧ s.source.state = .streamStart)
    next (fun _ => Begun) Ends := by
  rintro s ⟨hd, hb | ⟨hw, -⟩, hstate⟩
  · rw [next_stopped hb]
    exact ⟨hd, Or.inl hb⟩
  rcases next_spec hw with ⟨hs, hn⟩ | ⟨e, p, hn, -, hw', hk⟩ | ⟨problem, p, hn, hp⟩
  · rw [hn]
    exact ⟨hd, Or.inl hs⟩
  · rw [hn]
    refine ⟨hd, Or.inr ⟨hw', fun w hw => Or.inl ?_⟩⟩
    have h : Rest s.source (e.type :: w) := hk w hw
    unfold Rest at h
    rw [hstate] at h
    exact (stream_cons h).2
  · rw [hn]
    exact ⟨by simp, by simp⟩

theorem loadStream_spec (fuel : Nat) : Holds (fun s => Between s.source) (loadStream fuel)
    (fun _ => Loaded) Ends := by
  refine Holds.bind (.modify (Q := fun _ s => s.document = {} ∧ Between s.source)
    fun s h => ⟨rfl, h⟩) fun _ => ?_
  refine Holds.bind (.get (Q := fun a s => a = s ∧ s.document = {} ∧ Between s.source)
    fun s h => ⟨rfl, h⟩) fun s => .ite (fun hstart => ?_) fun hstart => ?_
  · rintro _ ⟨rfl, hd, hb⟩
    have hne : s.source.state ≠ .streamStart := by simpa [EventSource.streamStartProduced] using hstart
    exact loadNext_spec fuel s
      ⟨hd, hb.imp id fun h => ⟨h.1, h.2.resolve_left hne⟩⟩
  · rintro _ ⟨rfl, hd, hb⟩
    have he : s.source.state = .streamStart := by simpa [EventSource.streamStartProduced] using hstart
    exact (next_streamStart.bind fun _ => loadNext_spec fuel) s ⟨hd, hb, he⟩

/-- A load either ends where the next may begin, with a closed document if it succeeds, or was cut
off for want of fuel. -/
theorem load_spec (fuel : Nat) : Holds (fun s : Loader (Parser TokenList) => Between s.source)
    (load fuel) (fun _ => Loaded)
    (fun f s => f ≠ .undefined ∧ (f ≠ .outOfFuel → Between s.source)) := by
  intro s hs
  have h := loadStream_spec fuel s hs
  unfold load
  rcases hl : loadStream fuel s with ⟨_, t⟩ | ⟨f, t⟩ <;> rw [hl] at h
  · exact h
  · refine ⟨h.1, fun hf => ?_⟩
    cases f with
    | reported problem => exact Or.inl (Or.inr (Or.inl rfl))
    | silent => exact Or.inl (h.2 rfl)
    | undefined => exact absurd rfl h.1
    | outOfFuel => exact absurd rfl hf

/-- The states that loads lead to from a fresh parser; a load that was cut off leads nowhere. -/
inductive Reached (tokens : List Token) (failure : Problem) : Loader (Parser TokenList) → Prop
  | fresh : Reached tokens failure { source := Parser.init ⟨tokens, failure⟩ }
  | loaded {fuel : Nat} {s t : Loader (Parser TokenList)} :
      Reached tokens failure s → load fuel s = .ok () t → Reached tokens failure t
  | failed {fuel : Nat} {s t : Loader (Parser TokenList)} {f : Fault} :
      Reached tokens failure s → load fuel s = .error f t → f ≠ .outOfFuel →
      Reached tokens failure t

theorem reached_between {tokens : List Token} {failure : Problem} {s : Loader (Parser TokenList)}
    (h : Reached tokens failure s) : Between s.source := by
  induction h with
  | fresh => exact Or.inr ⟨Or.inl ⟨by simp [Parser.init, Parser.outer], rfl, rfl⟩, Or.inl rfl⟩
  | loaded _ hl ih => exact ((load_spec _).ok ih hl).2
  | failed _ hl hf ih => exact ((load_spec _).error ih hl).2 hf

end Loads

end Loader

end LibYaml
