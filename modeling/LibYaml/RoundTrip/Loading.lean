import LibYaml.Loader
import LibYaml.RoundTrip.Dumping

/-!
# Loading a dump

What the loader makes of the events of a walk: it appends a node for each step into one, in the
order of the walk, with what the node refers to replaced by the positions in that order, and it
makes the nodes the walk starts from a part of the innermost open collection (`feeds_walk`).
-/

namespace LibYaml

namespace Loader

open Fallible DepthFirst Dumper

variable {σ : Type} {S : Loader σ} {d : Document} {A : Nat → Nat}
  {order seen seen' as ctx : List Nat} {nodes : List Node} {i n : Nat}

/-! ## Single events -/

def withNodes (S : Loader σ) (nodes : List Node) : Loader σ :=
  { S with document := { S.document with nodes := nodes } }

def addChild (index : Nat) (node : Node) : Node :=
  match node.data with
  | .scalar _ _ => node
  | .sequence items style => { node with data := .sequence (items ++ [index]) style }
  | .mapping pairs style => { node with data := .mapping (addToPairs pairs index) style }

/-- The nodes once the innermost open collection, if there is one, has one more part. -/
def attach (ctx : List Nat) (nodes : List Node) (index : Nat) : List Node :=
  match ctx with
  | [] => nodes
  | p :: _ => nodes.modify (p - 1) (addChild index)

/-- A collection can take `n` more parts. -/
def Room (n : Nat) : NodeData → Prop
  | .scalar _ _ => False
  | .sequence items _ => items.length + n ≤ stackLimit
  | .mapping pairs _ =>
    2 * pairs.length + n ≤ 2 * stackLimit + if awaitsValue pairs then 1 else 0

def Ready (ctx : List Nat) (nodes : List Node) (n : Nat) : Prop :=
  ∀ p rest, ctx = p :: rest → 0 < p ∧ ∃ node, nodes[p - 1]? = some node ∧ Room n node.data

theorem Room.mono {data : NodeData} {m : Nat} (h : Room n data) (hm : m ≤ n) : Room m data := by
  cases data with
  | scalar => exact h
  | sequence => exact Nat.le_trans (Nat.add_le_add_left hm _) h
  | mapping => exact Nat.le_trans (Nat.add_le_add_left hm _) h

theorem Room.addChild {node : Node} (h : Room (n + 1) node.data) {index : Nat} (hi : index ≠ 0) :
    Room n (addChild index node).data := by
  unfold Loader.addChild
  cases hd : node.data with
  | scalar => rw [hd] at h; exact h.elim
  | sequence items =>
    rw [hd] at h
    simp only [Room, List.length_append, List.length_singleton] at h ⊢
    omega
  | mapping pairs =>
    rw [hd] at h
    simp only [Room] at h ⊢
    cases ha : awaitsValue pairs with
    | true =>
      obtain ⟨rest, key, rfl, -, he⟩ := addToPairs_of_awaits ha
      rw [he, awaitsValue_append]
      simp only [ha, if_true, List.length_append, List.length_singleton] at h ⊢
      split <;> omega
    | false =>
      rw [addToPairs_of_not_awaits ha, awaitsValue_append]
      simp only [ha, Bool.false_eq_true, if_false] at h
      simp only [List.length_append, List.length_singleton, hi, ne_eq, not_false_eq_true,
        and_self, decide_true, if_true]
      omega

theorem length_attach (ctx : List Nat) (nodes : List Node) (index : Nat) :
    (attach ctx nodes index).length = nodes.length := by
  unfold attach
  split <;> simp

theorem Ready.attach (h : Ready ctx nodes (n + 1)) {index : Nat} (hi : index ≠ 0) :
    Ready ctx (attach ctx nodes index) n := by
  rintro p rest rfl
  obtain ⟨hp, node, hn, hr⟩ := h p rest rfl
  exact ⟨hp, Loader.addChild index node, by simp [Loader.attach, hn], hr.addChild hi⟩

theorem Ready.mono {m : Nat} (h : Ready ctx nodes n) (hm : m ≤ n) : Ready ctx nodes m := by
  intro p rest he
  obtain ⟨hp, node, hn, hr⟩ := h p rest he
  exact ⟨hp, node, hn, hr.mono hm⟩

theorem Ready.append (h : Ready ctx nodes n) (more : List Node) : Ready ctx (nodes ++ more) n := by
  intro p rest he
  obtain ⟨hp, node, hn, hr⟩ := h p rest he
  obtain ⟨hlt, -⟩ := List.getElem?_eq_some_iff.mp hn
  exact ⟨hp, node, by rw [List.getElem?_append_left hlt, hn], hr⟩

theorem modify_append_left {α : Type} (f : α → α) : ∀ (i : Nat) (l l' : List α), i < l.length →
    (l ++ l').modify i f = l.modify i f ++ l'
  | _, [], _, h => by simp at h
  | 0, _ :: _, _, _ => rfl
  | i + 1, a :: l, l', h => by
    simp only [List.length_cons] at h
    simp [modify_append_left f i l l' (by omega)]

theorem attach_append (h : Ready ctx nodes n) (more : List Node) (index : Nat) :
    attach ctx (nodes ++ more) index = attach ctx nodes index ++ more := by
  unfold attach
  split
  · rfl
  · obtain ⟨-, node, hn, -⟩ := h _ _ rfl
    obtain ⟨hlt, -⟩ := List.getElem?_eq_some_iff.mp hn
    exact modify_append_left _ _ _ _ hlt

theorem set_eq_modify {α : Type} (f : α → α) : ∀ (i : Nat) (l : List α) {a : α}, l[i]? = some a →
    l.set i (f a) = l.modify i f
  | _, [], _, h => by simp at h
  | 0, _ :: _, _, h => by
    obtain rfl := Option.some.inj h
    rfl
  | i + 1, b :: l, _, h => by simp [set_eq_modify f i l (by simpa using h)]

theorem getNode_ok {p : Nat} {node : Node} (hp : 0 < p) (h : S.document.nodes[p - 1]? = some node) :
    getNode p S = .ok node S := by
  have : p ≠ 0 := by omega
  simp [getNode, Document.node?, this, h]

theorem checkStackLimit_ok {length : Nat} (h : length < stackLimit) :
    checkStackLimit length S = .ok () S := by
  simp [checkStackLimit, h]

theorem loadNodeAdd_ok (h : Ready S.ctx S.document.nodes (n + 1)) (index : Nat) :
    loadNodeAdd index S = .ok () (S.withNodes (attach S.ctx S.document.nodes index)) := by
  rw [loadNodeAdd, bind_of_ok (get_apply S)]
  cases hc : S.ctx with
  | nil => rfl
  | cons p rest =>
    obtain ⟨hp, node, hn, hr⟩ := h p rest hc
    simp only []
    rw [bind_of_ok (getNode_ok hp hn)]
    have hset := set_eq_modify (addChild index) _ _ hn
    cases hd : node.data with
    | scalar => rw [hd] at hr; exact hr.elim
    | sequence items style =>
      rw [hd] at hr
      have hlt : items.length < stackLimit := by
        simp only [Room] at hr
        omega
      simp only []
      rw [bind_of_ok (checkStackLimit_ok hlt)]
      simp only [addChild, hd] at hset
      simp [setNode, hset, withNodes, attach]
    | mapping pairs style =>
      rw [hd] at hr
      simp only [addChild, hd] at hset
      simp only []
      cases ha : awaitsValue pairs with
      | true => simp [setNode, hset, withNodes, attach]
      | false =>
        have hlt : pairs.length < stackLimit := by
          simp only [Room, ha, Bool.false_eq_true, if_false] at hr
          omega
        simp only [Bool.false_eq_true, if_false]
        rw [bind_of_ok (checkStackLimit_ok hlt)]
        simp [setNode, hset, withNodes, attach]

def registered (aliases : List AliasData) (index : Nat) : Option Bytes → List AliasData
  | none => aliases
  | some anchor => aliases ++ [⟨anchor, index, .zero⟩]

theorem registerAnchor_ok (index : Nat) {node : Node} (hi : 0 < index)
    (hn : S.document.nodes[index - 1]? = some node) (hm : node.startMark = .zero)
    {anchor : Option Bytes}
    (hfresh : ∀ a, anchor = some a → ∀ x ∈ S.aliases, cstr x.anchor ≠ cstr a) :
    registerAnchor index anchor S =
      .ok () { S with aliases := registered S.aliases index anchor } := by
  cases anchor with
  | none => rfl
  | some a =>
    have hfind : (S.aliases.find? fun x => cstr x.anchor = cstr a) = none :=
      List.find?_eq_none.mpr fun x hx => by simpa using hfresh a rfl x hx
    rw [registerAnchor, bind_of_ok (getNode_ok hi hn), bind_of_ok (get_apply S)]
    simp only [hfind, modify_apply, registered, hm]

theorem addNode_ok (node : Node) (hlt : S.document.nodes.length < stackLimit)
    (hm : node.startMark = .zero) {anchor : Option Bytes}
    (hfresh : ∀ a, anchor = some a → ∀ x ∈ S.aliases, cstr x.anchor ≠ cstr a)
    (h : Ready S.ctx S.document.nodes (n + 1)) :
    addNode anchor node S = .ok (S.document.nodes.length + 1)
      { S.withNodes (attach S.ctx S.document.nodes (S.document.nodes.length + 1) ++ [node]) with
        aliases := registered S.aliases (S.document.nodes.length + 1) anchor } := by
  have hpush : pushNode node S = .ok (S.document.nodes.length + 1)
      (S.withNodes (S.document.nodes ++ [node])) := rfl
  rw [addNode, bind_of_ok (get_apply S), bind_of_ok (checkStackLimit_ok hlt), bind_of_ok hpush]
  have hreg := registerAnchor_ok (S := S.withNodes (S.document.nodes ++ [node]))
    (S.document.nodes.length + 1) (by omega) (by simp [withNodes]) hm hfresh
  rw [bind_of_ok hreg]
  have hadd := loadNodeAdd_ok (S := { S.withNodes (S.document.nodes ++ [node]) with
    aliases := registered S.aliases (S.document.nodes.length + 1) anchor }) (h.append [node])
    (S.document.nodes.length + 1)
  refine (bind_of_ok hadd).trans ?_
  have happ := attach_append h [node] (S.document.nodes.length + 1)
  simp only [withNodes, pure_apply] at happ ⊢
  rw [happ]

/-- A node as its first event leaves it. -/
def emptied (node : Node) : Node :=
  ⟨node.tag, match node.data with
    | .scalar value style => .scalar value style
    | .sequence _ style => .sequence [] style
    | .mapping _ style => .mapping [] style, .zero, .zero⟩

/-- The open collections once the node at `index` is one. -/
def openedAt (node : Node) (index : Nat) (ctx : List Nat) : List Nat :=
  match node.data with
  | .scalar _ _ => ctx
  | _ => index :: ctx

theorem resolvedTag_some {tag : Bytes} (h : cstr tag ≠ [0x21]) (default : Bytes) :
    resolvedTag (some tag) default = tag := if_neg h

theorem loadEvent_start {node : Node} (htag : cstr node.tag ≠ [0x21])
    (hlt : S.document.nodes.length < stackLimit) (hctx : S.ctx.length < stackLimit)
    {anchor : Option Bytes}
    (hfresh : ∀ a, anchor = some a → ∀ x ∈ S.aliases, cstr x.anchor ≠ cstr a)
    (h : Ready S.ctx S.document.nodes (n + 1)) :
    loadEvent (unplaced (startData node anchor)) S = .ok ()
      { S.withNodes
          (attach S.ctx S.document.nodes (S.document.nodes.length + 1) ++ [emptied node]) with
        aliases := registered S.aliases (S.document.nodes.length + 1) anchor
        ctx := openedAt node (S.document.nodes.length + 1) S.ctx } := by
  have hadd := addNode_ok (emptied node) hlt rfl hfresh h
  unfold startData emptied openedAt at *
  cases hd : node.data with
  | scalar value style =>
    rw [hd] at hadd
    simp only [loadEvent, unplaced, loadScalar, resolvedTag_some htag]
    exact (bind_of_ok hadd).trans rfl
  | sequence items style =>
    rw [hd] at hadd
    simp only [loadEvent, unplaced, loadSequence, resolvedTag_some htag]
    refine (bind_of_ok hadd).trans ?_
    rw [pushContext, bind_of_ok (get_apply _), bind_of_ok (checkStackLimit_ok (by exact hctx))]
    rfl
  | mapping pairs style =>
    rw [hd] at hadd
    simp only [loadEvent, unplaced, loadMapping, resolvedTag_some htag]
    refine (bind_of_ok hadd).trans ?_
    rw [pushContext, bind_of_ok (get_apply _), bind_of_ok (checkStackLimit_ok (by exact hctx))]
    rfl

theorem closeContext_ok {kind : NodeData → Bool} {index : Nat} {rest : List Nat} {node : Node}
    (hc : S.ctx = index :: rest) (hi : 0 < index)
    (hn : S.document.nodes[index - 1]? = some node) (hk : kind node.data = true)
    (hm : node.endMark = .zero) :
    closeContext kind .zero S = .ok () { S with ctx := rest } := by
  have hself : S.document.nodes.set (index - 1) node = S.document.nodes := by
    obtain ⟨hlt, rfl⟩ := List.getElem?_eq_some_iff.mp hn
    exact List.set_getElem_self hlt
  have hnode : ({ node with endMark := .zero } : Node) = node := by rw [← hm]
  rw [closeContext, bind_of_ok (get_apply S)]
  simp only [hc]
  rw [bind_of_ok (getNode_ok hi hn)]
  simp only [hk, if_true, hnode]
  have hset : setNode index node S = .ok () S := by
    simp only [setNode, modify_apply, hself]
  rw [bind_of_ok hset]
  rfl

/-! ## Sequences of events -/

def withSource (S : Loader EventList) (source : EventList) : Loader EventList :=
  { S with source := source }

/-- The loader goes from `S` to `S'` over the events `es`, whatever comes after them. -/
def Feeds (es : List Event) (S S' : Loader EventList) : Prop :=
  ∀ (fuel : Nat) (more : List Event) (started ended : Bool),
    loadNodes (fuel + es.length) (S.withSource ⟨es ++ more, started, ended⟩) =
      loadNodes fuel (S'.withSource ⟨more, started, ended⟩)

theorem Feeds.nil (S : Loader EventList) : Feeds [] S S := fun _ _ _ _ => rfl

theorem Feeds.append {es es' : List Event} {S S' S'' : Loader EventList} (h : Feeds es S S')
    (h' : Feeds es' S' S'') : Feeds (es ++ es') S S'' := by
  intro fuel more started ended
  rw [List.length_append, show fuel + (es.length + es'.length) = fuel + es'.length + es.length by
    omega, List.append_assoc, h, h']

/-- The event starts a node or ends a collection. -/
def OfNode (e : Event) : Prop :=
  e.type ≠ .streamStart ∧ e.type ≠ .streamEnd ∧ e.type ≠ .documentEnd

theorem Feeds.single {e : Event} {S S' : Loader EventList} (he : OfNode e)
    (h : ∀ source, loadEvent e (S.withSource source) = .ok () (S'.withSource source)) :
    Feeds [e] S S' := by
  intro fuel more started ended
  obtain ⟨hs, hend, hd⟩ := he
  have hnext : next (S.withSource ⟨e :: more, started, ended⟩) =
      .ok e (S.withSource ⟨more, started, ended⟩) := by
    simp [next, EventSource.next, withSource, hs, hend]
  rw [List.length_singleton, loadNodes, List.singleton_append, bind_of_ok hnext]
  cases hdata : e.data with
  | documentEnd => exact absurd (by simp [Event.type, hdata, EventData.type]) hd
  | _ => exact bind_of_ok (h _)

theorem ofNode_startData (node : Node) (anchor : Option Bytes) :
    OfNode (unplaced (startData node anchor)) := by
  unfold startData
  cases node.data <;> simp [OfNode, unplaced, Event.type, EventData.type]

/-! ## Positions -/

/-- The position of a node in the order of the walk. -/
def position (order : List Nat) (i : Nat) : Nat := order.idxOf i + 1

theorem position_of_prefix (h : seen ++ [i] <+: order) (hi : i ∉ seen) :
    position order i = seen.length + 1 := by
  obtain ⟨rest, rfl⟩ := h
  rw [position, List.append_assoc, List.idxOf_append_of_notMem hi]
  simp

theorem position_injective {j : Nat} (hi : i ∈ order) (he : position order i = position order j) :
    i = j := (List.idxOf_inj hi).mp (Nat.succ.inj he)

/-- What is known about anchors: the nodes `seen` that have one, in order. -/
def aliasesOf (A : Nat → Nat) (order seen : List Nat) : List AliasData :=
  seen.filterMap fun i => (anchorText (A i)).map fun text => ⟨text, position order i, .zero⟩

theorem aliasesOf_append (A : Nat → Nat) (order seen : List Nat) (i : Nat) :
    aliasesOf A order (seen ++ [i]) =
      registered (aliasesOf A order seen) (position order i) (anchorText (A i)) := by
  rw [aliasesOf, List.filterMap_append, ← aliasesOf]
  cases ha : anchorText (A i) <;> simp [registered, ha]

theorem anchorText_eq_some {k : Nat} {text : Bytes} (h : anchorText k = some text) :
    k ≠ 0 ∧ text = generateAnchor k := by
  unfold anchorText at h
  split at h
  · exact ⟨‹_›, (Option.some.inj h).symm⟩
  · cases h

theorem cstr_aliasesOf (hA : Distinct A) (hi : 0 < i) (hseen : ∀ j ∈ seen, 0 < j)
    {x : AliasData} (hx : x ∈ aliasesOf A order seen) {text : Bytes}
    (ha : anchorText (A i) = some text) (he : cstr x.anchor = cstr text) :
    i ∈ seen ∧ x = ⟨text, position order i, .zero⟩ := by
  obtain ⟨j, hj, hx⟩ := List.mem_filterMap.mp hx
  obtain ⟨text', hj', rfl⟩ := Option.map_eq_some_iff.mp hx
  obtain ⟨hne, rfl⟩ := anchorText_eq_some ha
  obtain ⟨-, rfl⟩ := anchorText_eq_some hj'
  rw [cstr_generateAnchor, cstr_generateAnchor] at he
  have hij := hA i j hi (hseen j hj) hne (generateAnchor_injective he.symm)
  subst hij
  exact ⟨hj, rfl⟩

theorem find_aliasesOf (order : List Nat) (hA : Distinct A) (hseen : ∀ j ∈ seen, 0 < j) (hi : i ∈ seen)
    (ha : A i ≠ 0) :
    ((aliasesOf A order seen).find? fun x => cstr x.anchor = cstr (generateAnchor (A i))) =
      some ⟨generateAnchor (A i), position order i, .zero⟩ := by
  have htext : anchorText (A i) = some (generateAnchor (A i)) := if_pos ha
  have hmem : (⟨generateAnchor (A i), position order i, .zero⟩ : AliasData) ∈
      aliasesOf A order seen := List.mem_filterMap.mpr ⟨i, hi, by rw [htext]; rfl⟩
  cases hf : (aliasesOf A order seen).find? fun x =>
      cstr x.anchor = cstr (generateAnchor (A i)) with
  | none =>
    rw [List.find?_eq_none] at hf
    simpa using hf _ hmem
  | some x =>
    have hx := List.find?_some hf
    simp only [decide_eq_true_eq] at hx
    rw [(cstr_aliasesOf hA (hseen i hi) hseen (List.mem_of_find?_eq_some hf) htext hx).2]

/-! ## Walks -/

/-- A node that refers to positions. -/
def renumbered (order : List Nat) (node : Node) : Node :=
  ⟨node.tag, match node.data with
    | .scalar value style => .scalar value style
    | .sequence items style => .sequence (items.map (position order)) style
    | .mapping pairs style =>
      .mapping (pairs.map fun p => (position order p.1, position order p.2)) style, .zero, .zero⟩

/-- The node of an index, as it is loaded. -/
def loaded (d : Document) (order : List Nat) (i : Nat) : Node :=
  renumbered order ((d.node? i).getD ⟨[], .scalar [] .any, .zero, .zero⟩)

theorem attachAll_append (h : Ready ctx nodes n) (more : List Node) : ∀ (is : List Nat),
    is.length ≤ n → (∀ i ∈ is, i ≠ 0) →
    is.foldl (attach ctx) (nodes ++ more) = is.foldl (attach ctx) nodes ++ more := by
  intro is
  induction is generalizing nodes n with
  | nil => simp
  | cons i is ih =>
    intro hl hne
    obtain ⟨m, rfl⟩ : ∃ m, n = m + 1 := ⟨n - 1, by simp at hl; omega⟩
    rw [List.foldl_cons, attach_append h, List.foldl_cons]
    exact ih (h.attach (hne i List.mem_cons_self)) (by simpa using hl)
      fun j hj => hne j (List.mem_cons_of_mem _ hj)

theorem modify_last {α : Type} (f : α → α) : ∀ (l : List α) (a : α),
    (l ++ [a]).modify l.length f = l ++ [f a]
  | [], _ => rfl
  | b :: l, a => by simp [modify_last f l a]

theorem attachAll_last (ctx : List Nat) (nodes : List Node) : ∀ (is : List Nat) (node : Node),
    is.foldl (attach ((nodes.length + 1) :: ctx)) (nodes ++ [node]) =
      nodes ++ [is.foldl (fun n i => addChild i n) node]
  | [], _ => rfl
  | i :: is, node => by
    have hstep : attach ((nodes.length + 1) :: ctx) (nodes ++ [node]) i =
        nodes ++ [addChild i node] := modify_last _ nodes node
    rw [List.foldl_cons, hstep, attachAll_last ctx nodes is]
    rfl

theorem addItems (tag : Bytes) (style : SequenceStyle) : ∀ (is items : List Nat),
    is.foldl (fun n i => addChild i n) ⟨tag, .sequence items style, .zero, .zero⟩ =
      ⟨tag, .sequence (items ++ is) style, .zero, .zero⟩
  | [], items => by simp
  | i :: is, items => by
    rw [List.foldl_cons]
    exact (addItems tag style is (items ++ [i])).trans (by simp)

theorem addPairs (tag : Bytes) (style : MappingStyle) (order : List Nat) :
    ∀ (ps pairs : List (Nat × Nat)), awaitsValue pairs = false →
    ((ps.flatMap fun p => [p.1, p.2]).map (position order)).foldl (fun n i => addChild i n)
        ⟨tag, .mapping pairs style, .zero, .zero⟩ =
      ⟨tag, .mapping (pairs ++ ps.map fun p => (position order p.1, position order p.2)) style,
        .zero, .zero⟩
  | [], pairs, _ => by simp
  | p :: ps, pairs, h => by
    have hkey : addToPairs pairs (position order p.1) = pairs ++ [(position order p.1, 0)] :=
      addToPairs_of_not_awaits h _
    have hvalue : addToPairs (pairs ++ [(position order p.1, 0)]) (position order p.2) =
        pairs ++ [(position order p.1, position order p.2)] := by
      simp [addToPairs, position]
    have hpair : addChild (position order p.2) (addChild (position order p.1)
        ⟨tag, .mapping pairs style, .zero, .zero⟩) = ⟨tag, .mapping (pairs ++
          [(position order p.1, position order p.2)]) style, .zero, .zero⟩ := by
      simp only [addChild, hkey, hvalue]
    simp only [List.flatMap_cons, List.cons_append, List.nil_append, List.map_cons,
      List.foldl_cons, hpair]
    rw [addPairs tag style order ps _ (by rw [awaitsValue_append]; simp [position])]
    simp

/-- A node is complete once all it refers to is added. -/
theorem emptied_children (order : List Nat) {node : Node} (hn : d.node? i = some node) :
    ((d.children i).map (position order)).foldl (fun n i => addChild i n) (emptied node) =
      loaded d order i := by
  simp only [Document.children, hn, Option.map_some, Option.getD_some, loaded, renumbered, emptied]
  cases node.data with
  | scalar => rfl
  | sequence items style => exact addItems _ _ _ []
  | mapping pairs style => exact addPairs _ _ _ _ [] rfl

/-- The nodes `seen` have been loaded, and the innermost open collection has room for `n` more. -/
structure Composing (A : Nat → Nat) (order seen : List Nat) (n : Nat) (S : Loader EventList) :
    Prop where
  length : S.document.nodes.length = seen.length
  aliases : S.aliases = aliasesOf A order seen
  ready : Ready S.ctx S.document.nodes n
  ctx_le : S.ctx.length ≤ seen.length

/-- The loader once it has been through the events of a walk. -/
def composed (d : Document) (A : Nat → Nat) (order as seen' : List Nat) (t : List (Step Nat))
    (S : Loader EventList) : Loader EventList :=
  { S.withNodes ((as.map (position order)).foldl (attach S.ctx) S.document.nodes ++
      (t.filterMap Step.entered).map (loaded d order)) with
    aliases := aliasesOf A order seen' }

section Walks

variable {S : Loader EventList}

theorem feeds_again (hA : Distinct A) (hc : Composing A order seen (n + 1) S)
    (hseen : ∀ j ∈ seen, 0 < j) (hi : i ∈ seen) (ha : A i ≠ 0) :
    Feeds ((dataAt d A (.again i)).map unplaced) S
      (S.withNodes (attach S.ctx S.document.nodes (position order i))) := by
  refine Feeds.single (by simp [OfNode, unplaced, Event.type, EventData.type]) fun source => ?_
  have hfind := find_aliasesOf order hA hseen hi ha
  rw [← hc.aliases] at hfind
  simp only [loadEvent, unplaced]
  rw [loadAlias, bind_of_ok (get_apply _)]
  simp only [withSource, hfind]
  exact loadNodeAdd_ok (S := S.withSource source) hc.ready _

/-- The state in which the parts of a node are loaded. -/
def entered (A : Nat → Nat) (node : Node) (i : Nat) (S : Loader EventList) : Loader EventList :=
  { S.withNodes (attach S.ctx S.document.nodes (S.document.nodes.length + 1) ++ [emptied node]) with
    aliases := registered S.aliases (S.document.nodes.length + 1) (anchorText (A i))
    ctx := openedAt node (S.document.nodes.length + 1) S.ctx }

theorem feeds_enter (hv : d.Valid) (hA : Distinct A) (hc : Composing A order seen (n + 1) S)
    (hseen : ∀ j ∈ seen, 0 < j) (hi : d.Has i) (hs : i ∉ seen) (hlt : seen.length < stackLimit)
    {node : Node} (hn : d.node? i = some node) :
    Feeds ((dataAt d A (.enter i)).map unplaced) S (entered A node i S) := by
  obtain ⟨node', hn', hm⟩ := hi.node
  obtain rfl : node' = node := by
    rw [hn] at hn'
    exact (Option.some.inj hn').symm
  have hdata : dataAt d A (.enter i) = [startData node' (anchorText (A i))] := by simp [dataAt, hn]
  rw [hdata]
  refine Feeds.single (ofNode_startData _ _) fun source => ?_
  refine loadEvent_start (S := S.withSource source) (hv.tag _ hm) ?_ ?_ ?_ hc.ready
  · exact Nat.lt_of_le_of_lt (Nat.le_of_eq hc.length) hlt
  · exact Nat.lt_of_le_of_lt hc.ctx_le hlt
  · intro text ht x hx he
    have hx : x ∈ aliasesOf A order seen := hc.aliases ▸ hx
    exact hs (cstr_aliasesOf hA hi.1 hseen hx ht he).1

theorem composing_entered (hv : d.Valid) (hc : Composing A order seen (n + 1) S) (hi : d.Has i)
    {node : Node} (hn : d.node? i = some node) (hpos : position order i = seen.length + 1) :
    Composing A order (seen ++ [i]) (d.children i).length (entered A node i S) := by
  obtain ⟨node', hn', hm⟩ := hi.node
  obtain rfl : node' = node := by
    rw [hn] at hn'
    exact (Option.some.inj hn').symm
  have hchildren : d.children i = node'.data.children := by simp [Document.children, hn]
  have hlen : (attach S.ctx S.document.nodes (S.document.nodes.length + 1)).length =
      S.document.nodes.length := length_attach _ _ _
  refine ⟨by simp only [entered, withNodes, List.length_append, List.length_singleton,
    length_attach, hc.length], ?_, ?_, ?_⟩
  · rw [aliasesOf_append, hpos, entered, hc.aliases, hc.length]
  · rw [hchildren]
    simp only [entered, withNodes]
    unfold openedAt
    cases hd : node'.data with
    | scalar =>
      exact ((hc.ready.attach (Nat.succ_ne_zero _)).append _).mono (Nat.zero_le _)
    | sequence items style =>
      rintro p rest he
      obtain ⟨rfl, -⟩ := List.cons.inj he
      refine ⟨Nat.succ_pos _, emptied node', by simp [hlen], ?_⟩
      simpa [emptied, hd, Room, NodeData.children] using hv.items_le _ hm items style hd
    | mapping pairs style =>
      rintro p rest he
      obtain ⟨rfl, -⟩ := List.cons.inj he
      refine ⟨Nat.succ_pos _, emptied node', by simp [hlen], ?_⟩
      have := hv.pairs_le _ hm pairs style hd
      have hl := length_pairs pairs
      simp only [emptied, hd, Room, NodeData.children, hl, List.length_nil]
      omega
  · have := hc.ctx_le
    simp only [entered, openedAt, List.length_append, List.length_singleton]
    split
    · omega
    · simp only [List.length_cons]
      omega

/-- The nodes once a node's parts have been loaded. -/
theorem children_entered {node : Node} (hn : d.node? i = some node) :
    ((d.children i).map (position order)).foldl (attach (entered A node i S).ctx)
        (entered A node i S).document.nodes =
      attach S.ctx S.document.nodes (S.document.nodes.length + 1) ++ [loaded d order i] := by
  have hlen : (attach S.ctx S.document.nodes (S.document.nodes.length + 1)).length =
      S.document.nodes.length := length_attach _ _ _
  have hlast := attachAll_last S.ctx
    (attach S.ctx S.document.nodes (S.document.nodes.length + 1))
    ((d.children i).map (position order)) (emptied node)
  rw [hlen, emptied_children order hn] at hlast
  cases hd : node.data with
  | scalar =>
    have hchildren : d.children i = [] := by simp [Document.children, hn, hd, NodeData.children]
    have := emptied_children order hn
    rw [hchildren] at this ⊢
    simp only [List.map_nil, List.foldl_nil] at this ⊢
    rw [← this]
    rfl
  | sequence | mapping =>
    simp only [entered, openedAt, hd, withNodes]
    exact hlast

theorem feeds_leave (order rest : List Nat) {node : Node} (hn : d.node? i = some node)
    {index : Nat} (hctx : S.ctx = openedAt node index rest) (hi : 0 < index)
    (hnode : S.document.nodes[index - 1]? = some (loaded d order i)) :
    Feeds ((dataAt d A (.leave i)).map unplaced) S { S with ctx := rest } := by
  have hloaded : loaded d order i = renumbered order node := by simp [loaded, hn]
  rw [hloaded] at hnode
  simp only [dataAt, hn, Option.map_some, Option.getD_some, endData]
  cases hd : node.data with
  | scalar =>
    simp only [openedAt, hd] at hctx
    have : S = { S with ctx := rest } := by rw [← hctx]
    rw [← this]
    exact Feeds.nil S
  | sequence items style =>
    simp only [openedAt, hd] at hctx
    refine Feeds.single (by simp [OfNode, unplaced, Event.type, EventData.type]) fun source => ?_
    exact closeContext_ok (S := S.withSource source) hctx hi hnode
      (by simp [renumbered, hd, isSequence]) rfl
  | mapping pairs style =>
    simp only [openedAt, hd] at hctx
    refine Feeds.single (by simp [OfNode, unplaced, Event.type, EventData.type]) fun source => ?_
    exact closeContext_ok (S := S.withSource source) hctx hi hnode
      (by simp [renumbered, hd, isMapping]) rfl

/-- The state in which a node is complete. -/
def filled (d : Document) (A : Nat → Nat) (order seen' : List Nat) (i : Nat) (t : List (Step Nat))
    (S : Loader EventList) : Loader EventList :=
  { S.withNodes (attach S.ctx S.document.nodes (S.document.nodes.length + 1) ++
      (loaded d order i :: (t.filterMap Step.entered).map (loaded d order))) with
    aliases := aliasesOf A order seen' }

theorem composed_entered {node : Node} (hn : d.node? i = some node) (t : List (Step Nat)) :
    composed d A order (d.children i) seen' t (entered A node i S) =
      { filled d A order seen' i t S with
        ctx := openedAt node (S.document.nodes.length + 1) S.ctx } := by
  simp only [composed, children_entered hn]
  simp [filled, withNodes, entered]

theorem composing_filled (hc : Composing A order seen (n + 1) S) {t : List (Step Nat)}
    (h : Walk d.children (seen ++ [i]) (d.children i) t seen') :
    Composing A order seen' n (filled d A order seen' i t S) := by
  have hlen : seen'.length = seen.length + 1 + (t.filterMap Step.entered).length := by
    rw [h.eq_append]
    simp only [List.length_append, List.length_singleton]
  have hle := hc.ctx_le
  refine ⟨?_, rfl, (hc.ready.attach (Nat.succ_ne_zero _)).append _, ?_⟩
  · simp only [filled, withNodes, List.length_append, length_attach, hc.length, List.length_cons,
      List.length_map]
    omega
  · simp only [filled, withNodes]
    omega

theorem composed_filled (hc : Composing A order seen (as.length + 1) S)
    (hpos : position order i = seen.length + 1) (t u : List (Step Nat)) (seen'' : List Nat) :
    composed d A order as seen'' u (filled d A order seen' i t S) =
      composed d A order (i :: as) seen'' (.enter i :: (t ++ .leave i :: u)) S := by
  have happ := attachAll_append (hc.ready.attach (Nat.succ_ne_zero S.document.nodes.length))
    (loaded d order i :: (t.filterMap Step.entered).map (loaded d order))
    (as.map (position order)) (by simp) (by simp [position])
  simp only [hc.length] at happ
  simp only [composed, filled, withNodes, hc.length, happ, List.map_cons, List.foldl_cons, hpos]
  simp [List.filterMap_cons, Step.entered]

/-- The loader appends the nodes of a walk, in its order. -/
theorem feeds_walk (hv : d.Valid) (hA : Distinct A) (hlimit : order.length ≤ stackLimit)
    (hpos : ∀ i ∈ order, 0 < i) {t : List (Step Nat)} (h : Walk d.children seen as t seen') :
    ∀ {S : Loader EventList}, Composing A order seen as.length S → (∀ i ∈ as, d.Has i) →
      (∀ i, .again i ∈ t → A i ≠ 0) → seen' <+: order →
      Feeds ((t.flatMap (dataAt d A)).map unplaced) S (composed d A order as seen' t S) := by
  induction h with
  | @nil seen =>
    intro S hc _ _ _
    have : composed d A order [] seen [] S = S := by
      simp [composed, withNodes, ← hc.aliases]
    rw [this]
    exact Feeds.nil S
  | @again seen seen' as a t ha h ih =>
    intro S hc has hA' hpre
    have hseen : ∀ j ∈ seen, 0 < j := fun j hj => hpos j (hpre.subset (h.isPrefix.subset hj))
    have hfirst := feeds_again (d := d) hA hc hseen ha (hA' a List.mem_cons_self)
    have hrest := ih (S := S.withNodes (attach S.ctx S.document.nodes (position order a)))
      ⟨by simp [withNodes, length_attach, hc.length], hc.aliases,
        hc.ready.attach (Nat.succ_ne_zero _), hc.ctx_le⟩
      (fun b hb => has b (List.mem_cons_of_mem _ hb))
      (fun b hb => hA' b (List.mem_cons_of_mem _ hb)) hpre
    rw [List.flatMap_cons, List.map_append]
    exact hfirst.append hrest
  | @enter seen seen' seen'' as a t u ha h₁ h₂ ih₁ ih₂ =>
    intro S hc has hA' hpre
    have hpre' := h₂.isPrefix.trans hpre
    have hpre'' := h₁.isPrefix.trans hpre'
    have hseen : ∀ j ∈ seen, 0 < j := fun j hj => hpos j (hpre''.subset (by simp [hj]))
    have hposition := position_of_prefix hpre'' ha
    have hlt : seen.length < stackLimit := by
      have := hpre''.length_le
      simp only [List.length_append, List.length_singleton] at this
      omega
    have hi := has a List.mem_cons_self
    obtain ⟨node, hn, -⟩ := hi.node
    have hc₁ := composing_entered hv hc hi hn hposition
    have hstart := feeds_enter hv hA hc hseen hi ha hlt hn
    have hparts := ih₁ hc₁ (fun j hj => hv.closed.has_of_mem hi hj) (fun b hb => hA' b (by simp [hb])) hpre'
    rw [composed_entered hn] at hparts
    have hend := feeds_leave (A := A) order S.ctx (S := { filled d A order seen' a t S with
        ctx := openedAt node (S.document.nodes.length + 1) S.ctx }) hn rfl (Nat.succ_pos _)
      (by simp [filled, withNodes, length_attach])
    have hrest := ih₂ (composing_filled hc h₁) (fun b hb => has b (List.mem_cons_of_mem _ hb))
      (fun b hb => hA' b (by simp [hb])) hpre
    rw [composed_filled hc hposition] at hrest
    have hevents : ((Step.enter a :: (t ++ .leave a :: u)).flatMap (dataAt d A)).map unplaced =
        (dataAt d A (.enter a)).map unplaced ++ ((t.flatMap (dataAt d A)).map unplaced ++
          ((dataAt d A (.leave a)).map unplaced ++ (u.flatMap (dataAt d A)).map unplaced)) := by
      simp
    rw [hevents]
    exact hstart.append (hparts.append (hend.append hrest))

end Walks

end Loader

end LibYaml
