import LibYaml.Building

/-!
# What the building calls do to a document

A call that succeeds does one of four things to the document (`Step`), and one that fails leaves it
as it is (`perform_spec`).  The nodes of a document that calls have built refer to nodes, and there
are fewer of them than a `c_int` counts (`built_sound`).
-/

namespace LibYaml

namespace Building

open Fallible Document

/-- A stack of that many entries can take one more. -/
def HasRoom (length size : Nat) : Prop := isFull length → length * size < (2 ^ 31 - 1) / 2

def Call.adds : Call → Bool
  | .addScalar _ _ _ _ | .addSequence _ _ | .addMapping _ _ => true
  | _ => false

/-- The document with other data at a node. -/
def withData (d : Document) (i : Nat) (data : NodeData) : Document :=
  { d with nodes := d.nodes.modify (i - 1) fun node => { node with data := data } }

/-- What a call that succeeds returns and leaves. -/
inductive Step (d : Document) (c : Call) : Int → Document → Prop
  | emptied {d' : Document} (hc : c.adds = false) (h : d'.nodes = []) : Step d c 1 d'
  | added {node : Node} (hc : c.adds = true) (h : node.data.children = [])
      (hroom : HasRoom d.nodes.length nodeSize) :
      Step d c (cInt (d.nodes.length + 1)) { d with nodes := d.nodes ++ [node] }
  | item {i j : Nat} {node : Node} {items : List Nat} {style : SequenceStyle}
      (hc : c.adds = false) (hn : d.node? i = some node) (hd : node.data = .sequence items style)
      (hj : d.Has j) : Step d c 1 (withData d i (.sequence (items ++ [j]) style))
  | pair {i j k : Nat} {node : Node} {pairs : List (Nat × Nat)} {style : MappingStyle}
      (hc : c.adds = false) (hn : d.node? i = some node) (hd : node.data = .mapping pairs style)
      (hj : d.Has j) (hk : d.Has k) : Step d c 1 (withData d i (.mapping (pairs ++ [(j, k)]) style))

section Calls

/-- The document is as it was. -/
abbrev Untouched {α : Type} (x : BuildM α) : Prop := Keeps Building.document (fun _ => True) x

theorem untouched_allocate : Untouched allocate := by
  intro d s hs
  unfold allocate
  rcases s.allocations with _ | ⟨_ | _, rest⟩
  · exact hs
  · exact ⟨hs, trivial⟩
  · exact hs

theorem untouched_makeRoom (length size : Nat) : Untouched (makeRoom length size) := by
  unfold makeRoom
  exact .ite (.ite (.throw trivial) untouched_allocate) .pure

theorem untouched_duplicateUtf8CString (input : Bytes) :
    Untouched (duplicateUtf8CString input) := by
  unfold duplicateUtf8CString
  exact .ite (.bind untouched_allocate fun _ => .pure) (.throw trivial)

theorem untouched_duplicateScalarValue (value : Bytes) (length : Int) :
    Untouched (duplicateScalarValue value length) := by
  unfold duplicateScalarValue
  exact .ite (.bind untouched_allocate fun _ => .pure) (.throw trivial)

theorem untouched_copyTagDirectives : ∀ (directives : List (Option Bytes × Option Bytes))
    (copied : List TagDirective), Untouched (copyTagDirectives directives copied)
  | [], _ => .pure
  | (some _, some _) :: rest, _ =>
    .bind (untouched_duplicateUtf8CString _) fun _ =>
      .bind (untouched_duplicateUtf8CString _) fun _ =>
        .bind (untouched_makeRoom _ _) fun _ => untouched_copyTagDirectives rest _
  | (none, _) :: _, _ => .throw trivial
  | (some _, none) :: _, _ => .throw trivial

theorem makeRoom_ok {length size : Nat} {s t : Building} {u : Unit}
    (h : makeRoom length size s = .ok u t) : HasRoom length size := by
  intro hf
  unfold makeRoom at h
  rw [if_pos hf] at h
  by_contra hn
  rw [if_pos (by omega)] at h
  cases h

theorem lookupNode_eq_some {d : Document} {index : Int} {node : Node}
    (h : lookupNode d index = some node) :
    d.Has index.toNat ∧ d.node? index.toNat = some node := by
  unfold lookupNode at h
  split_ifs at h with h₀ h₁
  have hpos : 0 < index.toNat := by omega
  refine ⟨⟨hpos, by omega⟩, ?_⟩
  rw [node?, if_neg (by omega)]
  exact h

/-- A call that looks at the document, needs room on a stack and then writes. -/
theorem makeRoom_write {d : Document} {length size : Nat} {f : Building → Building} {code : Int}
    {c : Call} (h : HasRoom length size → ∀ s : Building, s.document = d →
      Step d c code (f s).document) :
    Holds (fun s : Building => s.document = d)
      (do makeRoom length size; modify f; return code : BuildM Int)
      (fun code s => Step d c code s.document) fun _ s => s.document = d := by
  intro s hs
  have hkeep := untouched_makeRoom length size d s hs
  rw [bind_apply]
  rcases hm : makeRoom length size s with ⟨u, t⟩ | ⟨e, t⟩
  · rw [hm] at hkeep
    exact h (makeRoom_ok hm) t hkeep
  · rw [hm] at hkeep
    exact hkeep.1

variable (d : Document)

theorem initializeDocument_spec (version : Option VersionDirective)
    (tagDirectives : Option (List (Option Bytes × Option Bytes))) (endIsNull : Bool)
    (startImplicit endImplicit : Bool) : Holds (fun s : Building => s.document = d)
      (initializeDocument version tagDirectives endIsNull startImplicit endImplicit)
      (fun code s => code = 1 ∧ s.document.nodes = []) fun _ s => s.document = d := by
  have hE : ∀ (e : Unit) (s : Building), s.document = d → True → s.document = d := fun _ _ h _ => h
  unfold initializeDocument
  refine Holds.ite (fun _ => Holds.throw fun _ h => h) fun _ => ?_
  refine Keeps.andThen untouched_allocate hE fun _ => ?_
  refine Keeps.andThen (.onlyIf untouched_allocate) hE fun _ => ?_
  refine Keeps.andThen (.onlyIf untouched_allocate) hE fun _ => ?_
  refine Keeps.andThen (untouched_copyTagDirectives _ _) hE fun copied => ?_
  exact fun s _ => ⟨rfl, rfl⟩

theorem pushNode_spec {node : Node} (hn : node.data.children = []) {c : Call}
    (hc : c.adds = true) : Holds (fun s : Building => s.document = d) (pushNode node)
      (fun code s => Step d c code s.document) fun _ s => s.document = d := by
  rintro s rfl
  refine makeRoom_write (fun hroom t ht => ?_) s rfl
  have h := Step.added (c := c) hc hn hroom
  rw [ht]
  exact h

theorem addScalar_spec (tag value : Option Bytes) (length : Int) (style : ScalarStyle) {c : Call}
    (hc : c.adds = true) : Holds (fun s : Building => s.document = d)
      (addScalar tag value length style) (fun code s => Step d c code s.document)
      fun _ s => s.document = d := by
  cases value with
  | none => exact Holds.throw fun _ h => h
  | some value =>
    refine Keeps.andThen (untouched_duplicateUtf8CString _) (fun _ _ h _ => h) fun _ => ?_
    refine Keeps.andThen (untouched_duplicateScalarValue _ _) (fun _ _ h _ => h) fun _ => ?_
    exact pushNode_spec d rfl hc

theorem addSequence_spec (tag : Option Bytes) (style : SequenceStyle) {c : Call}
    (hc : c.adds = true) : Holds (fun s : Building => s.document = d)
      (addSequence tag style) (fun code s => Step d c code s.document)
      fun _ s => s.document = d := by
  refine Keeps.andThen (untouched_duplicateUtf8CString _) (fun _ _ h _ => h) fun _ => ?_
  refine Keeps.andThen untouched_allocate (fun _ _ h _ => h) fun _ => ?_
  exact pushNode_spec d rfl hc

theorem addMapping_spec (tag : Option Bytes) (style : MappingStyle) {c : Call}
    (hc : c.adds = true) : Holds (fun s : Building => s.document = d)
      (addMapping tag style) (fun code s => Step d c code s.document)
      fun _ s => s.document = d := by
  refine Keeps.andThen (untouched_duplicateUtf8CString _) (fun _ _ h _ => h) fun _ => ?_
  refine Keeps.andThen untouched_allocate (fun _ _ h _ => h) fun _ => ?_
  exact pushNode_spec d rfl hc

theorem appendSequenceItem_spec (sequence item : Int) {c : Call} (hc : c.adds = false) :
    Holds (fun s : Building => s.document = d) (appendSequenceItem sequence item)
      (fun code s => Step d c code s.document) fun _ s => s.document = d := by
  rintro s rfl
  unfold appendSequenceItem
  rw [bind_of_ok (get_apply s)]
  rcases hl : lookupNode s.document sequence with _ | ⟨tag, data, startMark, endMark⟩
  · rfl
  · obtain ⟨-, hn⟩ := lookupNode_eq_some hl
    simp only [Option.map_some]
    rcases data with _ | ⟨items, style⟩ | _
    · rfl
    · rcases hi : lookupNode s.document item with _ | node
      · rfl
      · simp only [Option.isNone_some, Bool.false_eq_true, if_false]
        obtain ⟨hj, -⟩ := lookupNode_eq_some hi
        refine makeRoom_write (fun _ t ht => ?_) s rfl
        rw [ht]
        exact .item hc hn rfl hj
    · rfl

theorem appendMappingPair_spec (mapping key value : Int) {c : Call} (hc : c.adds = false) :
    Holds (fun s : Building => s.document = d) (appendMappingPair mapping key value)
      (fun code s => Step d c code s.document) fun _ s => s.document = d := by
  rintro s rfl
  unfold appendMappingPair
  rw [bind_of_ok (get_apply s)]
  rcases hl : lookupNode s.document mapping with _ | ⟨tag, data, startMark, endMark⟩
  · rfl
  · obtain ⟨-, hn⟩ := lookupNode_eq_some hl
    simp only [Option.map_some]
    rcases data with _ | _ | ⟨pairs, style⟩
    · rfl
    · rfl
    · rcases hk : lookupNode s.document key with _ | keyNode
      · simp
      · rcases hv : lookupNode s.document value with _ | valueNode
        · simp
        · simp only [Option.isNone_some, Bool.false_eq_true, or_self, if_false]
          obtain ⟨hj, -⟩ := lookupNode_eq_some hk
          obtain ⟨hk, -⟩ := lookupNode_eq_some hv
          refine makeRoom_write (fun _ t ht => ?_) s rfl
          rw [ht]
          exact .pair hc hn rfl hj hk

/-- A call takes one step or leaves the document as it is. -/
theorem perform_spec (c : Call) : Holds (fun s : Building => s.document = d) (perform c)
    (fun code s => Step d c code s.document) fun _ s => s.document = d := by
  cases c with
  | initializeDocument =>
    refine (initializeDocument_spec d _ _ _ _ _).weaken (fun _ h => h) ?_ fun _ _ h => h
    rintro _ s ⟨rfl, hnil⟩
    exact .emptied rfl hnil
  | addScalar => exact addScalar_spec d _ _ _ _ rfl
  | addSequence => exact addSequence_spec d _ _ rfl
  | addMapping => exact addMapping_spec d _ _ rfl
  | appendSequenceItem => exact appendSequenceItem_spec d _ _ rfl
  | appendMappingPair => exact appendMappingPair_spec d _ _ _ rfl

end Calls

section Runs

variable {d d' : Document} {c : Call} {code : Int}

/-- The largest stack of nodes that has not refused to grow. -/
def nodeLimit : Nat := 2 ^ 24

theorem HasRoom.succ_le {n : Nat} (h : HasRoom n nodeSize) (hn : n ≤ nodeLimit) :
    n + 1 ≤ nodeLimit := by
  rcases Nat.lt_or_eq_of_le hn with hlt | rfl
  · exact hlt
  · have hfull : isFull nodeLimit = true := by decide
    exact absurd (h hfull) (by decide)

theorem cInt_of_le {n : Nat} (h : n ≤ nodeLimit) : cInt n = n := by
  unfold cInt toCInt
  have h : n ≤ 2 ^ 24 := h
  rw [Int.bmod_eq_of_le_mul_two] <;> omega

/-- The nodes refer to nodes, and their stack has grown no further than it can. -/
structure Sound (d : Document) : Prop where
  closed : d.Closed
  length_le : d.nodes.length ≤ nodeLimit

theorem mem_modify {α : Type} {l : List α} {i : Nat} {f : α → α} {x : α} (h : x ∈ l.modify i f) :
    x ∈ l ∨ ∃ y, l[i]? = some y ∧ x = f y := by
  obtain ⟨k, hk⟩ := List.mem_iff_getElem?.mp h
  rw [List.getElem?_modify] at hk
  obtain ⟨y, hy, rfl⟩ := Option.map_eq_some_iff.mp hk
  split
  · rename_i he
    exact Or.inr ⟨y, he ▸ hy, rfl⟩
  · exact Or.inl (List.mem_of_getElem? hy)

theorem Sound.withData {i : Nat} {data : NodeData} (h : Sound d)
    (hdata : ∀ j ∈ data.children, d.Has j) : Sound (withData d i data) := by
  have hlen : (Building.withData d i data).nodes.length = d.nodes.length := by
    simp [Building.withData]
  have hhas (j : Nat) (hj : d.Has j) : (Building.withData d i data).Has j :=
    ⟨hj.1, hlen ▸ hj.2⟩
  refine ⟨fun node hn j hj => hhas j ?_, hlen ▸ h.length_le⟩
  rcases mem_modify hn with hn | ⟨node, -, rfl⟩
  · exact h.closed node hn j hj
  · exact hdata j hj

theorem Sound.pushed {node : Node} (h : Sound d) (hn : node.data.children = [])
    (hroom : HasRoom d.nodes.length nodeSize) : Sound { d with nodes := d.nodes ++ [node] } := by
  refine ⟨fun n hmem j hj => ?_, ?_⟩
  · rcases List.mem_append.mp hmem with hmem | hmem
    · obtain ⟨hpos, hle⟩ := h.closed n hmem j hj
      refine ⟨hpos, ?_⟩
      simp only [List.length_append, List.length_singleton]
      omega
    · rw [List.mem_singleton.mp hmem, hn] at hj
      cases hj
  · simpa using hroom.succ_le h.length_le

/-- The children of a node that is there. -/
theorem Sound.children {i : Nat} {node : Node} (h : Sound d) (hn : d.node? i = some node) :
    ∀ j ∈ node.data.children, d.Has j := by
  unfold node? at hn
  split at hn
  · cases hn
  · exact h.closed node (List.mem_of_getElem? hn)

theorem Step.sound (h : Step d c code d') (hd : Sound d) : Sound d' := by
  cases h with
  | emptied _ hnil => exact ⟨by simp [Closed, hnil], by simp [hnil]⟩
  | added _ hn hroom => exact hd.pushed hn hroom
  | item _ hn hdata hj =>
    have hold := hd.children hn
    rw [hdata] at hold
    refine hd.withData fun k hk => ?_
    rcases List.mem_append.mp hk with hk | hk
    · exact hold k hk
    · exact List.mem_singleton.mp hk ▸ hj
  | pair _ hn hdata hj hk =>
    have hold := hd.children hn
    rw [hdata] at hold
    refine hd.withData fun l hl => ?_
    simp only [NodeData.children, List.flatMap_append, List.mem_append, List.flatMap_cons,
      List.flatMap_nil, List.append_nil, List.mem_cons, List.not_mem_nil, or_false] at hl
    rcases hl with hl | rfl | rfl
    · exact hold l hl
    · exact hj
    · exact hk

/-- The documents that calls build, once a first one has given them memory to work on. -/
inductive Built : Building → Prop
  | first {version : Option VersionDirective}
      {tagDirectives : Option (List (Option Bytes × Option Bytes))}
      {endIsNull startImplicit endImplicit : Bool} {s t : Building} {code : Int} :
      perform (.initializeDocument version tagDirectives endIsNull startImplicit endImplicit) s =
        .ok code t → Built t
  | call {s : Building} (c : Call) : Built s → Built (after c s)

theorem after_document (c : Call) (s : Building) :
    (after c s).document = s.document ∨ ∃ code, Step s.document c code (after c s).document := by
  have h := perform_spec s.document c s rfl
  unfold after
  rcases hp : perform c s with ⟨code, t⟩ | ⟨e, t⟩
  · rw [hp] at h
    exact Or.inr ⟨code, h⟩
  · rw [hp] at h
    exact Or.inl h

theorem built_sound {s : Building} (h : Built s) : Sound s.document := by
  induction h with
  | @first version tagDirectives endIsNull startImplicit endImplicit s t code h =>
    have hnil := ((initializeDocument_spec s.document version tagDirectives endIsNull
      startImplicit endImplicit).ok rfl h).2
    exact ⟨by simp [Closed, hnil], by simp [hnil]⟩
  | @call s c _ ih =>
    rcases after_document c s with h | ⟨code, h⟩
    · rw [h]
      exact ih
    · exact h.sound ih

/-- An item that is no node is refused, and one that is the sequence itself is not. -/
example : ([.addSequence none .block, .appendSequenceItem 1 2, .appendSequenceItem 1 1].foldl
    (fun s c => after c s) {}).document.nodes.map Node.data = [.sequence [1] .block] := by
  decide +kernel

/-- An add call returns the index of the node it has appended behind those there were. -/
theorem added_spec {s t : Building} (h : Built s) (hc : c.adds = true)
    (hp : perform c s = .ok code t) :
    ∃ node, t.document = { s.document with nodes := s.document.nodes ++ [node] } ∧
      code = (s.document.nodes.length + 1 : Nat) ∧
      t.document.node? (s.document.nodes.length + 1) = some node := by
  have hstep := (perform_spec s.document c).ok rfl hp
  generalize ht : t.document = d' at hstep
  cases hstep with
  | emptied hc' => simp [hc] at hc'
  | item hc' => simp [hc] at hc'
  | pair hc' => simp [hc] at hc'
  | @added node _ _ hroom =>
    have hle := hroom.succ_le (built_sound h).length_le
    exact ⟨node, rfl, cInt_of_le hle, by simp [node?]⟩

end Runs

end Building

end LibYaml
