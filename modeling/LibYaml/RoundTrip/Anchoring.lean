import LibYaml.Dumper
import LibYaml.Graph.DepthFirst
import Mathlib.Data.List.TakeWhile
import Mathlib.Tactic.IntervalCases

/-!
# Counting references

The first pass of the dumper refers to the nodes of a document in the order of a depth-first walk
(`anchorNode_walk`).  It leaves an anchor of its own on each node that is referred to more than
once (`Anchored`).
-/

namespace LibYaml

namespace Dumper

open Fallible DepthFirst

variable {α σ : Type} {d : Document} {s : Dumper σ} {seen seen' as : List Nat} {i j : Nat}

/-! ## Anchor texts -/

theorem digit_eq {n : Nat} (h : n < 10) : (digit n).toNat = 48 + n := by
  interval_cases n <;> rfl

/-- The digits in an anchor's text, least significant first. -/
def digitsOf (anchorId : Nat) : List Nat :=
  Nat.digits 10 anchorId ++ List.replicate (3 - (Nat.digits 10 anchorId).length) 0

theorem digitsOf_lt {n k : Nat} (h : k ∈ digitsOf n) : k < 10 := by
  rcases List.mem_append.mp h with h | h
  · exact Nat.digits_lt_base (by omega) h
  · rw [List.eq_of_mem_replicate h]
    omega

theorem generateAnchor_injective {m n : Nat} (h : generateAnchor m = generateAnchor n) : m = n := by
  have hd : (digitsOf m).reverse.map digit = (digitsOf n).reverse.map digit :=
    List.append_cancel_left h
  have h' := congrArg (List.map (·.toNat - 48)) hd
  have hback (k : Nat) : ((digitsOf k).reverse.map digit).map (·.toNat - 48) =
      (digitsOf k).reverse := by
    rw [List.map_map]
    refine (List.map_congr_left fun c hc => ?_).trans (List.map_id _)
    simp [digit_eq (digitsOf_lt (List.mem_reverse.mp hc))]
  rw [hback, hback, List.reverse_inj] at h'
  have hval (k : Nat) : Nat.ofDigits 10 (digitsOf k) = k := by
    rw [digitsOf, Nat.ofDigits_append_replicate_zero, Nat.ofDigits_digits]
  rw [← hval m, h', hval]

theorem cstr_generateAnchor (n : Nat) : cstr (generateAnchor n) = generateAnchor n := by
  refine List.takeWhile_eq_self_iff.mpr fun b hb => ?_
  rcases List.mem_append.mp hb with h | h
  · simp only [List.mem_cons, List.not_mem_nil, or_false] at h
    rcases h with rfl | rfl <;> decide
  · obtain ⟨k, hk, rfl⟩ := List.mem_map.mp h
    have hlt : k < 10 := digitsOf_lt (List.mem_reverse.mp hk)
    have hd := digit_eq hlt
    simp only [ne_eq, decide_eq_true_eq]
    intro he
    rw [he] at hd
    have : (0 : UInt8).toNat = 0 := rfl
    omega

/-! ## References -/

def anchorsAt (s : Dumper σ) (i : Nat) : Anchors := s.anchors[i - 1]?.getD {}

/-- What is known about a node once one more reference is counted. -/
def counted (s : Dumper σ) (i : Nat) : Anchors :=
  { anchorsAt s i with
    references := (anchorsAt s i).references + 1
    anchor := if (anchorsAt s i).references + 1 = 2 then s.lastAnchorId + 1
      else (anchorsAt s i).anchor }

/-- The dumper once it has counted one more reference. -/
def touch (s : Dumper σ) (i : Nat) : Dumper σ :=
  { s with
    lastAnchorId := if (anchorsAt s i).references + 1 = 2 then s.lastAnchorId + 1
      else s.lastAnchorId
    anchors := s.anchors.set (i - 1) (counted s i) }

/-- Everything but the anchors is as before. -/
def Frame (s s' : Dumper σ) : Prop :=
  s'.sink = s.sink ∧ s'.opened = s.opened ∧ s'.closed = s.closed ∧ s'.document = s.document ∧
    s'.anchors.length = s.anchors.length

theorem Frame.refl (s : Dumper σ) : Frame s s := ⟨rfl, rfl, rfl, rfl, rfl⟩

theorem Frame.trans {s s' s'' : Dumper σ} (h : Frame s s') (h' : Frame s' s'') : Frame s s'' :=
  ⟨h'.1.trans h.1, h'.2.1.trans h.2.1, h'.2.2.1.trans h.2.2.1, h'.2.2.2.1.trans h.2.2.2.1,
    h'.2.2.2.2.trans h.2.2.2.2⟩

theorem frame_touch (s : Dumper σ) (i : Nat) : Frame s (touch s i) := by
  simp [Frame, touch]

theorem frame_foldl (s : Dumper σ) (is : List Nat) : Frame s (is.foldl touch s) := by
  induction is generalizing s with
  | nil => exact .refl s
  | cons i is ih => exact (frame_touch s i).trans (ih _)

theorem anchorsAt_touch (h : i - 1 < s.anchors.length) (j : Nat) :
    anchorsAt (touch s i) j = if j - 1 = i - 1 then counted s i else anchorsAt s j := by
  by_cases he : j - 1 = i - 1
  · simp [touch, anchorsAt, he, h]
  · have : ¬i - 1 = j - 1 := fun h => he h.symm
    simp [touch, anchorsAt, he, this]

theorem anchorsAt_congr (h : i - 1 = j - 1) : anchorsAt s i = anchorsAt s j := by
  rw [anchorsAt, anchorsAt, h]

theorem references_touch (h : i - 1 < s.anchors.length) (hi : 0 < i) (hj : 0 < j) :
    (anchorsAt (touch s i) j).references =
      (anchorsAt s j).references + if i = j then 1 else 0 := by
  rw [anchorsAt_touch h]
  by_cases he : i = j
  · subst he
    simp [counted]
  · have : ¬j - 1 = i - 1 := by omega
    simp [he, this]

/-- The walk has come to the nodes `seen`. -/
structure Counted (d : Document) (seen : List Nat) (s : Dumper σ) : Prop where
  document : s.document = some d
  length : s.anchors.length = d.nodes.length
  references : ∀ j, d.Has j → ((anchorsAt s j).references = 0 ↔ j ∉ seen)

theorem Counted.touch (h : Counted d seen s) (hi : d.Has i) :
    Counted d (seen ++ [i]) (touch s i) := by
  have hf := frame_touch s i
  refine ⟨hf.2.2.2.1.trans h.document, hf.2.2.2.2.trans h.length, fun j hj => ?_⟩
  have hlt : i - 1 < s.anchors.length := by
    have := h.length
    have := hi.1
    have := hi.2
    omega
  rw [references_touch hlt hi.1 hj.1]
  by_cases he : i = j
  · simp [he]
  · have : ¬j = i := fun h => he h.symm
    simp [he, this, h.references j hj]

theorem Counted.congr (h : Counted d seen s) (he : ∀ j, j ∈ seen ↔ j ∈ seen') :
    Counted d seen' s :=
  ⟨h.document, h.length, fun j hj => (h.references j hj).trans (not_congr (he j))⟩

theorem forM_cons (f : α → DumpM σ Unit) (a : α) (as : List α) :
    (a :: as).forM f = f a >>= fun _ => as.forM f := rfl

theorem forM_pairs (f : Nat → DumpM σ Unit) (pairs : List (Nat × Nat)) :
    (pairs.forM fun pair => do f pair.1; f pair.2) =
      (pairs.flatMap fun p => [p.1, p.2]).forM f := by
  induction pairs with
  | nil => rfl
  | cons p pairs ih =>
    funext s
    simp only [List.flatMap_cons, List.cons_append, List.nil_append, forM_cons, ← ih, bind_apply]
    cases f p.1 s <;> rfl

theorem lookup_ok (h : s.document = some d) (hl : s.anchors.length = d.nodes.length)
    (hi : d.Has i) {node : Node} (hn : d.node? i = some node) :
    lookup i s = .ok (node, anchorsAt s i) s := by
  have hlt : i - 1 < s.anchors.length := by
    have := hi.1
    have := hi.2
    omega
  simp [lookup, h, hn, anchorsAt, List.getElem?_eq_getElem hlt]

theorem reference_ok : reference i (anchorsAt s i) s = .ok () (touch s i) := by
  unfold reference touch counted
  split <;> simp_all

/-- What the first pass does at an index. -/
theorem anchorNode_ok {fuel : Nat} (h : Counted d seen s) (hi : d.Has i) :
    anchorNode (fuel + 1) i s =
      if i ∈ seen then .ok () (touch s i) else (d.children i).forM (anchorNode fuel) (touch s i) := by
  obtain ⟨node, hn, -⟩ := hi.node
  have hz : ¬(s.document.isNone = true ∨ i = 0) := by
    have := hi.1
    simp [h.document]
    omega
  rw [anchorNode, bind_of_ok (get_apply s), if_neg hz,
    bind_of_ok (lookup_ok h.document h.length hi hn)]
  simp only []
  rw [bind_of_ok reference_ok]
  have hone : (anchorsAt s i).references + 1 = 1 ↔ i ∉ seen := by
    rw [← h.references i hi]
    omega
  by_cases hs : i ∈ seen
  · rw [if_neg (fun h => (hone.mp h) hs), if_pos hs]
    rfl
  · rw [if_pos (hone.mpr hs), if_neg hs, Document.children, hn, Option.map_some,
      Option.getD_some]
    cases node.data with
    | scalar => rfl
    | sequence => rfl
    | mapping pairs style => exact congrFun (forM_pairs _ pairs) _

/-- The first pass counts the references of a walk, in turn. -/
theorem anchorNode_walk (hc : ∀ i, d.Has i → ∀ j ∈ d.children i, d.Has j)
    {t : List (Step Nat)} (h : Walk d.children seen as t seen') :
    ∀ (fuel : Nat) {s : Dumper σ}, Counted d seen s → (∀ i ∈ as, d.Has i) →
      seen'.length < seen.length + fuel →
      as.forM (anchorNode fuel) s = .ok () ((t.filterMap Step.target).foldl touch s) ∧
        Counted d seen' ((t.filterMap Step.target).foldl touch s) := by
  induction h with
  | nil => exact fun _ _ hs _ _ => ⟨rfl, hs⟩
  | @again seen seen' as a t ha h ih =>
    intro fuel s hs has hlt
    have hle := h.length_le
    obtain ⟨fuel, rfl⟩ : ∃ n, fuel = n + 1 := ⟨fuel - 1, by omega⟩
    have hi := has a List.mem_cons_self
    have hs' : Counted d seen (touch s a) :=
      (hs.touch hi).congr fun j => by
        simp only [List.mem_append, List.mem_singleton, or_iff_left_iff_imp]
        rintro rfl
        exact ha
    have hstep : anchorNode (fuel + 1) a s = .ok () (touch s a) := by
      rw [anchorNode_ok hs hi, if_pos ha]
    rw [forM_cons, bind_of_ok hstep]
    exact ih _ hs' (fun b hb => has b (List.mem_cons_of_mem _ hb)) hlt
  | @enter seen seen' seen'' as a t u ha h₁ h₂ ih₁ ih₂ =>
    intro fuel s hs has hlt
    have hle₁ := h₁.length_le
    have hle₂ := h₂.length_le
    simp only [List.length_append, List.length_singleton] at hle₁
    obtain ⟨fuel, rfl⟩ : ∃ n, fuel = n + 1 := ⟨fuel - 1, by omega⟩
    have hi := has a List.mem_cons_self
    obtain ⟨hok₁, hs₁⟩ := ih₁ fuel (hs.touch hi) (hc a hi) (by simp; omega)
    obtain ⟨hok₂, hs₂⟩ := ih₂ (fuel + 1) hs₁
      (fun b hb => has b (List.mem_cons_of_mem _ hb)) (by omega)
    have hstep : anchorNode (fuel + 1) a s =
        .ok () ((t.filterMap Step.target).foldl touch (touch s a)) := by
      rw [anchorNode_ok hs hi, if_neg ha, hok₁]
    have hfold : (Step.enter a :: (t ++ .leave a :: u)).filterMap Step.target =
        a :: (t.filterMap Step.target ++ u.filterMap Step.target) := by
      simp [List.filterMap_cons, Step.target]
    rw [forM_cons, bind_of_ok hstep, hok₂, hfold, List.foldl_cons, List.foldl_append]
    exact ⟨rfl, hs₂⟩

/-! ## Anchors -/

/-- No two nodes have the same anchor. -/
def Distinct (A : Nat → Nat) : Prop := ∀ i j, 0 < i → 0 < j → A i ≠ 0 → A i = A j → i = j

/-- Just the nodes with more than one reference have an anchor, each its own. -/
structure Anchored (s : Dumper σ) : Prop where
  anchor : ∀ i, (anchorsAt s i).anchor ≠ 0 ↔ 2 ≤ (anchorsAt s i).references
  le : ∀ i, (anchorsAt s i).anchor ≤ s.lastAnchorId
  injective : Distinct fun i => (anchorsAt s i).anchor

theorem Anchored.touch (h : Anchored s) (hi : i - 1 < s.anchors.length) : Anchored (touch s i) := by
  have hle := h.le
  have hat := anchorsAt_touch hi
  have hai := h.anchor i
  have hlast : (Dumper.touch s i).lastAnchorId = if (anchorsAt s i).references + 1 = 2
    then s.lastAnchorId + 1 else s.lastAnchorId := rfl
  refine ⟨fun j => ?_, fun j => ?_, fun j k hj hk hne he => ?_⟩
  · rw [hat]
    split
    · simp only [counted]
      split <;> omega
    · exact h.anchor j
  · have := hle i
    have := hle j
    rw [hat, hlast]
    split
    · simp only [counted]
      split <;> omega
    · split <;> omega
  · have hlj := hle j
    have hlk := hle k
    simp only [] at hne he
    rw [hat] at hne he
    rw [hat k] at he
    by_cases hji : j - 1 = i - 1 <;> by_cases hki : k - 1 = i - 1
    · omega
    · rw [if_pos hji] at hne he
      rw [if_neg hki] at he
      simp only [counted] at hne he
      split at he
      · omega
      · rw [if_neg ‹_›] at hne
        rw [anchorsAt_congr hji.symm] at hne he
        exact h.injective j k hj hk hne he
    · rw [if_neg hji] at hne he
      rw [if_pos hki] at he
      simp only [counted] at he
      split at he
      · omega
      · rw [anchorsAt_congr hki.symm] at he
        exact h.injective j k hj hk hne he
    · rw [if_neg hji] at hne he
      rw [if_neg hki] at he
      exact h.injective j k hj hk hne he

theorem anchored_foldl {is : List Nat} : ∀ {s : Dumper σ}, Anchored s →
    (∀ i ∈ is, i - 1 < s.anchors.length) → Anchored (is.foldl touch s) := by
  induction is with
  | nil => exact fun h _ => h
  | cons i is ih =>
    intro s h hlt
    refine ih (h.touch (hlt i List.mem_cons_self)) fun j hj => ?_
    rw [(frame_touch s i).2.2.2.2]
    exact hlt j (List.mem_cons_of_mem _ hj)

theorem references_foldl {is : List Nat} (hj : 0 < j) : ∀ {s : Dumper σ},
    (∀ i ∈ is, 0 < i ∧ i - 1 < s.anchors.length) →
    (anchorsAt (is.foldl touch s) j).references = (anchorsAt s j).references + is.count j := by
  induction is with
  | nil => simp
  | cons i is ih =>
    intro s hlt
    have hi := hlt i List.mem_cons_self
    rw [List.foldl_cons, ih fun k hk => ?_, references_touch hi.2 hi.1 hj, List.count_cons]
    · simp only [beq_iff_eq]
      omega
    · rw [(frame_touch s i).2.2.2.2]
      exact hlt k (List.mem_cons_of_mem _ hk)

theorem serialized_foldl {is : List Nat} : ∀ {s : Dumper σ},
    (∀ i ∈ is, i - 1 < s.anchors.length) →
    (anchorsAt (is.foldl touch s) j).serialized = (anchorsAt s j).serialized := by
  induction is with
  | nil => simp
  | cons i is ih =>
    intro s hlt
    rw [List.foldl_cons, ih fun k hk => ?_, anchorsAt_touch (hlt i List.mem_cons_self)]
    · split
      · rename_i he
        rw [anchorsAt_congr he]
        rfl
      · rfl
    · rw [(frame_touch s i).2.2.2.2]
      exact hlt k (List.mem_cons_of_mem _ hk)

end Dumper

end LibYaml
