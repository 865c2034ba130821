import Mathlib.Data.List.Nodup
import Mathlib.Data.List.Count
import Mathlib.Data.List.Infix
import Mathlib.Data.List.Perm.Subperm
import Mathlib.Logic.Relation

/-!
# Depth-first walks

A depth-first walk from a list of nodes enters each node where it first meets it, walks from what
the node leads to, and leaves it; a node it has been to before it only touches `again`.  From any
node of a finite graph there is such a walk (`exists_walk`), and it enters just what can be reached
(`Walk.mem_iff`), once each (`Walk.nodup`).
-/

namespace DepthFirst

variable {α : Type}

inductive Step (α : Type)
  | enter (a : α)
  | again (a : α)
  | leave (a : α)

/-- A walk from the nodes of a list, in turn, with those entered so far before and after it in the
order they were entered in. -/
inductive Walk (succ : α → List α) : List α → List α → List (Step α) → List α → Prop
  | nil {seen : List α} : Walk succ seen [] [] seen
  | again {seen seen' as : List α} {a : α} {t : List (Step α)} : a ∈ seen →
      Walk succ seen as t seen' → Walk succ seen (a :: as) (.again a :: t) seen'
  | enter {seen seen' seen'' as : List α} {a : α} {t u : List (Step α)} : a ∉ seen →
      Walk succ (seen ++ [a]) (succ a) t seen' → Walk succ seen' as u seen'' →
      Walk succ seen (a :: as) (.enter a :: (t ++ .leave a :: u)) seen''

def Reach (succ : α → List α) : α → α → Prop := Relation.ReflTransGen fun a b => b ∈ succ a

/-- The node that a step refers to when it reaches it, rather than leaves it. -/
def Step.target : Step α → Option α
  | .enter a | .again a => some a
  | .leave _ => none

def Step.entered : Step α → Option α
  | .enter a => some a
  | .again _ | .leave _ => none

namespace Walk

variable {succ : α → List α} {seen seen' as : List α} {t : List (Step α)} {a b : α}

theorem eq_append (h : Walk succ seen as t seen') : seen' = seen ++ t.filterMap Step.entered := by
  induction h with
  | nil => simp
  | again _ _ ih => simpa [List.filterMap_cons, Step.entered] using ih
  | enter _ _ _ ih₁ ih₂ =>
    rw [ih₂, ih₁]
    simp [List.filterMap_cons, Step.entered]

theorem isPrefix (h : Walk succ seen as t seen') : seen <+: seen' :=
  ⟨_, h.eq_append.symm⟩

theorem length_le (h : Walk succ seen as t seen') : seen.length ≤ seen'.length :=
  h.isPrefix.length_le

theorem nodup (h : Walk succ seen as t seen') (hn : seen.Nodup) : seen'.Nodup := by
  induction h with
  | nil => exact hn
  | again _ _ ih => exact ih hn
  | enter ha _ _ ih₁ ih₂ => exact ih₂ (ih₁ (by simp [List.nodup_append, hn]; grind))

theorem mem (h : Walk succ seen as t seen') (ha : a ∈ as) : a ∈ seen' := by
  induction h with
  | nil => cases ha
  | again hs h ih =>
    rcases List.mem_cons.mp ha with rfl | ha
    · exact h.isPrefix.subset hs
    · exact ih ha
  | enter _ h₁ h₂ _ ih₂ =>
    rcases List.mem_cons.mp ha with rfl | ha
    · exact h₂.isPrefix.subset (h₁.isPrefix.subset (by simp))
    · exact ih₂ ha

/-- What was entered on the way leads nowhere else. -/
theorem closed (h : Walk succ seen as t seen') (ha : a ∈ seen') (hs : a ∉ seen) (hb : b ∈ succ a) :
    b ∈ seen' := by
  induction h with
  | nil => exact absurd ha hs
  | again _ _ ih => exact ih ha hs
  | @enter seen seen' seen'' as c t u _ h₁ h₂ ih₁ ih₂ =>
    by_cases hs' : a ∈ seen'
    · by_cases hc : a ∈ seen ++ [c]
      · obtain rfl : a = c := by simpa [hs] using hc
        exact h₂.isPrefix.subset (h₁.mem hb)
      · exact h₂.isPrefix.subset (ih₁ hs' hc)
    · exact ih₂ ha hs'

theorem reach (h : Walk succ seen as t seen') (ha : a ∈ seen') :
    a ∈ seen ∨ ∃ r ∈ as, Reach succ r a := by
  induction h with
  | nil => exact Or.inl ha
  | again _ _ ih =>
    rcases ih ha with h | ⟨r, hr, h⟩
    · exact Or.inl h
    · exact Or.inr ⟨r, List.mem_cons_of_mem _ hr, h⟩
  | @enter seen seen' seen'' as c t u _ _ _ ih₁ ih₂ =>
    rcases ih₂ ha with h | ⟨r, hr, h⟩
    · rcases ih₁ h with h | ⟨r, hr, h⟩
      · rcases List.mem_append.mp h with h | h
        · exact Or.inl h
        · obtain rfl : a = c := by simpa using h
          exact Or.inr ⟨a, List.mem_cons_self, .refl⟩
      · exact Or.inr ⟨c, List.mem_cons_self, .head hr h⟩
    · exact Or.inr ⟨r, List.mem_cons_of_mem _ hr, h⟩

/-- A walk from scratch enters just what can be reached. -/
theorem mem_iff (h : Walk succ [] as t seen') : a ∈ seen' ↔ ∃ r ∈ as, Reach succ r a := by
  constructor
  · intro ha
    simpa using h.reach ha
  · rintro ⟨r, hr, hra⟩
    induction hra with
    | refl => exact h.mem hr
    | tail _ hb ih => exact h.closed ih (by simp) hb

theorem target_mem (h : Walk succ seen as t seen') (ha : a ∈ t.filterMap Step.target) :
    a ∈ seen' := by
  induction h with
  | nil => simp at ha
  | again hc h ih =>
    rw [List.filterMap_cons_some (f := Step.target) rfl] at ha
    rcases List.mem_cons.mp ha with rfl | ha
    · exact h.isPrefix.subset hc
    · exact ih ha
  | @enter seen seen' seen'' as c t u _ h₁ h₂ ih₁ ih₂ =>
    rw [List.filterMap_cons_some (f := Step.target) (b := c) rfl, List.filterMap_append,
      List.filterMap_cons_none rfl] at ha
    rcases List.mem_cons.mp ha with rfl | ha
    · exact h₂.isPrefix.subset (h₁.isPrefix.subset (by simp))
    · rcases List.mem_append.mp ha with ha | ha
      · exact h₂.isPrefix.subset (ih₁ ha)
      · exact ih₂ ha

theorem enter_of_again (h : Walk succ seen as t seen') (ha : .again a ∈ t) :
    a ∈ seen ∨ .enter a ∈ t := by
  induction h with
  | nil => cases ha
  | @again seen seen' as c t hc _ ih =>
    rcases List.mem_cons.mp ha with he | ha
    · obtain rfl := Step.again.inj he
      exact Or.inl hc
    · exact (ih ha).imp id (List.mem_cons_of_mem _)
  | @enter seen seen' seen'' as c t u _ h₁ _ ih₁ ih₂ =>
    have hinner (h : a ∈ seen ++ [c] ∨ .enter a ∈ t) :
        a ∈ seen ∨ .enter a ∈ .enter c :: (t ++ .leave c :: u) := by
      rcases h with h | h
      · rcases List.mem_append.mp h with h | h
        · exact Or.inl h
        · obtain rfl : a = c := by simpa using h
          exact Or.inr List.mem_cons_self
      · exact Or.inr (by simp [h])
    have ha' : .again a ∈ t ∨ .again a ∈ u := by simpa using ha
    rcases ha' with ha | ha
    · exact hinner (ih₁ ha)
    · rcases ih₂ ha with h | h
      · refine hinner ?_
        rw [h₁.eq_append, List.mem_append] at h
        refine h.imp id fun h => ?_
        obtain ⟨s, hs, he⟩ := List.mem_filterMap.mp h
        cases s <;> simp only [Step.entered, Option.some.injEq, reduceCtorEq] at he
        exact he ▸ hs
      · exact Or.inr (by simp [h])

end Walk

variable [DecidableEq α] in
theorem one_le_count {a : α} {s : Step α} (hs : s.target = some a) {t : List (Step α)}
    (h : s ∈ t) : 1 ≤ (t.filterMap Step.target).count a :=
  List.one_le_count_iff.mpr (List.mem_filterMap.mpr ⟨s, h, hs⟩)

variable [DecidableEq α] in
theorem two_le_count {a : α} : ∀ {t : List (Step α)}, .enter a ∈ t → .again a ∈ t →
    2 ≤ (t.filterMap Step.target).count a
  | [], h, _ => by cases h
  | .leave b :: t, he, ha => by
    simpa [List.filterMap_cons, Step.target] using
      two_le_count (t := t) (by simpa using he) (by simpa using ha)
  | .enter b :: t, he, ha => by
    have ha : .again a ∈ t := by simpa using ha
    have h1 := one_le_count (s := .again a) rfl ha
    rw [List.filterMap_cons_some (f := Step.target) (b := b) rfl, List.count_cons]
    by_cases hb : b = a
    · simp only [hb, beq_self_eq_true, if_true]
      omega
    · have he : .enter a ∈ t := by
        have : ¬a = b := fun h => hb h.symm
        simpa [this] using he
      exact Nat.le_trans (two_le_count he ha) (Nat.le_add_right _ _)
  | .again b :: t, he, ha => by
    have he : .enter a ∈ t := by simpa using he
    have h1 := one_le_count (s := .enter a) rfl he
    rw [List.filterMap_cons_some (f := Step.target) (b := b) rfl, List.count_cons]
    by_cases hb : b = a
    · simp only [hb, beq_self_eq_true, if_true]
      omega
    · have ha : .again a ∈ t := by
        have : ¬a = b := fun h => hb h.symm
        simpa [this] using ha
      exact Nat.le_trans (two_le_count he ha) (Nat.le_add_right _ _)

/-- In a finite graph there is a walk from any nodes. -/
theorem exists_walk (succ : α → List α) (V : List α) (hV : ∀ a ∈ V, ∀ b ∈ succ a, b ∈ V) :
    ∀ (n : Nat) (seen as : List α), seen.Nodup → (∀ a ∈ seen, a ∈ V) →
      V.length ≤ seen.length + n → (∀ a ∈ as, a ∈ V) →
      ∃ t seen', Walk succ seen as t seen' ∧ ∀ a ∈ seen', a ∈ V := by
  intro n
  induction n with
  | zero =>
    intro seen as hn hs hl has
    have hall : ∀ a ∈ V, a ∈ seen :=
      fun a ha => (List.subperm_of_subset hn hs).perm_of_length_le (by omega) |>.mem_iff.mpr ha
    induction as with
    | nil => exact ⟨[], seen, .nil, hs⟩
    | cons a as ih =>
      obtain ⟨t, seen', ht, hs'⟩ := ih fun b hb => has b (List.mem_cons_of_mem _ hb)
      exact ⟨_, seen', .again (hall a (has a List.mem_cons_self)) ht, hs'⟩
  | succ n ihn =>
    intro seen as hn hs hl has
    induction as generalizing seen with
    | nil => exact ⟨[], seen, .nil, hs⟩
    | cons a as ih =>
      have has' : ∀ b ∈ as, b ∈ V := fun b hb => has b (List.mem_cons_of_mem _ hb)
      by_cases ha : a ∈ seen
      · obtain ⟨t, seen', ht, hs'⟩ := ih seen hn hs hl has'
        exact ⟨_, seen', .again ha ht, hs'⟩
      · have haV := has a List.mem_cons_self
        obtain ⟨t, seen', ht, hs'⟩ := ihn (seen ++ [a]) (succ a)
          (by simp [List.nodup_append, hn]; grind) (by grind) (by simp; omega) (hV a haV)
        have hn' := ht.nodup (by simp [List.nodup_append, hn]; grind)
        have hlen := ht.length_le
        obtain ⟨u, seen'', hu, hs''⟩ := ih seen' hn' hs' (by simp at hlen; omega) has'
        exact ⟨_, seen'', .enter ha ht hu, hs''⟩

end DepthFirst
