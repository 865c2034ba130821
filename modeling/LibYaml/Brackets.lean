import Mathlib.Combinatorics.Enumerative.DyckWord

/-!
# Open brackets

Words of brackets in which nothing closes that is not open, with the number of brackets they leave
open.  An opening bracket may be put in anywhere.
-/

namespace Brackets

open DyckStep

variable {n : Nat} {l k : List DyckStep}

/-- Nothing closes that is not open, and `n` brackets are still open at the end. -/
structure Opened (n : Nat) (l : List DyckStep) : Prop where
  prefixes : ∀ i, (l.take i).count D ≤ (l.take i).count U
  total : l.count U = l.count D + n

namespace Opened

theorem nil : Opened 0 [] := ⟨fun i => by simp, rfl⟩

theorem insert (h : Opened n (l ++ k)) : Opened (n + 1) (l ++ U :: k) := by
  refine ⟨fun i => ?_, ?_⟩
  · rcases Nat.lt_or_ge l.length i with hi | hi
    · obtain ⟨j, rfl⟩ : ∃ j, i = l.length + (j + 1) := ⟨i - l.length - 1, by omega⟩
      have := h.prefixes (l.length + j)
      rw [List.take_length_add_append] at this ⊢
      simp only [List.take_succ_cons, List.count_append, List.count_cons] at this ⊢
      simp
      omega
    · have := h.prefixes i
      rwa [List.take_append_of_le_length hi] at this ⊢
  · have := h.total
    simp only [List.count_append, List.count_cons] at this ⊢
    simp
    omega

theorem push (h : Opened n l) : Opened (n + 1) (l ++ [U]) := by
  rw [← List.append_nil l] at h
  exact h.insert

theorem pop (h : Opened (n + 1) l) : Opened n (l ++ [D]) := by
  have htotal := h.total
  refine ⟨fun i => ?_, by simp; omega⟩
  rcases Nat.lt_or_ge l.length i with hi | hi
  · rw [List.take_of_length_le (by simp; omega)]
    simp
    omega
  · have := h.prefixes i
    rwa [List.take_append_of_le_length hi]

/-- A word that leaves no bracket open is balanced. -/
theorem balanced (h : Opened 0 l) : ∃ w : DyckWord, w.toList = l :=
  ⟨⟨l, h.total, h.prefixes⟩, rfl⟩

end Opened

end Brackets
