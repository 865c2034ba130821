import LibYaml.Types

/-!
# Blocks of memory

A block is the list of its cells, `none` where nothing has been written yet.  An access outside a
block is undefined.
-/

namespace LibYaml

abbrev Cells (α : Type) := List (Option α)

namespace Cells

variable {α : Type}

def write (cells : Cells α) (i : Nat) (value : α) : Except Fault (Cells α) :=
  if i < cells.length then .ok (cells.set i (some value)) else .error .undefined

def read (cells : Cells α) (i : Nat) : Except Fault α :=
  match cells[i]? with
  | some (some value) => .ok value
  | _ => .error .undefined

/-- The values of the first `n` cells. -/
def readFirst : Nat → Cells α → Except Fault (List α)
  | 0, _ => .ok []
  | n + 1, some value :: cells => do return value :: (← readFirst n cells)
  | _ + 1, _ => .error .undefined

/-- `memmove` of `n` cells within a block. -/
def move (cells : Cells α) (dest src n : Nat) : Except Fault (Cells α) :=
  if src + n ≤ cells.length ∧ dest + n ≤ cells.length then
    .ok (cells.take dest ++ ((cells.drop src).take n ++ cells.drop (dest + n)))
  else .error .undefined

/-- `memcpy` of values into a block, and `memset`. -/
def fill (cells : Cells α) (dest : Nat) (values : List α) : Except Fault (Cells α) :=
  if dest + values.length ≤ cells.length then
    .ok (cells.take dest ++ (values.map some ++ cells.drop (dest + values.length)))
  else .error .undefined

/-- `realloc` to `n` cells. -/
def resize (cells : Cells α) (n : Nat) : Cells α :=
  cells.take n ++ List.replicate (n - cells.length) none

section Splitting

variable {before between after : Cells α} {values : List α} {c : Option α} {value : α}

theorem write_at : write (before ++ c :: after) before.length value = .ok (before ++ some value :: after) := by
  unfold write
  rw [if_pos (by simp), List.set_append_right _ _ (Nat.le_refl _), Nat.sub_self, List.set_cons_zero]

theorem read_at (before : Cells α) : read (before ++ some value :: after) before.length = .ok value := by
  unfold read
  rw [List.getElem?_append_right (Nat.le_refl _), Nat.sub_self]
  rfl

/-- Cells are moved to the front. -/
theorem move_front (before between after : Cells α) :
    ∃ rest, move (before ++ (between ++ after)) 0 before.length between.length = .ok (between ++ rest) ∧
      rest.length = before.length + after.length := by
  unfold move
  have hlen : (before ++ (between ++ after)).length = before.length + (between.length + after.length) := by simp
  rw [if_pos (by omega), List.take_zero, List.nil_append, List.drop_left, List.take_left]
  refine ⟨_, rfl, ?_⟩
  rw [List.length_drop, hlen]
  omega

/-- Cells are moved one further, over the cell behind them. -/
theorem move_up (before between after : Cells α) (c : Option α) :
    ∃ d, move (before ++ (between ++ c :: after)) (before.length + 1) before.length between.length
      = .ok (before ++ d :: (between ++ after)) := by
  unfold move
  have hlen : (before ++ (between ++ c :: after)).length
      = before.length + (between.length + (after.length + 1)) := by simp
  obtain ⟨d, ds, hd⟩ : ∃ d ds, between ++ c :: after = d :: ds := by
    cases between with
    | nil => exact ⟨c, after, rfl⟩
    | cons b bs => exact ⟨b, bs ++ c :: after, rfl⟩
  have htake : (before ++ (between ++ c :: after)).take (before.length + 1) = before ++ [d] := by
    rw [List.take_length_add_append, hd]
    rfl
  have hdrop : (before ++ (between ++ c :: after)).drop (before.length + 1 + between.length) = after := by
    rw [Nat.add_assoc, List.drop_length_add_append, Nat.add_comm, List.drop_length_add_append]
    rfl
  refine ⟨d, ?_⟩
  rw [if_pos (by omega), htake, hdrop, List.drop_left, List.take_left]
  simp

theorem fill_at (before between after : Cells α) (values : List α) (h : between.length = values.length) :
    fill (before ++ (between ++ after)) before.length values = .ok (before ++ (values.map some ++ after)) := by
  unfold fill
  rw [if_pos (by simp [h]), List.take_left, ← h, List.drop_length_add_append, List.drop_left]

theorem readFirst_values : ∀ values : List α, readFirst values.length (values.map some ++ after) = .ok values
  | [] => rfl
  | value :: values => by
    simp only [List.length_cons, List.map_cons, List.cons_append, readFirst, readFirst_values values]
    rfl

theorem resize_grow {n : Nat} (h : before.length ≤ n) :
    resize before n = before ++ List.replicate (n - before.length) none := by
  unfold resize
  rw [List.take_of_length_le h]

end Splitting

end Cells

/-! ## Sizes -/

/-- The largest `usize`. -/
def usizeMax : Nat := 2 ^ 64 - 1

/-- The last address that a process has: the other half of them is not its own. -/
def addressMax : Nat := 2 ^ 63 - 1

theorem addressMax_lt : addressMax + 5 < usizeMax := by decide

def saturatingMul (a b : Nat) : Nat := min (a * b) usizeMax

def saturatingAdd (a b : Nat) : Nat := min (a + b) usizeMax

def wrappingAdd (a b : Nat) : Nat := (a + b) % 2 ^ 64

theorem saturatingMul_of_le {a b : Nat} (h : a * b ≤ usizeMax) : saturatingMul a b = a * b :=
  Nat.min_eq_left h

theorem saturatingAdd_of_le {a b : Nat} (h : a + b ≤ usizeMax) : saturatingAdd a b = a + b :=
  Nat.min_eq_left h

theorem wrappingAdd_of_le {a b : Nat} (h : a + b ≤ usizeMax) : wrappingAdd a b = a + b := by
  have : usizeMax = 2 ^ 64 - 1 := rfl
  exact Nat.mod_eq_of_lt (by omega)

/-- What the allocator promises: a block lies among the addresses of the process, and not at the null
pointer.  It is asked for a larger block each time, so its answer is a function of the size. -/
def Allocates (realloc : Nat → Option Nat) : Prop :=
  ∀ n start, realloc n = some start → 0 < start ∧ start + n ≤ addressMax

/-- The allocator has no room for some size. -/
def Exhausted (realloc : Nat → Option Nat) : Prop := ∃ n, realloc n = none

/-- What an operation comes to: a result, or a failure to allocate. -/
def Results (exhausted : Prop) {β : Type} (x : Except Fault β) (P : β → Prop) : Prop :=
  (∃ b, x = .ok b ∧ P b) ∨ x = .error (.reported .memory) ∧ exhausted

namespace Results

variable {exhausted : Prop} {β γ : Type} {x : Except Fault β} {f : β → Except Fault γ} {P R : β → Prop} {Q : γ → Prop}

theorem bind (h : Results exhausted x P) (hf : ∀ b, P b → Results exhausted (f b) Q) :
    Results exhausted (x >>= f) Q := by
  rcases h with ⟨b, rfl, hb⟩ | ⟨rfl, hn⟩
  · exact hf b hb
  · exact .inr ⟨rfl, hn⟩

theorem weaken (h : Results exhausted x P) (hp : ∀ b, P b → R b) : Results exhausted x R :=
  h.imp_left fun ⟨b, hx, hb⟩ => ⟨b, hx, hp b hb⟩

end Results

end LibYaml
