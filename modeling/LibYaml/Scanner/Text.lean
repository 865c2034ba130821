import LibYaml.Scanner.Views

/-!
# Scanning a text

A text that has been read whole is an input too.  On it nothing has to be cached and the macros move
over one character after the other, so a run of the scanner is a computation on the text.
-/

namespace LibYaml

open Fallible
open EStateM (Result)

/-- The text still to come. -/
instance : Input Bytes where
  cache _ := pure ()
  view := view
  advance k b := b.drop k
  encoding _ := .utf8
  size := List.length
  view_advance k b := by
    funext j
    simp [view, behind, List.getD_eq_getElem?_getD]

section Views

variable {c r : Bytes}

theorem view_cons_succ (b : UInt8) (r : Bytes) (k : Nat) : view (b :: r) (k + 1) = view r k := by
  simp [view]

theorem view_nil (k : Nat) : view [] k = 0 := by simp [view]

theorem view_append_lt {k : Nat} (h : k < c.length) : view (c ++ r) k = view c k := by
  simp [view, List.getD_eq_getElem?_getD, List.getElem?_append_left h]

theorem view_append_add (k : Nat) : view (c ++ r) (c.length + k) = view r k := by
  simp [view, List.getD_eq_getElem?_getD, List.getElem?_append_right]

theorem width_character (h : IsCharacter c) : width (view (c ++ r)) = c.length := by
  obtain ⟨hne, hw⟩ := h
  cases c with
  | nil => exact absurd rfl hne
  | cons b c => exact hw

/-- A check of one character does not see what stands behind it. -/
theorem agree_character (h : IsCharacter c) : Agree 1 (view (c ++ r)) (view c) := by
  have hpos := h.length_pos
  refine ⟨view_append_lt hpos, fun _ => ⟨?_, fun k hk => ?_, trivial⟩⟩
  · rw [width_character h]
    exact hpos
  · rw [width_character h] at hk
    exact view_append_lt hk

/-- A check of two characters does not see what stands behind them. -/
theorem agree_two {d : Bytes} (h : IsCharacter c) (hd : IsCharacter d) :
    Agree 2 (view (c ++ (d ++ r))) (view (c ++ d)) := by
  have hpos := h.length_pos
  refine ⟨?_, fun _ => ⟨?_, fun k hk => ?_, ?_⟩⟩
  · rw [view_append_lt hpos, view_append_lt hpos]
  · rw [width_character h]
    exact hpos
  · rw [width_character h] at hk
    rw [view_append_lt hk, view_append_lt hk]
  · have hn (r : Bytes) : next (view (c ++ r)) = view r := by
      funext k
      rw [next, behind, width_character h, view_append_add]
    rw [hn, hn]
    exact agree_character hd

theorem character_append (h : IsCharacter c) : character (view (c ++ r)) = c := by
  unfold character
  rw [width_character h]
  refine List.ext_getElem (by simp) fun k hk _ => ?_
  have hk : k < c.length := by simpa using hk
  rw [List.getElem_map, List.getElem_range, view_append_lt hk]
  simp [view, hk]

theorem isCharacter_ascii {b : UInt8} (h : b < 0x80) : IsCharacter [b] :=
  isCharacter_singleton (octetWidth_ascii h)

end Views

namespace Mark

/-- The mark `n` characters further on the line. -/
def right (m : Mark) (n : Nat) : Mark := ⟨m.index + n, m.line, m.column + n⟩

/-- The mark at the start of the next line, `n` characters further. -/
def down (m : Mark) (n : Nat) : Mark := ⟨m.index + n, m.line + 1, 0⟩

@[simp] theorem right_column (m : Mark) (n : Nat) : (m.right n).column = m.column + n := rfl

theorem right_right (m : Mark) (k n : Nat) : (m.right k).right n = m.right (k + n) := by
  simp [right, Nat.add_assoc]

@[simp] theorem right_zero (m : Mark) : m.right 0 = m := rfl

end Mark

namespace Scanner

/-- The scanner at another place of its text. -/
def reading (s : Scanner Bytes) (m : Mark) (b : Bytes) : Scanner Bytes :=
  { s with mark := m, input := b }

theorem repeatedly_yields {ι α β : Type} [Input ι] {body : α → ScanM ι (Round α β)} {P : α → Scanner ι → Prop}
    {Q : β → Scanner ι → Prop}
    (h : ∀ a s, P a s → Yields (body a) s (Round.elim
      (fun a t => P a t ∧ Input.size t.input < Input.size s.input) Q)) {a : α} {s : Scanner ι}
    (ha : P a s) : Yields (repeatedly body a) s Q :=
  .step (get_apply s) (.loop (Input.size ·.input) h _ a s ha (Nat.lt_succ_self _))

section Moves

variable {s : Scanner Bytes} {m : Mark} {b c r string : Bytes} {α β : Type}

theorem cache_text (n : Nat) : cache n (s.reading m b) = .ok () (s.reading m b) := rfl

theorem look_text (f : View → α) : look f (s.reading m b) = .ok (f (view b)) (s.reading m b) := rfl

theorem getMark_text : getMark (s.reading m b) = .ok m (s.reading m b) := rfl

theorem getIndent_text : getIndent (s.reading m b) = .ok s.indent (s.reading m b) := rfl

theorem inFlow_text : inFlow (s.reading m b) = .ok (decide (s.flowLevel ≠ 0)) (s.reading m b) := rfl

theorem look_bind (f : View → α) (x : α → ScanM Bytes β) :
    (look f >>= x) (s.reading m b) = x (f (view b)) (s.reading m b) := rfl

theorem cache_bind (n : Nat) (x : Unit → ScanM Bytes β) :
    (cache n >>= x) (s.reading m b) = x () (s.reading m b) := rfl

theorem getMark_bind (x : Mark → ScanM Bytes β) :
    (getMark >>= x) (s.reading m b) = x m (s.reading m b) := rfl

theorem getIndent_bind (x : Int → ScanM Bytes β) :
    (getIndent >>= x) (s.reading m b) = x s.indent (s.reading m b) := rfl

theorem inFlow_bind (x : Bool → ScanM Bytes β) :
    (inFlow >>= x) (s.reading m b) = x (decide (s.flowLevel ≠ 0)) (s.reading m b) := rfl

theorem skip_text (h : IsCharacter c) :
    skip (s.reading m (c ++ r)) = .ok () (s.reading (m.right 1) r) := by
  have hd : (c ++ r).drop c.length = r := List.drop_left
  unfold skip
  rw [look_bind, width_character h]
  change Result.ok () (passOver c.length (s.reading m (c ++ r))) = _
  unfold passOver reading
  exact congrArg (fun input => Result.ok () { s with mark := m.right 1, input := input }) hd

theorem skip_octet {b : UInt8} (h : b < 0x80) :
    skip (s.reading m (b :: r)) = .ok () (s.reading (m.right 1) r) :=
  skip_text (c := [b]) (isCharacter_ascii h)

theorem read_text (h : IsCharacter c) :
    read string (s.reading m (c ++ r)) = .ok (string ++ c) (s.reading (m.right 1) r) := by
  unfold read
  rw [look_bind, character_append h, bind_of_ok (skip_text h)]
  rfl

/-- One round of a loop that goes on. -/
theorem repeatedly_again {body : α → ScanM Bytes (Round α β)} {a a' : α} {s' : Scanner Bytes}
    {Q : β → Scanner Bytes → Prop} (h : body a s = .ok (.again a') s')
    (hs : s'.input.length < s.input.length) (h' : Yields (repeatedly body a') s' Q) :
    Yields (repeatedly body a) s Q := by
  obtain ⟨b, t, hb, hq⟩ := h'
  refine ⟨b, t, ?_, hq⟩
  change loop _ body (s'.input.length + 1) a' s' = _ at hb
  change loop _ body (s.input.length + 1) a s = _
  obtain ⟨k, hk⟩ : ∃ k, s.input.length = s'.input.length + 1 + k := ⟨_, (Nat.add_sub_cancel' hs).symm⟩
  rw [loop, bind_of_ok h, hk]
  exact loop_more hb k

theorem repeatedly_leave {body : α → ScanM Bytes (Round α β)} {a : α} {b : β} {s' : Scanner Bytes}
    {Q : β → Scanner Bytes → Prop} (h : body a s = .ok (.leave b) s') (hq : Q b s') :
    Yields (repeatedly body a) s Q := by
  refine ⟨b, s', ?_, hq⟩
  change loop _ body (s.input.length + 1) a s = _
  rw [loop, bind_of_ok h]
  rfl

/-- Characters that a loop passes. -/
theorem skipWhile_text {f : View → Bool} {tail : Bytes} (ht : f (view tail) = false) :
    ∀ {cs : List Bytes} {m : Mark}, (∀ c ∈ cs, IsCharacter c) → (∀ c ∈ cs, ∀ r, f (view (c ++ r)) = true) →
      skipWhile f (s.reading m (cs.flatten ++ tail)) = .ok () (s.reading (m.right cs.length) tail) := by
  have hrun : ∀ {cs : List Bytes} {m : Mark}, (∀ c ∈ cs, IsCharacter c) →
      (∀ c ∈ cs, ∀ r, f (view (c ++ r)) = true) →
        Yields (skipWhile f) (s.reading m (cs.flatten ++ tail)) fun _ t => t = s.reading (m.right cs.length) tail := by
    intro cs
    induction cs with
    | nil =>
      intro m _ _
      refine repeatedly_leave (b := ()) ?_ rfl
      rw [look_bind, List.flatten_nil, List.nil_append, ht]
      rfl
    | cons c cs ih =>
      intro m hc hf
      have hchar := hc c List.mem_cons_self
      have hlt : (cs.flatten ++ tail).length < (c ++ (cs.flatten ++ tail)).length := by
        have := hchar.length_pos
        simp only [List.length_append]
        omega
      have hnext := ih (m := m.right 1) (fun d hd => hc d (List.mem_cons_of_mem _ hd))
        fun d hd => hf d (List.mem_cons_of_mem _ hd)
      rw [Mark.right_right, Nat.add_comm 1] at hnext
      rw [List.flatten_cons, List.append_assoc]
      refine repeatedly_again ?_ hlt hnext
      rw [look_bind, hf c List.mem_cons_self, if_pos rfl, bind_of_ok (skip_text hchar)]
      rfl
  intro cs m hc hf
  obtain ⟨⟨⟩, _, h, rfl⟩ := hrun hc hf (m := m)
  exact h

end Moves

end Scanner

end LibYaml
