import LibYaml.Scalars.Findings

/-!
# Block scalars

The text of a block scalar is its characters with the indentation in front of each line.  Whatever
the characters are, what the scanner makes of them is a fold over them, and the writers lay
characters that come to the value.
-/

namespace LibYaml

open Fallible Emitter
open EStateM (Result)

/-- The characters of a block scalar: printable breaks, and what does not end a line. -/
def BlockCharacter (c : Bytes) : Prop :=
  IsLineBreak c ∨ IsCharacter c ∧ isBreakz (view c) = false

/-- The characters with the indentation of the lines they start; `breaks` says whether they come
behind a break. -/
def indented (lineBreak : Break) (indent : Nat) : List Bytes → Bool → Bytes
  | [], _ => []
  | c :: cs, breaks =>
    if isBreak (view c) then brokenAs lineBreak c ++ indented lineBreak indent cs true
    else (if breaks then List.replicate indent blank else []) ++ (c ++ indented lineBreak indent cs false)

/-- What may stand behind a block scalar: a line further left, or nothing.  The first argument says
whether the scalar ended with a break, the last is what no loop of the scanner passes. -/
inductive Outdented (lineBreak : Break) (indent : Nat) : Bool → Bytes → Bytes → Prop
  | line {k : Nat} {r : Bytes} (hk : k < indent) (hr : r = [] ∨ StartsText r) :
      Outdented lineBreak indent true (List.replicate k blank ++ r) r
  | broken {k : Nat} {r : Bytes} (hk : k < indent) (hr : r = [] ∨ StartsText r) :
      Outdented lineBreak indent false (breakBytes lineBreak ++ (List.replicate k blank ++ r)) r
  | stop : Outdented lineBreak indent false [] []

section Views

variable {c r : Bytes}

theorem not_space_of_break {v : View} (h : isBreak v = true) : isSpace v = false := by
  have := not_blank_of_break h
  exact (Bool.or_eq_false_iff.mp this).1

theorem not_tab_of_break {v : View} (h : isBreak v = true) : isTab v = false := by
  have := not_blank_of_break h
  exact (Bool.or_eq_false_iff.mp this).2

/-- Neither a space nor a tab nor a break starts what is left behind a block scalar. -/
theorem startsNone (h : r = [] ∨ StartsText r) :
    isSpace (view r) = false ∧ isTab (view r) = false ∧ isBreak (view r) = false := by
  rcases h with rfl | h
  · decide
  · have hb := Bool.or_eq_false_iff.mp (not_blank_of_startsText h)
    exact ⟨hb.1, hb.2, not_break_of_startsText h⟩

theorem noFeed_of_none {lineBreak : Break} (h : r = [] ∨ StartsText r) : NoFeed lineBreak r := by
  rcases h with rfl | h
  · exact fun _ => by decide
  · exact noFeed_of_startsText h

end Views

namespace Scanner

section Indentation

variable {s : Scanner Bytes} {m start : Mark} {r : Bytes} {lineBreak : Break}

/-- Spaces as far as the indentation are passed. -/
theorem skipIndentation_spaces {indent : Int} {Q : Unit → Scanner Bytes → Prop} : ∀ {n : Nat} {m : Mark},
    (∀ j < n, leftOf indent (m.right j) = true) →
      ((leftOf indent (m.right n) && isSpace (view r)) = false) → Q () (s.reading (m.right n) r) →
        Yields (skipIndentation indent) (s.reading m (List.replicate n blank ++ r)) Q
  | 0, m, _, hr, hq => by
    refine repeatedly_leave ?_ hq
    rw [getMark_bind, look_bind, List.replicate_zero, List.nil_append, ← Mark.right_zero m, hr]
    rfl
  | n + 1, m, hl, hr, hq => by
    have hm (j : Nat) : (m.right 1).right j = m.right (j + 1) := by rw [Mark.right_right, Nat.add_comm]
    refine repeatedly_again ?_ (Nat.lt_succ_self _) (skipIndentation_spaces (m := m.right 1) (n := n) ?_ ?_ ?_)
    · have h0 : leftOf indent m = true := hl 0 (Nat.succ_pos n)
      have hs : isSpace (view (List.replicate (n + 1) blank ++ r)) = true := rfl
      rw [getMark_bind, look_bind, h0, hs, Bool.and_true, if_pos rfl, List.replicate_succ,
        List.cons_append, bind_of_ok (skip_octet (by decide))]
      rfl
    · intro j hj
      rw [hm]
      exact hl (j + 1) (Nat.succ_lt_succ hj)
    · rw [hm]
      exact hr
    · rw [hm]
      exact hq

theorem skipIndentation_none {indent : Int} {Q : Unit → Scanner Bytes → Prop}
    (hr : isSpace (view r) = false) (hq : Q () (s.reading m r)) :
    Yields (skipIndentation indent) (s.reading m r) Q := by
  refine repeatedly_leave ?_ hq
  rw [getMark_bind, look_bind, hr, Bool.and_false]
  rfl

/-- Whether characters end with a break, where `breaks` says so of those before them. -/
def brokenOff : Bool → List Bytes → Bool
  | breaks, [] => breaks
  | _, c :: cs => brokenOff (isBreak (view c)) cs

theorem isBreak_text {c : Bytes} (hc : IsCharacter c) (hb : isBreakz (view c) = false) :
    isBreak (view c) = false ∧ isBreakz (view (c ++ r)) = false ∧ isBreak (view (c ++ r)) = false := by
  have h : isBreakz (view (c ++ r)) = false := (Local.isBreakz (n := 0) _ _ (agree_character hc)).trans hb
  exact ⟨(Bool.or_eq_false_iff.mp hb).1, h, (Bool.or_eq_false_iff.mp h).1⟩

theorem noFeed_indented {indent : Nat} {cs : List Bytes} {rest : Bytes} (hpos : 0 < indent)
    (hcs : ∀ c ∈ cs, BlockCharacter c) (hr : Outdented lineBreak indent (brokenOff true cs) rest r) :
    NoFeed lineBreak (indented lineBreak indent cs true ++ rest) := by
  cases cs with
  | nil =>
    cases hr with
    | @line k _ hk hr =>
      cases k with
      | zero => exact noFeed_of_none hr
      | succ k => exact noFeed_spaces (Nat.succ_pos k)
  | cons c cs =>
    rcases hcs c List.mem_cons_self with hc | ⟨hc, hb⟩
    · rw [indented, if_pos hc.isBreak, List.append_assoc]
      exact noFeed_brokenAs hc
    · rw [indented, (isBreak_text (r := []) hc hb).1, if_neg Bool.false_ne_true, if_pos rfl, List.append_assoc]
      exact noFeed_spaces hpos

/-- What the scanner comes to behind the breaks in front of a line: the rest of the characters, or
what stands behind the scalar. -/
def AtLine (lineBreak : Break) (indent : Nat) (s : Scanner Bytes) (rest r : Bytes) (cs : List Bytes)
    (t : Scanner Bytes) : Prop :=
  (∃ m c cs', cs = c :: cs' ∧ IsCharacter c ∧ isBreakz (view c) = false ∧ m.column = indent ∧
      t = s.reading m (indented lineBreak indent cs false ++ rest)) ∨
    ∃ m, cs = [] ∧ (m.column < indent ∨ r = []) ∧ t = s.reading m r

theorem scanBlockScalarBreaks_explicit {indent : Nat} (hl : lineBreak ≠ .any) (hpos : 0 < indent)
    (hlt : indent < 2 ^ 31) {cs : List Bytes} {rest : Bytes} (breaks : Bytes) (start : Mark) (hcs : ∀ c ∈ cs, BlockCharacter c)
    (hr : Outdented lineBreak indent (brokenOff true cs) rest r) (hm : m.column = 0) :
    Yields (scanBlockScalarBreaks indent breaks start)
      (s.reading m (indented lineBreak indent cs true ++ rest)) fun a t =>
        a.1 = indent ∧ a.2.1 = breaks ++ (cs.takeWhile fun c => isBreak (view c)).flatten ∧
          AtLine lineBreak indent s rest r (cs.dropWhile fun c => isBreak (view c)) t ∧
            t.input.length ≤ (indented lineBreak indent cs true ++ rest).length := by
  have hne : (indent : Int) ≠ 0 := by omega
  have left (m : Mark) (j : Nat) (hm : m.column = 0) (hj : j < indent) : leftOf indent (m.right j) = true := by
    have : cInt j < indent := by
      rw [cInt_of_lt (by omega)]
      omega
    unfold leftOf
    rw [Mark.right_column, hm, Nat.zero_add, decide_eq_true this, Bool.or_true]
  have notLeft (m : Mark) (hm : m.column = 0) : leftOf indent (m.right indent) = false := by
    have : ¬cInt indent < indent := by
      rw [cInt_of_lt hlt]
      omega
    unfold leftOf
    rw [Mark.right_column, hm, Nat.zero_add, decide_eq_false this, decide_eq_false hne]
    rfl
  refine .step getMark_text (.bind (R := fun a t =>
    a.2.1 = breaks ++ (cs.takeWhile fun c => isBreak (view c)).flatten ∧
      AtLine lineBreak indent s rest r (cs.dropWhile fun c => isBreak (view c)) t ∧
        t.input.length ≤ (indented lineBreak indent cs true ++ rest).length)
    (repeatedly_yields (P := fun a t => ∃ cs' m',
      a.2.1 ++ (cs'.takeWhile fun c => isBreak (view c)).flatten
        = breaks ++ (cs.takeWhile fun c => isBreak (view c)).flatten ∧
      cs'.dropWhile (fun c => isBreak (view c)) = cs.dropWhile (fun c => isBreak (view c)) ∧
      (∀ c ∈ cs', BlockCharacter c) ∧ Outdented lineBreak indent (brokenOff true cs') rest r ∧
      m'.column = 0 ∧ t = s.reading m' (indented lineBreak indent cs' true ++ rest) ∧
      (indented lineBreak indent cs' true ++ rest).length
        ≤ (indented lineBreak indent cs true ++ rest).length) ?_
      ⟨cs, m, rfl, rfl, hcs, hr, hm, rfl, Nat.le_refl _⟩) ?_)
  · rintro ⟨maxIndent, breaks', finish⟩ _ ⟨cs', m', hbreaks, hdrop, hcs', hr', hm', rfl, hle⟩
    refine .step (cache_text 1) ?_
    cases cs' with
    | nil =>
      -- the scalar ends here
      cases hr' with
      | @line k _ hk hnone =>
        obtain ⟨hsp, htab, hbr⟩ := startsNone hnone
        refine .bind (R := fun _ t => t = s.reading (m'.right k) r) (skipIndentation_spaces
          (fun j hj => left m' j hm' (Nat.lt_trans hj hk)) ?_ rfl) ?_
        · rw [hsp, Bool.and_false]
        · rintro _ _ rfl
          unfold Yields
          rw [getMark_bind, look_bind, htab, Bool.and_false, if_neg Bool.false_ne_true, look_bind, hbr,
            Bool.not_false, if_pos rfl]
          refine ⟨_, _, rfl, by simpa using hbreaks, .inr ⟨m'.right k, hdrop.symm, ?_, rfl⟩, ?_⟩
          · rw [Mark.right_column, hm', Nat.zero_add]
            exact .inl hk
          · refine Nat.le_trans ?_ hle
            simp [indented, reading]
    | cons c cs' =>
      have hcs'' : ∀ c ∈ cs', BlockCharacter c := fun d hd => hcs' d (List.mem_cons_of_mem _ hd)
      rcases hcs' c List.mem_cons_self with hc | ⟨hc, hb⟩
      · have hbr : isBreak (view (brokenAs lineBreak c ++ (indented lineBreak indent cs' true ++ rest)))
            = true := isBreak_brokenAs hl hc
        have hr'' : Outdented lineBreak indent (brokenOff true cs') rest r := by
          rwa [brokenOff, hc.isBreak] at hr'
        obtain ⟨n, hn⟩ : ∃ n, readLine breaks' (s.reading m' (brokenAs lineBreak c
            ++ (indented lineBreak indent cs' true ++ rest)))
              = .ok (breaks' ++ c) (s.reading (m'.down n) (indented lineBreak indent cs' true ++ rest)) :=
          readLine_break hl hc (noFeed_indented hpos hcs'' hr'')
        rw [indented, if_pos hc.isBreak, List.append_assoc]
        refine .bind (R := fun _ t => t = s.reading m' (brokenAs lineBreak c
            ++ (indented lineBreak indent cs' true ++ rest)))
          (skipIndentation_none (not_space_of_break hbr) rfl) ?_
        rintro _ _ rfl
        unfold Yields
        rw [getMark_bind, look_bind, not_tab_of_break hbr, Bool.and_false, if_neg Bool.false_ne_true,
          look_bind, hbr, Bool.not_true, if_neg Bool.false_ne_true, cache_bind, bind_of_ok hn,
          getMark_bind]
        refine ⟨_, _, rfl, ⟨cs', m'.down n, ?_, ?_, hcs'', hr'', rfl, rfl, Nat.le_trans ?_ hle⟩, ?_⟩
        · rw [← hbreaks]
          simp [hc.isBreak]
        · rw [← hdrop]
          simp [hc.isBreak]
        · simp [indented, hc.isBreak]
        · have := brokenAs_length_pos hl hc
          change (indented lineBreak indent cs' true ++ rest).length
            < (brokenAs lineBreak c ++ (indented lineBreak indent cs' true ++ rest)).length
          simp only [List.length_append]
          omega
      · obtain ⟨hbr, -, hbr'⟩ := isBreak_text (r := indented lineBreak indent cs' false ++ rest) hc hb
        rw [indented, hbr, if_neg Bool.false_ne_true, if_pos rfl, List.append_assoc, List.append_assoc]
        refine .bind (R := fun _ t => t = s.reading (m'.right indent)
            (c ++ (indented lineBreak indent cs' false ++ rest)))
          (skipIndentation_spaces (fun j hj => left m' j hm' hj) ?_ rfl) ?_
        · rw [notLeft m' hm', Bool.false_and]
        · rintro _ _ rfl
          unfold Yields
          rw [getMark_bind, look_bind, notLeft m' hm', Bool.false_and, if_neg Bool.false_ne_true,
            look_bind, hbr', Bool.not_false, if_pos rfl]
          have hkeep : cs.dropWhile (fun c => isBreak (view c)) = c :: cs' := by
            rw [← hdrop]
            simp [hbr]
          refine ⟨_, _, rfl, ?_, .inl ⟨m'.right indent, c, cs', hkeep, hc, hb, ?_, ?_⟩,
            Nat.le_trans ?_ hle⟩
          · rw [← hbreaks]
            simp [hbr]
          · rw [Mark.right_column, hm', Nat.zero_add]
          · rw [hkeep, indented, hbr, if_neg Bool.false_ne_true, if_neg Bool.false_ne_true,
              List.nil_append, List.append_assoc]
          · simp [indented, hbr, reading]
  · rintro ⟨maxIndent, breaks', finish⟩ t ⟨hbreaks, ht⟩
    obtain ⟨outer, houter⟩ : ∃ outer, getIndent t = .ok outer t := ⟨_, rfl⟩
    refine .step houter ⟨_, _, rfl, ?_, hbreaks, ht⟩
    exact if_neg hne

/-- A run of text up to what ends a line. -/
theorem readWhile_text {tail : Bytes} (ht : isBreakz (view tail) = true) :
    ∀ {cs : List Bytes} (string : Bytes) {m : Mark} {Q : Bytes → Scanner Bytes → Prop},
      (∀ c ∈ cs, IsCharacter c ∧ isBreakz (view c) = false) →
        Q (string ++ cs.flatten) (s.reading (m.right cs.length) tail) →
          Yields (readWhile (!isBreakz ·) string) (s.reading m (cs.flatten ++ tail)) Q
  | [], string, m, Q, _, hq => by
    refine repeatedly_leave ?_ (by simpa using hq)
    rw [look_bind, List.flatten_nil, List.nil_append, ht]
    rfl
  | c :: cs, string, m, Q, hcs, hq => by
    obtain ⟨hc, hb⟩ := hcs c List.mem_cons_self
    have hz := (isBreak_text (r := cs.flatten ++ tail) hc hb).2.1
    have hlt : (cs.flatten ++ tail).length < (c ++ (cs.flatten ++ tail)).length := by
      have := hc.length_pos
      simp only [List.length_append]
      omega
    rw [List.flatten_cons, List.append_assoc]
    refine repeatedly_again ?_ hlt (readWhile_text ht (string ++ c) (m := m.right 1)
      (fun d hd => hcs d (List.mem_cons_of_mem _ hd)) ?_)
    · rw [look_bind, hz, Bool.not_false, if_pos rfl, bind_of_ok (read_text hc)]
      rfl
    · rw [Mark.right_right, List.append_assoc, ← List.flatten_cons, Nat.add_comm 1]
      exact hq

end Indentation

/-! ## What the scanner makes of the characters -/

/-- The scalar behind one more character, as the scanner goes over its lines. -/
def BlockScalar.take (literal breaks : Bool) (b : BlockScalar) (c : Bytes) : BlockScalar :=
  if isBreak (view c) then
    if breaks then { b with trailingBreaks := b.trailingBreaks ++ c } else { b with leadingBreak := c }
  else if breaks then
    { b with
      string := b.fold literal (isBlank (view c)) ++ c
      leadingBreak := []
      trailingBreaks := []
      leadingBlank := isBlank (view c) }
  else { b with string := b.string ++ c }

def BlockScalar.takeAll (literal : Bool) : List Bytes → Bool → BlockScalar → BlockScalar
  | [], _, b => b
  | c :: cs, breaks, b => takeAll literal cs (isBreak (view c)) (b.take literal breaks c)

/-- What counts of a block scalar at its end, where its text may end within a line. -/
structure BlockScalar.Comes (ended : Prop) (b b' : BlockScalar) : Prop where
  string : b.string = b'.string
  breaks : ended → b.leadingBreak = b'.leadingBreak ∧ b.trailingBreaks = b'.trailingBreaks

theorem BlockScalar.Comes.refl (ended : Prop) (b : BlockScalar) : Comes ended b b :=
  ⟨rfl, fun _ => ⟨rfl, rfl⟩⟩

theorem BlockScalar.Comes.trans {ended : Prop} {b b' b'' : BlockScalar} (h : b.Comes ended b')
    (h' : b'.Comes ended b'') : b.Comes ended b'' :=
  ⟨h.string.trans h'.string, fun he =>
    ⟨(h.breaks he).1.trans (h'.breaks he).1, (h.breaks he).2.trans (h'.breaks he).2⟩⟩

section Lines

variable {literal : Bool} {b : BlockScalar}

theorem takeAll_append : ∀ (cs : List Bytes) {ds : List Bytes} {breaks : Bool} {b : BlockScalar},
    b.takeAll literal (cs ++ ds) breaks
      = (b.takeAll literal cs breaks).takeAll literal ds (brokenOff breaks cs)
  | [], _, _, _ => rfl
  | _ :: cs, _, _, _ => takeAll_append cs

/-- Where a scalar ends does not matter to what is taken. -/
theorem takeAll_comes {ended : Prop} : ∀ (cs : List Bytes) {breaks : Bool} {b b' : BlockScalar},
    b.string = b'.string → b.leadingBreak = b'.leadingBreak → b.trailingBreaks = b'.trailingBreaks →
      b.leadingBlank = b'.leadingBlank →
        (b.takeAll literal cs breaks).Comes ended (b'.takeAll literal cs breaks)
  | [], _, _, _, hs, hb, ht, _ => ⟨hs, fun _ => ⟨hb, ht⟩⟩
  | c :: cs, breaks, b, b', hs, hb, ht, hl => by
    have hfold (trailingBlank : Bool) : b.fold literal trailingBlank = b'.fold literal trailingBlank := by
      unfold BlockScalar.fold
      rw [hs, hb, ht, hl]
    refine takeAll_comes cs ?_ ?_ ?_ ?_
    all_goals
      unfold BlockScalar.take
      split
      · split <;> simp only [hs, hb, ht, hl]
      · split <;> simp only [hs, hb, ht, hl, hfold]

theorem brokenOff_text : ∀ {cs : List Bytes}, (∀ c ∈ cs, isBreak (view c) = false) →
    brokenOff false cs = false
  | [], _ => rfl
  | c :: cs, h => by
    rw [brokenOff, h c List.mem_cons_self]
    exact brokenOff_text fun d hd => h d (List.mem_cons_of_mem _ hd)

theorem brokenOff_breaks : ∀ {cs : List Bytes}, (∀ c ∈ cs, isBreak (view c) = true) →
    brokenOff true cs = true
  | [], _ => rfl
  | c :: cs, h => by
    rw [brokenOff, h c List.mem_cons_self]
    exact brokenOff_breaks fun d hd => h d (List.mem_cons_of_mem _ hd)

/-- More text on a line. -/
theorem takeAll_text : ∀ {cs : List Bytes} (b : BlockScalar), (∀ c ∈ cs, isBreak (view c) = false) →
    b.takeAll literal cs false = { b with string := b.string ++ cs.flatten }
  | [], b, _ => by
    rw [List.flatten_nil, List.append_nil]
    rfl
  | c :: cs, b, h => by
    have hc := h c List.mem_cons_self
    have ht : b.take literal false c = { b with string := b.string ++ c } := by
      rw [BlockScalar.take, hc, if_neg Bool.false_ne_true, if_neg Bool.false_ne_true]
    rw [BlockScalar.takeAll, hc, ht, takeAll_text _ fun d hd => h d (List.mem_cons_of_mem _ hd),
      List.flatten_cons, List.append_assoc]

/-- More breaks in front of a line. -/
theorem takeAll_breaks : ∀ {cs : List Bytes} (b : BlockScalar), (∀ c ∈ cs, isBreak (view c) = true) →
    b.takeAll literal cs true = { b with trailingBreaks := b.trailingBreaks ++ cs.flatten }
  | [], b, _ => by
    rw [List.flatten_nil, List.append_nil]
    rfl
  | c :: cs, b, h => by
    have hc := h c List.mem_cons_self
    have ht : b.take literal true c = { b with trailingBreaks := b.trailingBreaks ++ c } := by
      rw [BlockScalar.take, hc, if_pos rfl, if_pos rfl]
    rw [BlockScalar.takeAll, hc, ht, takeAll_breaks _ fun d hd => h d (List.mem_cons_of_mem _ hd),
      List.flatten_cons, List.append_assoc]

theorem brokenOff_append : ∀ (cs : List Bytes) {ds : List Bytes} {breaks : Bool},
    brokenOff breaks (cs ++ ds) = brokenOff (brokenOff breaks cs) ds
  | [], _, _ => rfl
  | _ :: cs, _, _ => brokenOff_append cs

/-- The breaks behind a line. -/
theorem takeAll_lineEnd {c : Bytes} {cs : List Bytes} {b : BlockScalar} (hc : isBreak (view c) = true) :
    b.takeAll literal (c :: cs) false
      = BlockScalar.takeAll literal (cs.dropWhile fun c => isBreak (view c)) true
          { b with
            leadingBreak := c
            trailingBreaks := b.trailingBreaks ++ (cs.takeWhile fun c => isBreak (view c)).flatten } := by
  have hall : ∀ c ∈ cs.takeWhile (fun c => isBreak (view c)), isBreak (view c) = true :=
    List.all_eq_true.mp List.all_takeWhile
  have ht : b.take literal false c = { b with leadingBreak := c } := by
    rw [BlockScalar.take, if_pos hc, if_neg Bool.false_ne_true]
  have hsplit : cs.takeWhile (fun c => isBreak (view c)) ++ cs.dropWhile (fun c => isBreak (view c)) = cs :=
    List.takeWhile_append_dropWhile
  rw [BlockScalar.takeAll, hc, ht]
  conv_lhs => rw [← hsplit]
  rw [takeAll_append, takeAll_breaks _ hall, brokenOff_breaks hall]

theorem indented_text {lineBreak : Break} {indent : Nat} {ds : List Bytes} : ∀ {cs : List Bytes},
    (∀ c ∈ cs, isBreak (view c) = false) →
      indented lineBreak indent (cs ++ ds) false = cs.flatten ++ indented lineBreak indent ds false
  | [], _ => rfl
  | c :: cs, h => by
    rw [List.cons_append, indented, h c List.mem_cons_self, if_neg Bool.false_ne_true,
      if_neg Bool.false_ne_true, indented_text fun d hd => h d (List.mem_cons_of_mem _ hd),
      List.flatten_cons, List.append_assoc]
    rfl

end Lines

section Indentation

variable {s : Scanner Bytes} {m start : Mark} {r rest : Bytes} {lineBreak : Break} {indent : Nat}
  {literal : Bool}

theorem scanBlockScalarBreaks_stop {i : Int} (hi : i ≠ 0) {breaks : Bytes} :
    Yields (scanBlockScalarBreaks i breaks start) (s.reading m [])
      fun a t => a.1 = i ∧ a.2.1 = breaks ∧ t = s.reading m [] := by
  refine .step getMark_text (.bind (R := fun a t => a.2.1 = breaks ∧ t = s.reading m [])
    (repeatedly_yields (P := fun a t => a.2.1 = breaks ∧ t = s.reading m []) ?_ ⟨rfl, rfl⟩) ?_)
  · rintro ⟨maxIndent, breaks', finish⟩ _ ⟨hb, rfl⟩
    obtain ⟨hsp, htab, hbr⟩ := startsNone (r := []) (.inl rfl)
    refine .step (cache_text 1) (.bind (R := fun _ t => t = s.reading m [])
      (skipIndentation_none hsp rfl) ?_)
    rintro _ _ rfl
    unfold Yields
    rw [getMark_bind, look_bind, htab, Bool.and_false, if_neg Bool.false_ne_true, look_bind, hbr,
      Bool.not_false, if_pos rfl]
    exact ⟨_, _, rfl, hb, rfl⟩
  · rintro ⟨maxIndent, breaks', finish⟩ _ ⟨hb, rfl⟩
    exact .step getIndent_text ⟨_, _, rfl, if_neg hi, hb, rfl⟩

/-- The line at which the scanner stands is a run of text and what ends it. -/
theorem line_cases {cs : List Bytes} (hcs : ∀ c ∈ cs, BlockCharacter c) :
    ∃ text ds, cs = text ++ ds ∧ (∀ c ∈ text, IsCharacter c ∧ isBreakz (view c) = false) ∧
      (ds = [] ∨ ∃ c ds', ds = c :: ds' ∧ IsLineBreak c) := by
  induction cs with
  | nil => exact ⟨[], [], rfl, nofun, .inl rfl⟩
  | cons c cs ih =>
    rcases hcs c List.mem_cons_self with hc | hc
    · exact ⟨[], c :: cs, rfl, nofun, .inr ⟨c, cs, rfl, hc⟩⟩
    · obtain ⟨text, ds, rfl, htext, hds⟩ := ih fun d hd => hcs d (List.mem_cons_of_mem _ hd)
      exact ⟨c :: text, ds, rfl, List.forall_mem_cons.mpr ⟨hc, htext⟩, hds⟩

theorem scanBlockScalarLines_indented (hl : lineBreak ≠ .any) (hpos : 0 < indent) (hlt : indent < 2 ^ 31)
    {cs : List Bytes} {b : BlockScalar} {t : Scanner Bytes} (hcs : ∀ c ∈ cs, BlockCharacter c)
    (hr : cs ≠ [] → Outdented lineBreak indent (brokenOff true cs) rest r) (hb : b.indent = indent)
    (hat : AtLine lineBreak indent s rest r cs t) :
    Yields (scanBlockScalarLines literal start b) t fun b' u =>
      b'.Comes (brokenOff true cs = true ∨ rest = []) (b.takeAll literal cs true) ∧
        ∃ m, u = s.reading m r := by
  refine repeatedly_yields (P := fun b' t => ∃ cs', (∀ c ∈ cs', BlockCharacter c) ∧
    (cs' ≠ [] → Outdented lineBreak indent (brokenOff true cs') rest r ∧
      brokenOff true cs' = brokenOff true cs) ∧ b'.indent = (indent : Int) ∧
    AtLine lineBreak indent s rest r cs' t ∧
      (b'.takeAll literal cs' true).Comes (brokenOff true cs = true ∨ rest = [])
        (b.takeAll literal cs true)) ?_
    ⟨cs, hcs, fun hne => ⟨hr hne, rfl⟩, hb, hat, .refl _ _⟩
  rintro b' _ ⟨cs', hcs', hr', hb', ⟨m', c, cs'', rfl, hc, hz, hm', rfl⟩ | ⟨m', rfl, hm', rfl⟩, hcomes⟩
  · obtain ⟨text, ds, hsplit, htext, hds⟩ := line_cases fun d hd => hcs' d (List.mem_cons_of_mem _ hd)
    subst hsplit
    obtain ⟨hbr, -, -⟩ := isBreak_text (r := []) hc hz
    have hline : ∀ d ∈ c :: text, IsCharacter d ∧ isBreakz (view d) = false :=
      List.forall_mem_cons.mpr ⟨⟨hc, hz⟩, htext⟩
    have hnb : ∀ d ∈ c :: text, isBreak (view d) = false := fun d hd =>
      (isBreak_text (r := []) (hline d hd).1 (hline d hd).2).1
    obtain ⟨hrest, hended⟩ := hr' (List.cons_ne_nil _ _)
    have hcol : decide (cInt m'.column = b'.indent) = true := by
      refine decide_eq_true ?_
      rw [hm', cInt_of_lt hlt, hb']
    have hnz : isZ (view (c ++ (text.flatten ++ (indented lineBreak indent ds false ++ rest)))) = false := by
      have := (isBreak_text (r := text.flatten ++ (indented lineBreak indent ds false ++ rest)) hc hz).2.1
      exact (Bool.or_eq_false_iff.mp this).2
    have hblank : isBlank (view (c ++ (text.flatten ++ (indented lineBreak indent ds false ++ rest))))
        = isBlank (view c) := Local.isBlank (n := 0) _ _ (agree_character hc)
    have hoff : brokenOff true (c :: (text ++ ds)) = brokenOff false ds := by
      rw [brokenOff, hbr, brokenOff_append, brokenOff_text fun d hd =>
        hnb d (List.mem_cons_of_mem _ hd)]
    have htake : b'.takeAll literal (c :: (text ++ ds)) true = BlockScalar.takeAll literal ds false
        { b' with
          string := b'.fold literal (isBlank (view c)) ++ (c :: text).flatten
          leadingBreak := []
          trailingBreaks := []
          leadingBlank := isBlank (view c) } := by
      have htext : ∀ d ∈ text, isBreak (view d) = false := fun d hd => hnb d (List.mem_cons_of_mem _ hd)
      rw [BlockScalar.takeAll, hbr, takeAll_append, takeAll_text _ htext, brokenOff_text htext]
      unfold BlockScalar.take
      rw [hbr, if_neg Bool.false_ne_true, if_pos rfl, List.flatten_cons, List.append_assoc]
    have htail : isBreakz (view (indented lineBreak indent ds false ++ rest)) = true := by
      rcases hds with rfl | ⟨d, ds', rfl, hd⟩
      · rw [hoff] at hrest
        cases hrest with
        | @broken k _ hk hnone =>
          have := isBreak_brokenAs (r := List.replicate k blank ++ r) hl (.inl rfl)
          rw [brokenAs_feed] at this
          change (isBreak _ || _) = true
          rw [indented, List.nil_append, this, Bool.true_or]
        | stop => rfl
      · have := isBreak_brokenAs (r := indented lineBreak indent ds' true ++ rest) hl hd
        change (isBreak _ || _) = true
        rw [indented, if_pos hd.isBreak, List.append_assoc, this, Bool.true_or]
    have hin : indented lineBreak indent (c :: (text ++ ds)) false ++ rest
        = c ++ (text.flatten ++ (indented lineBreak indent ds false ++ rest)) := by
      rw [← List.cons_append, indented_text hnb, List.flatten_cons, List.append_assoc, List.append_assoc]
    have hrun : Yields (readWhile (!isBreakz ·) (b'.fold literal (isBlank (view c))))
        (s.reading m' (c ++ (text.flatten ++ (indented lineBreak indent ds false ++ rest))))
        fun a t => a = b'.fold literal (isBlank (view c)) ++ (c :: text).flatten ∧
          ∃ m, t = s.reading m (indented lineBreak indent ds false ++ rest) := by
      rw [← List.append_assoc, ← List.flatten_cons]
      exact readWhile_text htail _ hline ⟨rfl, _, rfl⟩
    rw [hin]
    unfold Yields
    rw [getMark_bind, look_bind, hcol, hnz, Bool.not_false, Bool.and_true, if_pos rfl, look_bind, hblank]
    refine hrun.bind ?_
    rintro _ _ ⟨rfl, m₁, rfl⟩
    unfold Yields
    rw [cache_bind]
    have hlt' : (indented lineBreak indent ds false ++ rest).length
        < (c ++ (text.flatten ++ (indented lineBreak indent ds false ++ rest))).length := by
      have := hc.length_pos
      simp only [List.length_append]
      omega
    rcases hds with rfl | ⟨d, ds', rfl, hd⟩
    · -- the last line
      rw [hoff] at hrest hended
      cases hrest with
      | @broken k _ hk hnone =>
        have hfeed : NoFeed lineBreak (List.replicate k blank ++ r) := by
          cases k with
          | zero => exact noFeed_of_none hnone
          | succ k => exact noFeed_spaces (Nat.succ_pos k)
        obtain ⟨n, hn⟩ : ∃ n, readLine [] (s.reading m₁ (brokenAs lineBreak [0x0A]
            ++ (List.replicate k blank ++ r)))
              = .ok ([] ++ [0x0A]) (s.reading (m₁.down n) (List.replicate k blank ++ r)) :=
          readLine_break hl (.inl rfl) hfeed
        have hend : Outdented lineBreak indent (brokenOff true []) (List.replicate k blank ++ r) r :=
          .line hk hnone
        have hnone (c : Bytes) (hc : c ∈ []) : BlockCharacter c := absurd hc List.not_mem_nil
        have hbreaks := scanBlockScalarBreaks_explicit (s := s) (m := m₁.down n) hl hpos hlt [] start
          hnone hend rfl
        rw [brokenAs_feed] at hn
        rw [indented, List.nil_append, bind_of_ok hn, hb']
        refine hbreaks.bind ?_
        rintro ⟨i, trailing, finish⟩ t ⟨hi, -, hat, hlen⟩
        refine ⟨_, _, rfl, ⟨[], nofun, nofun, hi, ?_, ?_⟩, ?_⟩
        · rcases hat with ⟨_, _, _, h, -⟩ | hat
          · cases h
          · exact .inr hat
        · refine ⟨?_, fun h => ?_⟩
          · have := hcomes.string
            rw [htake] at this
            exact this
          · rw [← hended] at h
            rcases h with h | h
            · cases h
            · have := congrArg List.length h
              simp only [List.length_append, List.length_nil] at this
              have hpos := brokenAs_length_pos hl (c := [0x0A]) (.inl rfl)
              rw [brokenAs_feed] at hpos
              omega
        · change t.input.length < (c ++ (text.flatten ++ (_ ++ _))).length
          rw [indented, List.nil_append] at hlen hlt'
          have : (List.replicate k blank ++ r).length
              ≤ (breakBytes lineBreak ++ (List.replicate k blank ++ r)).length := by
            simp only [List.length_append]
            omega
          omega
      | stop =>
        have hne : (indent : Int) ≠ 0 := by omega
        have hread : readLine [] (s.reading m₁ []) = .ok [] (s.reading m₁ []) := rfl
        rw [indented, List.nil_append, bind_of_ok hread, hb']
        refine (scanBlockScalarBreaks_stop hne).bind ?_
        rintro ⟨i, trailing, finish⟩ _ ⟨hi, htrailing, rfl⟩
        refine ⟨_, _, rfl, ⟨[], nofun, nofun, hi, .inr ⟨m₁, rfl, .inr rfl, rfl⟩, ?_, fun h => ?_⟩, hlt'⟩
        · have := hcomes.string
          rw [htake] at this
          exact this
        · obtain rfl : trailing = [] := htrailing
          have := hcomes.breaks h
          rw [htake] at this
          exact this
    · have hds : ∀ c ∈ ds', BlockCharacter c := fun e he => hcs' e (by simp [he])
      have hoff : brokenOff true (c :: (text ++ d :: ds')) = brokenOff true ds' := by
        rw [hoff, brokenOff, hd.isBreak]
      rw [hoff] at hrest hended
      obtain ⟨n, hn⟩ : ∃ n, readLine [] (s.reading m₁ (brokenAs lineBreak d
          ++ (indented lineBreak indent ds' true ++ rest)))
            = .ok ([] ++ d) (s.reading (m₁.down n) (indented lineBreak indent ds' true ++ rest)) :=
        readLine_break hl hd (noFeed_indented hpos hds hrest)
      have hbreaks := scanBlockScalarBreaks_explicit (s := s) (m := m₁.down n) hl hpos hlt [] start
        hds hrest rfl
      rw [indented, if_pos hd.isBreak, List.append_assoc, bind_of_ok hn, hb']
      refine hbreaks.bind ?_
      rintro ⟨i, trailing, finish⟩ t ⟨hi, htr, hat, hlen⟩
      have hsplit : ds' = ds'.takeWhile (fun c => isBreak (view c)) ++ ds'.dropWhile fun c => isBreak (view c) :=
        List.takeWhile_append_dropWhile.symm
      have hall : ∀ c ∈ ds'.takeWhile (fun c => isBreak (view c)), isBreak (view c) = true :=
        List.all_eq_true.mp List.all_takeWhile
      refine ⟨_, _, rfl, ⟨ds'.dropWhile fun c => isBreak (view c), ?_, fun _ => ?_, hi, hat, ?_⟩, ?_⟩
      · exact fun c hc => hds c ((List.dropWhile_sublist _).mem hc)
      · have : brokenOff true ds' = brokenOff true (ds'.dropWhile fun c => isBreak (view c)) := by
          conv_lhs => rw [hsplit]
          rw [brokenOff_append, brokenOff_breaks hall]
        rw [← this]
        exact ⟨hrest, hended⟩
      · obtain rfl : i = b'.indent := hi.trans hb'.symm
        obtain rfl : trailing = (ds'.takeWhile fun c => isBreak (view c)).flatten := htr
        rw [htake, takeAll_lineEnd hd.isBreak] at hcomes
        refine .trans (takeAll_comes _ ?_ ?_ ?_ ?_) hcomes <;> rfl
      · have hpos := brokenAs_length_pos hl hd
        change t.input.length < (c ++ (text.flatten ++ (_ ++ _))).length
        rw [indented, if_pos hd.isBreak] at hlt'
        simp only [List.length_append] at hlt' hlen ⊢
        omega
  · -- behind the scalar
    have hleave : (decide (cInt m'.column = b'.indent) && !isZ (view r)) = false := by
      rcases hm' with hm' | rfl
      · have : ¬cInt m'.column = b'.indent := by
          rw [cInt_of_lt (by omega), hb']
          omega
        rw [decide_eq_false this, Bool.false_and]
      · rw [show isZ (view []) = true by decide, Bool.not_true, Bool.and_false]
    unfold Yields
    rw [getMark_bind, look_bind, hleave, if_neg Bool.false_ne_true]
    exact ⟨_, _, rfl, hcomes, m', rfl⟩

/-! ## The header -/

/-- The chomping indicator. -/
def chompText : Chomping → Bytes
  | .strip => [octet '-']
  | .clip => []
  | .keep => [octet '+']

/-- The indentation indicator, where there is one. -/
def hintText (increment : Nat) : Bytes := if increment = 0 then [] else [octet '0' + increment.toUInt8]

theorem hintText_spec : ∀ n < 10, n ≠ 0 → isDigit (view [octet '0' + n.toUInt8]) = true ∧
    asDigit (view [octet '0' + n.toUInt8]) = n ∧ check (view [octet '0' + n.toUInt8]) '0' = false ∧
      isPlusMinus (view [octet '0' + n.toUInt8]) = false ∧ octet '0' + n.toUInt8 < 0x80 := by decide

/-- No indicator of a header starts a break. -/
theorem break_spec {v : View} (h : isBreak v = true) : isPlusMinus v = false ∧ isDigit v = false := by
  unfold isPlusMinus isDigit check checkAt
  rcases isBreak_cases h with h | h | ⟨h, -⟩ | ⟨h, -⟩ <;> rw [h] <;> decide

theorem scanChomping_text {chomping : Chomping} (hne : chomping ≠ .clip) :
    isPlusMinus (view (chompText chomping ++ r)) = true ∧
      scanChomping (s.reading m (chompText chomping ++ r)) = .ok chomping (s.reading (m.right 1) r) := by
  unfold scanChomping
  rw [look_bind]
  cases chomping with
  | clip => exact absurd rfl hne
  | strip => exact ⟨rfl, (bind_of_ok (skip_octet (by decide))).trans rfl⟩
  | keep => exact ⟨rfl, (bind_of_ok (skip_octet (by decide))).trans rfl⟩

theorem scanIncrement_text (start : Mark) {increment : Nat} (hi : increment < 10) (h0 : increment ≠ 0) :
    isPlusMinus (view (hintText increment ++ r)) = false ∧ isDigit (view (hintText increment ++ r)) = true ∧
      scanIncrement start (s.reading m (hintText increment ++ r))
        = .ok (increment : Int) (s.reading (m.right 1) r) := by
  obtain ⟨h1, h2, h3, h4, h5⟩ := hintText_spec increment hi h0
  have hi : hintText increment = [octet '0' + increment.toUInt8] := if_neg h0
  have hc := isCharacter_ascii h5
  have hzero : check (view ([octet '0' + increment.toUInt8] ++ r)) '0' = false :=
    (Local.check (n := 0) _ _ (agree_character hc)).trans h3
  rw [hi]
  refine ⟨(Local.isPlusMinus (n := 0) _ _ (agree_character hc)).trans h4,
    (Local.isDigit (n := 0) _ _ (agree_character hc)).trans h1, ?_⟩
  unfold scanIncrement
  rw [look_bind, hzero, if_neg Bool.false_ne_true, look_bind,
    (Local.asDigit (n := 0) _ _ (agree_character hc)).trans h2, bind_of_ok (skip_text hc)]
  rfl

theorem scanBlockScalarHeader_text (start : Mark) (chomping : Chomping) {increment : Nat} (hi : increment < 10)
    (hpm : isPlusMinus (view r) = false) (hdigit : isDigit (view r) = false) :
    ∃ m', scanBlockScalarHeader start (s.reading m (hintText increment ++ (chompText chomping ++ r)))
      = .ok (chomping, (increment : Int)) (s.reading m' r) := by
  by_cases h0 : increment = 0
  · subst h0
    unfold scanBlockScalarHeader
    rw [hintText, if_pos rfl, List.nil_append, look_bind]
    by_cases hc : chomping = .clip
    · subst hc
      refine ⟨m, ?_⟩
      rw [chompText, List.nil_append, hpm, if_neg Bool.false_ne_true, look_bind, hdigit,
        if_neg Bool.false_ne_true]
      rfl
    · obtain ⟨h1, h2⟩ := scanChomping_text (s := s) (m := m) (r := r) hc
      refine ⟨m.right 1, ?_⟩
      rw [h1, if_pos rfl, bind_of_ok h2, cache_bind, look_bind, hdigit, if_neg Bool.false_ne_true]
      rfl
  · obtain ⟨h4, h1, hscan⟩ := scanIncrement_text (s := s) (m := m) start
      (r := chompText chomping ++ r) hi h0
    unfold scanBlockScalarHeader
    rw [look_bind, h4, if_neg Bool.false_ne_true, look_bind, h1, if_pos rfl, bind_of_ok hscan, cache_bind,
      look_bind]
    by_cases hclip : chomping = .clip
    · subst hclip
      refine ⟨m.right 1, ?_⟩
      rw [chompText, List.nil_append, hpm, if_neg Bool.false_ne_true]
      rfl
    · obtain ⟨h1, h2⟩ := scanChomping_text (s := s) (m := m.right 1) (r := r) hclip
      refine ⟨(m.right 1).right 1, ?_⟩
      rw [h1, if_pos rfl, bind_of_ok h2]
      rfl

/-- A block scalar with nothing in it yet. -/
def BlockScalar.blank : BlockScalar := { trailingBreaks := [], indent := 0, finish := .zero }

/-- Behind the breaks in front of the first line, the scanner takes the characters one by one. -/
theorem scanBlockScalar_lines (literal : Bool) (hl : lineBreak ≠ .any) (hpos : 0 < indent) (hlt : indent < 2 ^ 31)
    {b b₁ b₂ breaks : Bytes} {m₁ m₂ m₃ : Mark} {chomping : Chomping} {increment : Int} {cs : List Bytes}
    (hskip : skip (s.reading m b) = .ok () (s.reading m₁ b₁))
    (hheader : scanBlockScalarHeader m (s.reading m₁ b₁) = .ok (chomping, increment) (s.reading m₂ b₂))
    {body : Bytes}
    (hend : scanLineEnd "while scanning a block scalar" m (s.reading m₂ b₂) = .ok () (s.reading m₃ body))
    (hfirst : Yields (scanBlockScalarBreaks
        (if increment = 0 then 0 else if 0 ≤ s.indent then toCInt (s.indent + increment) else increment) [] m)
      (s.reading m₃ body) fun a t => a.1 = indent ∧ a.2.1 = breaks ∧ AtLine lineBreak indent s rest r cs t)
    (hcs : ∀ c ∈ cs, BlockCharacter c) (hr : cs ≠ [] → Outdented lineBreak indent (brokenOff true cs) rest r)
    (hc : (brokenOff true cs = true ∨ rest = []) ∨ chomping = .strip) :
    ∃ m' finish, scanBlockScalar literal (s.reading m b)
      = .ok ⟨.scalar ((BlockScalar.takeAll literal cs true
            { BlockScalar.blank with trailingBreaks := breaks }).value chomping)
          (if literal then .literal else .folded), m, finish⟩ (s.reading m' r) := by
  have hrun : Yields (scanBlockScalar literal) (s.reading m b) fun token t =>
      ∃ m' finish, t = s.reading m' r ∧
        token = ⟨.scalar ((BlockScalar.takeAll literal cs true
            { BlockScalar.blank with trailingBreaks := breaks }).value chomping)
          (if literal then .literal else .folded), m, finish⟩ := by
    unfold Yields scanBlockScalar
    rw [getMark_bind, bind_of_ok hskip, cache_bind, bind_of_ok hheader]
    refine Yields.step hend (Yields.step getIndent_text (hfirst.bind ?_))
    rintro ⟨i, trailing, finish⟩ t ⟨hi, rfl, hat⟩
    have hcache : cache 1 t = .ok () t := rfl
    refine Yields.step hcache ((scanBlockScalarLines_indented hl hpos hlt hcs hr hi hat).bind ?_)
    rintro b' _ ⟨hb, m', rfl⟩
    refine ⟨_, _, rfl, m', b'.finish, rfl, ?_⟩
    have hfields : (BlockScalar.takeAll literal cs true { trailingBreaks := trailing, indent := i, finish := finish }).Comes
        (brokenOff true cs = true ∨ rest = [])
        (BlockScalar.takeAll literal cs true { BlockScalar.blank with trailingBreaks := trailing }) :=
      takeAll_comes cs rfl rfl rfl rfl
    have hb := hb.trans hfields
    have hvalue : b'.value chomping = (BlockScalar.takeAll literal cs true
        { BlockScalar.blank with trailingBreaks := trailing }).value chomping := by
      unfold BlockScalar.value
      rcases hc with hc | rfl
      · rw [hb.string, (hb.breaks hc).1, (hb.breaks hc).2]
      · exact hb.string
    rw [hvalue]
  obtain ⟨_, _, h, m', finish, rfl, rfl⟩ := hrun
  exact ⟨m', finish, h⟩

end Indentation

end Scanner

end LibYaml
