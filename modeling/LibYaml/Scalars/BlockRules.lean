import LibYaml.Scalars.Folded

/-!
# The rules of block scalars

A block scalar is a header, blank lines, and lines with line feeds between them.  Its value is said
line by line: which breaks are kept, which are folded, and what becomes of those at the end.
-/

namespace LibYaml

open Fallible Emitter
open EStateM (Result)

/-- A line with the number of line feeds behind it. -/
structure BlockLine where
  text : List Bytes
  feeds : Nat

namespace BlockLine

/-- What may stand in a line. -/
def Valid (l : BlockLine) : Prop := l.text ≠ [] ∧ ∀ c ∈ l.text, IsCharacter c ∧ isBreakz (view c) = false

/-- Whether a line starts with a blank. -/
def startsBlank (l : BlockLine) : Bool := isBlank (view (l.text.headD []))

def characters (l : BlockLine) : List Bytes := l.text ++ List.replicate l.feeds feed

end BlockLine

/-- So many line feeds. -/
def lineFeeds (n : Nat) : Bytes := List.replicate n (octet '\n')

/-- What stands between two lines in the value. -/
def separator (literal : Bool) (l l' : BlockLine) : Bytes :=
  if !literal && !l.startsBlank && !l'.startsBlank then
    if l.feeds = 1 then [blank] else lineFeeds (l.feeds - 1)
  else lineFeeds l.feeds

/-- The lines as they are joined in the value. -/
def joined (literal : Bool) : List BlockLine → Bytes
  | [] => []
  | [l] => l.text.flatten
  | l :: l' :: ls => l.text.flatten ++ (separator literal l l' ++ joined literal (l' :: ls))

/-- What is left of the line feeds at the end. -/
def chomped (n : Nat) : Scanner.Chomping → Bytes
  | .strip => []
  | .clip => lineFeeds (min n 1)
  | .keep => lineFeeds n

/-- The value of a block scalar.  Without a line, all line feeds are at the end, and none is the
first one behind a line. -/
def blockValue (literal : Bool) (chomping : Scanner.Chomping) (leading : Nat) : List BlockLine → Bytes
  | [] => if chomping = .keep then lineFeeds leading else []
  | l :: ls => lineFeeds leading ++ (joined literal (l :: ls)
      ++ chomped (((l :: ls).getLast?.map BlockLine.feeds).getD 0) chomping)

/-- The characters of the lines. -/
def blockCharacters (ls : List BlockLine) : List Bytes := ls.flatMap BlockLine.characters

/-- The text of the lines at their indentation. -/
def contentLines (indent : Nat) (ls : List BlockLine) : Bytes :=
  ls.flatMap fun l => List.replicate indent blank ++ (l.text.flatten ++ lineFeeds l.feeds)

/-- What comes behind the lines: one further left, or nothing at all. -/
inductive EndsLines (indent : Nat) (ls : List BlockLine) : Bytes → Bytes → Prop
  | line {k : Nat} {r : Bytes} (hl : ∀ l ∈ ls.getLast?, 0 < l.feeds) (hk : k < indent)
      (hr : r = [] ∨ StartsText r) : EndsLines indent ls (List.replicate k blank ++ r) r
  | stop (hl : ∃ l ∈ ls.getLast?, l.feeds = 0) : EndsLines indent ls [] []

namespace Scanner

section Values

variable {literal : Bool} {chomping : Chomping} {l : BlockLine}

theorem flatten_feeds (n : Nat) : (List.replicate n feed).flatten = lineFeeds n := by
  induction n with
  | zero => rfl
  | succ n ih =>
    rw [List.replicate_succ, List.flatten_cons, ih]
    rfl

/-- A scalar behind a line and the line feeds that follow it. -/
def BlockScalar.behind (b : BlockScalar) (string : Bytes) (l : BlockLine) : BlockScalar :=
  { b with
    string := string
    leadingBreak := lineFeeds (min l.feeds 1)
    trailingBreaks := lineFeeds (l.feeds - 1)
    leadingBlank := l.startsBlank }

/-- A line is taken behind what the breaks in front of it come to. -/
theorem takeAll_line (b : BlockScalar) (h : l.Valid) :
    b.takeAll literal l.characters true = b.behind (b.fold literal l.startsBlank ++ l.text.flatten) l := by
  obtain ⟨hne, htext⟩ := h
  obtain ⟨text, n⟩ := l
  cases text with
  | nil => exact absurd rfl hne
  | cons c cs =>
    have hbreak (d : Bytes) (hd : d ∈ c :: cs) : isBreak (view d) = false :=
      (isBreak_text (r := []) (htext d hd).1 (htext d hd).2).1
    have hc := hbreak c List.mem_cons_self
    have hcs : ∀ d ∈ cs, isBreak (view d) = false := fun d hd => hbreak d (List.mem_cons_of_mem _ hd)
    have hfeeds (k : Nat) : ∀ d ∈ List.replicate k feed, isBreak (view d) = true := by
      intro d hd
      rw [List.eq_of_mem_replicate hd]
      decide
    have htake : b.take literal true c = { b with
        string := b.fold literal (isBlank (view c)) ++ c
        leadingBreak := []
        trailingBreaks := []
        leadingBlank := isBlank (view c) } := by
      rw [BlockScalar.take, hc, if_neg Bool.false_ne_true, if_pos rfl]
    have hline : b.takeAll literal (c :: cs ++ List.replicate n feed) true
        = BlockScalar.takeAll literal (List.replicate n feed) false { b with
            string := b.fold literal (isBlank (view c)) ++ (c :: cs).flatten
            leadingBreak := []
            trailingBreaks := []
            leadingBlank := isBlank (view c) } := by
      rw [List.cons_append, BlockScalar.takeAll, hc, htake, takeAll_append, takeAll_text _ hcs,
        brokenOff_text hcs, List.flatten_cons, List.append_assoc]
    change b.takeAll literal (c :: cs ++ List.replicate n feed) true = _
    rw [hline]
    cases n with
    | zero => rfl
    | succ n =>
      have hfeed : isBreak (view feed) = true := by decide
      rw [List.replicate_succ, BlockScalar.takeAll, hfeed, takeAll_breaks _ (hfeeds n), flatten_feeds]
      unfold BlockScalar.behind BlockScalar.take
      simp only [hfeed, if_true, Bool.false_eq_true, if_false, List.nil_append]
      rw [Nat.add_sub_cancel, Nat.min_eq_right (Nat.le_add_left 1 n)]
      rfl

/-- What stands between two lines is what the breaks between them come to. -/
theorem fold_behind {b : BlockScalar} {string : Bytes} {l' : BlockLine} (h : 0 < l.feeds) :
    (b.behind string l).fold literal l'.startsBlank = string ++ separator literal l l' := by
  obtain ⟨n, hn⟩ : ∃ n, l.feeds = n + 1 := ⟨l.feeds - 1, by omega⟩
  have hmin : min (n + 1) 1 = 1 := Nat.min_eq_right (Nat.le_add_left 1 n)
  unfold BlockScalar.fold BlockScalar.behind separator
  simp only [hn, Nat.add_sub_cancel, hmin]
  by_cases hfold : (!literal && !l.startsBlank && !l'.startsBlank) = true
  · have hcond : (!literal && (lineFeeds 1).headD 0 == octet '\n' && !l.startsBlank && !l'.startsBlank) = true := by
      rw [← hfold]
      cases literal <;> rfl
    rw [if_pos hcond, if_pos hfold]
    cases n with
    | zero =>
      rw [if_pos (by decide), if_pos rfl]
      exact List.append_nil _
    | succ n =>
      have hhead : ((lineFeeds (n + 1)).headD 0 == 0) = false := rfl
      rw [hhead, if_neg Bool.false_ne_true, if_neg (by omega)]
  · have hcond : ¬(!literal && (lineFeeds 1).headD 0 == octet '\n' && !l.startsBlank && !l'.startsBlank) = true := by
      intro h
      refine hfold ?_
      rw [← h]
      cases literal <;> rfl
    rw [if_neg hcond, if_neg hfold, List.append_assoc]
    rfl

theorem value_behind {b : BlockScalar} {string : Bytes} :
    (b.behind string l).value chomping = string ++ chomped l.feeds chomping := by
  cases chomping with
  | strip => exact (List.append_nil string).symm
  | clip => rfl
  | keep =>
    change string ++ lineFeeds (min l.feeds 1) ++ lineFeeds (l.feeds - 1) = string ++ lineFeeds l.feeds
    rw [List.append_assoc]
    unfold lineFeeds
    rw [List.replicate_append_replicate]
    congr 2
    omega

theorem brokenOff_characters (h : 0 < l.feeds) (breaks : Bool) : brokenOff breaks l.characters = true := by
  obtain ⟨n, hn⟩ : ∃ n, l.feeds = n + 1 := ⟨l.feeds - 1, by omega⟩
  have hfeed : isBreak (view feed) = true := by decide
  have hall : ∀ c ∈ List.replicate n feed, isBreak (view c) = true := by
    intro c hc
    rw [List.eq_of_mem_replicate hc]
    exact hfeed
  unfold BlockLine.characters
  rw [brokenOff_append, hn, List.replicate_succ, brokenOff, hfeed, brokenOff_breaks hall]

/-- The value behind what is in front of the first line. -/
theorem value_lines : ∀ (ls : List BlockLine) {l : BlockLine} (b : BlockScalar),
    (∀ k ∈ l :: ls, k.Valid) → (∀ k ∈ (l :: ls).dropLast, 0 < k.feeds) →
      (b.takeAll literal (blockCharacters (l :: ls)) true).value chomping
        = b.fold literal l.startsBlank ++ (joined literal (l :: ls)
          ++ chomped (((l :: ls).getLast?.map BlockLine.feeds).getD 0) chomping)
  | [], l, b, hv, _ => by
    have hchars : blockCharacters [l] = l.characters := List.append_nil _
    rw [hchars, takeAll_line b (hv l List.mem_cons_self), value_behind, List.append_assoc]
    rfl
  | l' :: ls, l, b, hv, hf => by
    have hfeeds : 0 < l.feeds := hf l List.mem_cons_self
    have hchars : blockCharacters (l :: l' :: ls) = l.characters ++ blockCharacters (l' :: ls) := rfl
    rw [hchars, takeAll_append, brokenOff_characters hfeeds, takeAll_line b (hv l List.mem_cons_self),
      value_lines ls _ (fun k hk => hv k (List.mem_cons_of_mem _ hk))
        (fun k hk => hf k (List.mem_cons_of_mem _ hk)), fold_behind hfeeds, joined]
    simp only [List.append_assoc, List.getLast?_cons_cons]

/-- The value that the lines have behind blank lines. -/
theorem value_blockLines (leading : Nat) (ls : List BlockLine) (hv : ∀ l ∈ ls, l.Valid)
    (hf : ∀ l ∈ ls.dropLast, 0 < l.feeds) :
    (BlockScalar.takeAll literal (blockCharacters ls) true
        { BlockScalar.blank with trailingBreaks := lineFeeds leading }).value chomping
      = blockValue literal chomping leading ls := by
  cases ls with
  | nil => cases chomping <;> rfl
  | cons l ls =>
    have hfold : BlockScalar.fold literal l.startsBlank { BlockScalar.blank with trailingBreaks := lineFeeds leading }
        = lineFeeds leading := by
      unfold BlockScalar.fold BlockScalar.blank
      have hcond : ¬(!literal && ([] : Bytes).headD 0 == octet '\n' && !false && !l.startsBlank) = true := by
        have hz : (([] : Bytes).headD 0 == octet '\n') = false := by decide
        rw [hz, Bool.and_false, Bool.false_and, Bool.false_and]
        exact Bool.false_ne_true
      rw [if_neg hcond]
      rfl
    rw [value_lines ls _ hv hf, hfold]
    rfl

end Values

/-! ## The line of the header -/

section Header

variable {s : Scanner Bytes} {m start : Mark} {r : Bytes} {e : LineEnding}

/-- What may stand behind the indicators of a header. -/
structure HeaderEnd (tail : Bytes) : Prop where
  intro ::
  parts : ∃ blanks comment : List Bytes, tail = blanks.flatten ++ comment.flatten ∧
    (∀ c ∈ blanks, IsCharacter c ∧ isBlank (view c) = true) ∧
    (∀ c ∈ comment, IsCharacter c ∧ isBreakz (view c) = false) ∧
    ∀ c ∈ comment.head?, check (view c) '#' = true

/-- The indicators of a header, in either order, and what may stand behind them. -/
inductive HeaderText : Chomping → Nat → Bytes → Prop
  | hintFirst {chomping : Chomping} {increment : Nat} {tail : Bytes} (hi : increment < 10) (ht : HeaderEnd tail) :
      HeaderText chomping increment (hintText increment ++ (chompText chomping ++ tail))
  | chompFirst {chomping : Chomping} {increment : Nat} {tail : Bytes} (hi : increment < 10) (ht : HeaderEnd tail) :
      HeaderText chomping increment (chompText chomping ++ (hintText increment ++ tail))

theorem not_blank_of_hash {v : View} (h : check v '#' = true) : isBlank v = false := by
  have h0 : v 0 = octet '#' := beq_iff_eq.mp h
  unfold isBlank isBlankAt isSpaceAt isTabAt checkAt
  rw [h0]
  decide

/-- The line of a header ends behind its comment. -/
theorem scanLineEnd_text (context : String) (start : Mark) {tail : Bytes} (ht : HeaderEnd tail)
    (he : e.Stands r) :
    ∃ m', scanLineEnd context start (s.reading m (tail ++ (e.bytes ++ r))) = .ok () (s.reading m' r) ∧ m'.column = 0 := by
  obtain ⟨blanks, comment, rfl, hblanks, hcomment, hhash⟩ := ht.parts
  have hbr := e.isBreak_bytes r
  have hz : isBreakz (view (e.bytes ++ r)) = true := Bool.or_eq_true_iff.mpr (.inl hbr)
  have hcs : ∀ c ∈ comment, ∀ r, (!isBreakz (view (c ++ r))) = true := fun c hc r => by
    rw [(isBreak_text (hcomment c hc).1 (hcomment c hc).2).2.1]
    rfl
  have hend : isBlank (view (comment.flatten ++ (e.bytes ++ r))) = false := by
    cases comment with
    | nil => exact not_blank_of_break hbr
    | cons c cs =>
      refine not_blank_of_hash ?_
      rw [List.flatten_cons, List.append_assoc]
      exact (Local.check (n := 0) _ _ (agree_character (hcomment c List.mem_cons_self).1)).trans (hhash c rfl)
  have hskip := skipWhile_text (s := s) (m := m) hend (fun c hc => (hblanks c hc).1) fun c hc r =>
    (Local.isBlank (n := 0) _ _ (agree_character (hblanks c hc).1)).trans (hblanks c hc).2
  obtain ⟨n, hn⟩ := LineEnding.skipLine_bytes (s := s) (m := (m.right blanks.length).right comment.length) he
  refine ⟨((m.right blanks.length).right comment.length).down n, ?_, rfl⟩
  unfold scanLineEnd
  rw [cache_bind, List.append_assoc, bind_of_ok hskip, look_bind]
  cases comment with
  | nil =>
    have hh : check (view (([] : List Bytes).flatten ++ (e.bytes ++ r))) '#' = false := by
      cases e <;> rfl
    rw [hh]
    refine (bind_of_ok rfl).trans ?_
    rw [List.flatten_nil, List.nil_append, look_bind, hz, Bool.not_true, if_neg Bool.false_ne_true, look_bind,
      hbr, if_pos rfl, cache_bind]
    exact hn
  | cons c cs =>
    have hh : check (view ((c :: cs).flatten ++ (e.bytes ++ r))) '#' = true := by
      rw [List.flatten_cons, List.append_assoc]
      exact (Local.check (n := 0) _ _ (agree_character (hcomment c List.mem_cons_self).1)).trans (hhash c rfl)
    rw [hh]
    refine (bind_of_ok (skipWhile_text (by rw [hz]; rfl) (fun c hc => (hcomment c hc).1) hcs)).trans ?_
    rw [look_bind, hz, Bool.not_true, if_neg Bool.false_ne_true, look_bind, hbr, if_pos rfl, cache_bind]
    exact hn

theorem not_indicator_of_blank {v : View} (h : isBlank v = true) : isPlusMinus v = false ∧ isDigit v = false := by
  unfold isPlusMinus isDigit check checkAt
  rcases Bool.or_eq_true_iff.mp h with h | h <;> rw [beq_iff_eq.mp h] <;> decide

theorem not_indicator_of_hash {v : View} (h : check v '#' = true) : isPlusMinus v = false ∧ isDigit v = false := by
  have h0 : v 0 = octet '#' := beq_iff_eq.mp h
  unfold isPlusMinus isDigit check checkAt
  rw [h0]
  decide

/-- Nothing behind the indicators looks like one. -/
theorem HeaderEnd.not_indicator {tail : Bytes} (ht : HeaderEnd tail) :
    isPlusMinus (view (tail ++ (e.bytes ++ r))) = false ∧ isDigit (view (tail ++ (e.bytes ++ r))) = false := by
  obtain ⟨blanks, comment, rfl, hblanks, hcomment, hhash⟩ := ht.parts
  cases blanks with
  | cons c cs =>
    refine not_indicator_of_blank ?_
    rw [List.flatten_cons, List.append_assoc, List.append_assoc]
    obtain ⟨hc, hb⟩ := hblanks c List.mem_cons_self
    exact (Local.isBlank (n := 0) _ _ (agree_character hc)).trans hb
  | nil =>
    cases comment with
    | nil => exact break_spec (e.isBreak_bytes r)
    | cons c cs =>
      refine not_indicator_of_hash ?_
      rw [List.flatten_nil, List.nil_append, List.flatten_cons, List.append_assoc]
      exact (Local.check (n := 0) _ _ (agree_character (hcomment c List.mem_cons_self).1)).trans (hhash c rfl)

/-- The header of a block scalar up to its line's end. -/
theorem scanBlockScalarHeader_either (start : Mark) {chomping : Chomping} {increment : Nat} {header : Bytes}
    (h : HeaderText chomping increment header) :
    increment < 10 ∧ ∃ m' tail, HeaderEnd tail ∧ scanBlockScalarHeader start (s.reading m (header ++ (e.bytes ++ r)))
      = .ok (chomping, (increment : Int)) (s.reading m' (tail ++ (e.bytes ++ r))) := by
  cases h with
  | @hintFirst tail hi ht =>
    obtain ⟨hpm, hdigit⟩ := ht.not_indicator (r := r) (e := e)
    obtain ⟨m', hm⟩ := scanBlockScalarHeader_text (s := s) (m := m) start chomping hi hpm hdigit
    rw [List.append_assoc, List.append_assoc]
    exact ⟨hi, m', tail, ht, hm⟩
  | @chompFirst tail hi ht =>
    obtain ⟨hpm, hdigit⟩ := ht.not_indicator (r := r) (e := e)
    refine ⟨hi, ?_⟩
    rw [List.append_assoc, List.append_assoc]
    by_cases hc : chomping = .clip
    · subst hc
      obtain ⟨m', hm⟩ := scanBlockScalarHeader_text (s := s) (m := m) start .clip hi hpm hdigit
      exact ⟨m', tail, ht, hm⟩
    · obtain ⟨h1, h2⟩ := scanChomping_text (s := s) (m := m) (r := hintText increment ++ (tail ++ (e.bytes ++ r))) hc
      unfold scanBlockScalarHeader
      rw [look_bind, h1, if_pos rfl, bind_of_ok h2, cache_bind, look_bind]
      by_cases h0 : increment = 0
      · subst h0
        refine ⟨m.right 1, tail, ht, ?_⟩
        rw [hintText, if_pos rfl, List.nil_append, hdigit, if_neg Bool.false_ne_true]
        rfl
      · obtain ⟨-, h3, h4⟩ := scanIncrement_text (s := s) (m := m.right 1) start
          (r := tail ++ (e.bytes ++ r)) hi h0
        refine ⟨(m.right 1).right 1, tail, ht, ?_⟩
        rw [h3, if_pos rfl, bind_of_ok h4]
        rfl

end Header

/-! ## The lines in front of the first one -/

/-- One round over the lines in front of a line of a block scalar. -/
def breaksRound {ι : Type} [Input ι] (indent : Int) (start : Mark) :
    Int × Bytes × Mark → ScanM ι (Round (Int × Bytes × Mark) (Int × Bytes × Mark)) :=
  fun (maxIndent, breaks, finish) => do
    cache 1
    skipIndentation indent
    let mark ← getMark
    let maxIndent := max maxIndent (cInt mark.column)
    if ← look (fun p => leftOf indent mark && isTab p) then
      scannerError (some "while scanning a block scalar") start
        "found a tab character where an indentation space is expected"
    else if ← look (!isBreak ·) then return .leave (maxIndent, breaks, finish)
    else do
      cache 2
      let breaks ← readLine breaks
      let finish ← getMark
      return .again (maxIndent, breaks, finish)

/-- Blank lines with so many spaces each. -/
def blankLines (ks : List Nat) : Bytes := ks.flatMap fun k => List.replicate k blank ++ feed

/-- The largest of these indentations. -/
def widest (ks : List Nat) : Nat := ks.foldr max 0

/-- The indentation that is found, from that of the blank lines and of the line behind them. -/
def detected (outer : Int) (ks : List Nat) (first : Nat) : Int :=
  max (max (max (widest ks : Nat) first) (outer + 1)) 1

section Rounds

variable {s : Scanner Bytes} {m start : Mark} {r : Bytes} {indent maxIndent : Int} {breaks : Bytes} {finish : Mark}

theorem cInt_right {k : Nat} (hm : m.column = 0) (hk : k ≤ maxInt) : cInt (m.right k).column = k := by
  have hmax : maxInt = 2147483647 := rfl
  rw [Mark.right_column, hm, Nat.zero_add, cInt_of_lt (by omega)]

theorem leftOf_right {k : Nat} (hm : m.column = 0) (hk : k ≤ maxInt) :
    leftOf indent (m.right k) = (decide (indent = 0) || decide ((k : Int) < indent)) := by
  unfold leftOf
  rw [cInt_right hm hk]

/-- The spaces that indent a line are passed. -/
theorem skipIndentation_line {k : Nat} (hm : m.column = 0) (hk : k ≤ maxInt) (hi : indent = 0 ∨ (k : Int) ≤ indent)
    (hr : (leftOf indent (m.right k) && isSpace (view r)) = false) :
    skipIndentation indent (s.reading m (List.replicate k blank ++ r)) = .ok () (s.reading (m.right k) r) := by
  have hleft (j : Nat) (hj : j < k) : leftOf indent (m.right j) = true := by
    rw [leftOf_right hm (by omega)]
    rcases hi with hi | hi
    · rw [decide_eq_true hi, Bool.true_or]
    · rw [decide_eq_true (show (j : Int) < indent by omega), Bool.or_true]
  obtain ⟨⟨⟩, _, h, rfl⟩ : Yields (skipIndentation indent) (s.reading m (List.replicate k blank ++ r))
      fun _ t => t = s.reading (m.right k) r := skipIndentation_spaces hleft hr rfl
  exact h

theorem breaksRound_blank (start : Mark) (maxIndent : Int) (breaks : Bytes) (finish : Mark) {k : Nat} (hm : m.column = 0) (hk : k ≤ maxInt) (hi : indent = 0 ∨ (k : Int) ≤ indent) :
    ∃ m', m'.column = 0 ∧ breaksRound indent start (maxIndent, breaks, finish)
        (s.reading m (List.replicate k blank ++ (feed ++ r)))
      = .ok (.again (max maxIndent k, breaks ++ feed, m')) (s.reading m' r) := by
  have hsp : isSpace (view (feed ++ r)) = false := rfl
  have htab : isTab (view (feed ++ r)) = false := rfl
  have hbr : isBreak (view (feed ++ r)) = true := rfl
  have hskip := skipIndentation_line (s := s) (r := feed ++ r) hm hk hi (by rw [hsp, Bool.and_false])
  obtain ⟨n, hn⟩ : ∃ n, readLine breaks (s.reading (m.right k) (feed ++ r))
      = .ok (breaks ++ feed) (s.reading ((m.right k).down n) r) := LineEnding.readLine_bytes (e := .lf) nofun
  refine ⟨(m.right k).down n, rfl, ?_⟩
  unfold breaksRound
  simp only []
  rw [cache_bind, bind_of_ok hskip, getMark_bind, look_bind, htab, Bool.and_false, if_neg Bool.false_ne_true,
    look_bind, hbr, Bool.not_true, if_neg Bool.false_ne_true, cache_bind, cInt_right hm hk]
  exact (bind_of_ok hn).trans rfl

theorem breaksRound_line {k : Nat} (hm : m.column = 0) (hk : k ≤ maxInt) (hi : indent = 0 ∨ (k : Int) ≤ indent)
    (hr : (leftOf indent (m.right k) && (isSpace (view r) || isTab (view r))) = false)
    (hbr : isBreak (view r) = false) :
    breaksRound indent start (maxIndent, breaks, finish) (s.reading m (List.replicate k blank ++ r))
      = .ok (.leave (max maxIndent k, breaks, finish)) (s.reading (m.right k) r) := by
  rw [Bool.and_or_distrib_left, Bool.or_eq_false_iff] at hr
  unfold breaksRound
  simp only []
  rw [cache_bind, bind_of_ok (skipIndentation_line hm hk hi hr.1), getMark_bind, look_bind, hr.2,
    if_neg Bool.false_ne_true, look_bind, hbr, Bool.not_false, if_pos rfl, cInt_right hm hk]
  rfl

/-- The blank lines in front of a line, and its indentation. -/
theorem breaks_blankLines (start : Mark) {k : Nat} (hk : k ≤ maxInt) (hi : indent = 0 ∨ (k : Int) ≤ indent)
    (hr : ∀ m : Mark, m.column = 0 → (leftOf indent (m.right k) && (isSpace (view r) || isTab (view r))) = false)
    (hbr : isBreak (view r) = false) :
    ∀ (ks : List Nat) {m : Mark} {maxIndent : Int} (breaks : Bytes) (finish : Mark),
      m.column = 0 → 0 ≤ maxIndent → (∀ j ∈ ks, j ≤ maxInt ∧ (indent = 0 ∨ (j : Int) ≤ indent)) →
        Yields (repeatedly (breaksRound indent start) (maxIndent, breaks, finish))
          (s.reading m (blankLines ks ++ (List.replicate k blank ++ r))) fun a t =>
            a.1 = max (max maxIndent (widest ks)) k ∧ a.2.1 = breaks ++ lineFeeds ks.length ∧
              ∃ m', m'.column = k ∧ t = s.reading m' r
  | [], m, maxIndent, breaks, _, hm, h0, _ => by
    refine repeatedly_leave (breaksRound_line hm hk hi (hr m hm) hbr) ⟨?_, ?_, m.right k, ?_, rfl⟩
    · have : widest [] = 0 := rfl
      omega
    · exact (List.append_nil breaks).symm
    · rw [Mark.right_column, hm, Nat.zero_add]
  | j :: ks, _, maxIndent, breaks, finish, hm, h0, hks => by
    obtain ⟨hj, hji⟩ := hks j List.mem_cons_self
    obtain ⟨m', hm', hround⟩ := breaksRound_blank (s := s) (r := blankLines ks ++ (List.replicate k blank ++ r))
      start maxIndent breaks finish hm hj hji
    have hmax : 0 ≤ max maxIndent (j : Int) := by omega
    have hrest := breaks_blankLines start hk hi hr hbr ks (breaks ++ feed) m' hm' hmax fun i hi =>
      hks i (List.mem_cons_of_mem _ hi)
    have htext : blankLines (j :: ks) ++ (List.replicate k blank ++ r)
        = List.replicate j blank ++ (feed ++ (blankLines ks ++ (List.replicate k blank ++ r))) := by
      simp [blankLines]
    rw [htext]
    refine repeatedly_again hround ?_ (hrest.weaken ?_)
    · simp only [reading, List.length_append]
      have : feed.length = 1 := rfl
      omega
    · rintro a t ⟨h1, h2, h3⟩
      refine ⟨?_, ?_, h3⟩
      · have : widest (j :: ks) = max j (widest ks) := rfl
        omega
      · rw [h2, List.append_assoc]
        rfl

theorem scanBlockScalarBreaks_blankLines (start : Mark) {k : Nat} (hk : k ≤ maxInt) (hi : indent = 0 ∨ (k : Int) ≤ indent)
    (hr : ∀ m : Mark, m.column = 0 → (leftOf indent (m.right k) && (isSpace (view r) || isTab (view r))) = false)
    (hbr : isBreak (view r) = false) {ks : List Nat} (hm : m.column = 0)
    (hks : ∀ j ∈ ks, j ≤ maxInt ∧ (indent = 0 ∨ (j : Int) ≤ indent)) (ho : toCInt (s.indent + 1) = s.indent + 1) :
    Yields (scanBlockScalarBreaks indent [] start) (s.reading m (blankLines ks ++ (List.replicate k blank ++ r)))
      fun a t => a.1 = (if indent = 0 then detected s.indent ks k else indent) ∧ a.2.1 = lineFeeds ks.length ∧
        ∃ m', m'.column = k ∧ t = s.reading m' r := by
  have hround := breaks_blankLines (s := s) start hk hi hr hbr ks [] m hm (Int.le_refl 0) hks
  refine .step getMark_text (hround.bind ?_)
  rintro ⟨maxIndent, breaks, finish⟩ _ ⟨hmax, hbreaks, m', hm', rfl⟩
  have hmax : maxIndent = max (max 0 (widest ks : Int)) k := hmax
  refine .step getIndent_text ⟨_, _, rfl, ?_, hbreaks, m', hm', rfl⟩
  change (if indent = 0 then max (max maxIndent (toCInt (s.indent + 1))) 1 else indent) = _
  rw [ho, hmax]
  unfold detected
  split <;> omega

end Rounds

/-- How many spaces a line starts with. -/
def indentation (b : Bytes) : Nat := (b.takeWhile (· == blank)).length

theorem indentation_replicate {k : Nat} {r : Bytes} (hr : isSpace (view r) = false) :
    indentation (List.replicate k blank ++ r) = k := by
  unfold indentation
  induction k with
  | zero =>
    cases r with
    | nil => rfl
    | cons c cs =>
      have hc : (c == blank) = false := hr
      rw [List.replicate_zero, List.nil_append, List.takeWhile_cons, hc]
      rfl
  | succ k ih =>
    rw [List.replicate_succ, List.cons_append, List.takeWhile_cons, if_pos (by decide), List.length_cons, ih]

/-- The indentation of the lines, said by an indicator or found from the lines in front of `rest`. -/
inductive ContentIndent (outer : Int) (leading : List Nat) (ls : List BlockLine) (rest : Bytes) :
    Nat → Nat → Prop
  | said {increment indent : Nat} (hne : increment ≠ 0)
      (hi : (indent : Int) = if 0 ≤ outer then outer + increment else increment)
      (hk : ∀ k ∈ leading, k ≤ indent) : ContentIndent outer leading ls rest increment indent
  | found {indent : Nat}
      (hi : (indent : Int) = detected outer leading (if ls = [] then indentation rest else indent))
      (hb : ∀ l ∈ ls.head?, l.startsBlank = false) : ContentIndent outer leading ls rest 0 indent

theorem le_widest : ∀ {ks : List Nat} {k : Nat}, k ∈ ks → k ≤ widest ks
  | j :: ks, k, h => by
    have : widest (j :: ks) = max j (widest ks) := rfl
    rcases List.mem_cons.mp h with rfl | h
    · omega
    · have := le_widest h
      omega

section Rules

variable {s : Scanner Bytes} {m start : Mark} {rest r : Bytes} {leading : List Nat} {ls : List BlockLine}
  {increment indent : Nat}

theorem ContentIndent.pos (h : ContentIndent s.indent leading ls rest increment indent) : 0 < indent := by
  cases h with
  | said hne hi hk =>
    split at hi <;> omega
  | found hi hb =>
    unfold detected at hi
    omega

/-- What the scanner is told about the indentation: nothing, or what it is. -/
theorem ContentIndent.told (hlt : indent ≤ maxInt) (h : ContentIndent s.indent leading ls rest increment indent) :
    (if (increment : Int) = 0 then 0
      else if 0 ≤ s.indent then toCInt (s.indent + increment) else (increment : Int))
        = if increment = 0 then 0 else (indent : Int) := by
  have hmax : maxInt = 2147483647 := rfl
  cases h with
  | said hne hi hk =>
    have hne' : (increment : Int) ≠ 0 := by omega
    rw [if_neg hne, if_neg hne']
    split at hi
    · rw [if_pos (by assumption), toCInt_of_lt (by omega) (by omega), hi]
    · rw [if_neg (by assumption), hi]
  | found hi hb => rfl

/-- The scanner stands at the first line behind the breaks in front of it. -/
theorem scanBlockScalarBreaks_leading (start : Mark) (hs : -1 ≤ s.indent) (hlt : indent ≤ maxInt)
    (hv : ∀ l ∈ ls, l.Valid) (hi : ContentIndent s.indent leading ls rest increment indent)
    (hr : Outdented .ln indent (brokenOff true (blockCharacters ls)) rest r) (hm : m.column = 0) :
    Yields (scanBlockScalarBreaks
        (if (increment : Int) = 0 then 0
          else if 0 ≤ s.indent then toCInt (s.indent + increment) else increment) [] start)
      (s.reading m (blankLines leading ++ (indented .ln indent (blockCharacters ls) true ++ rest))) fun a t =>
        a.1 = (indent : Int) ∧ a.2.1 = lineFeeds leading.length ∧
          AtLine .ln indent s rest r (blockCharacters ls) t := by
  have hmax : maxInt = 2147483647 := rfl
  have hpos : 0 < indent := hi.pos
  have ho : toCInt (s.indent + 1) = s.indent + 1 := by
    refine toCInt_of_lt (by omega) ?_
    cases hi with
    | said hne hi hk => split at hi <;> omega
    | found hi hb =>
      unfold detected at hi
      omega
  -- the lines in front of the first one are no further right than it
  have hks : ∀ j ∈ leading, j ≤ maxInt ∧
      ((if increment = 0 then 0 else (indent : Int)) = 0 ∨ (j : Int) ≤ if increment = 0 then 0 else (indent : Int)) := by
    intro j hj
    cases hi with
    | said hne hi hk =>
      have := hk j hj
      rw [if_neg hne]
      omega
    | found hi hb =>
      have := le_widest hj
      unfold detected at hi
      exact ⟨by omega, .inl rfl⟩
  have hat {k : Nat} (hk : k ≤ indent) :
      (if increment = 0 then 0 else (indent : Int)) = 0 ∨ (k : Int) ≤ if increment = 0 then 0 else (indent : Int) := by
    split
    · exact .inl rfl
    · exact .inr (by omega)
  rw [hi.told hlt]
  cases ls with
  | nil =>
    have hnone : blockCharacters [] = [] := rfl
    rw [hnone] at hr
    rw [hnone, indented, List.nil_append]
    cases hr with
    | @line k _ hk hnone' =>
      obtain ⟨hsp, htab, hbr⟩ := startsNone hnone'
      refine (scanBlockScalarBreaks_blankLines (s := s) start (k := k) (by omega) (hat (by omega))
        (fun m hm => by rw [hsp, htab, Bool.or_false, Bool.and_false]) hbr hm hks ho).weaken ?_
      rintro a t ⟨h1, h2, m', hm', rfl⟩
      refine ⟨?_, h2, .inr ⟨m', rfl, .inl (by omega), rfl⟩⟩
      rw [h1]
      cases hi with
      | said hne hi hk =>
        rw [if_neg hne, if_neg]
        omega
      | found hi hb =>
        rw [if_pos rfl, indentation_replicate hsp] at hi
        rw [if_pos rfl, if_pos rfl, hi]
  | cons l ls =>
    obtain ⟨hne, htext⟩ := hv l List.mem_cons_self
    obtain ⟨text, n⟩ := l
    cases text with
    | nil => exact absurd rfl hne
    | cons c cs =>
      obtain ⟨hc, hz⟩ := htext c List.mem_cons_self
      have hbr := (isBreak_text (r := []) hc hz).1
      have hlaid : indented .ln indent (blockCharacters (⟨c :: cs, n⟩ :: ls)) true ++ rest
          = List.replicate indent blank ++ (indented .ln indent (blockCharacters (⟨c :: cs, n⟩ :: ls)) false ++ rest) := by
        change indented .ln indent (c :: _) true ++ rest = _ ++ (indented .ln indent (c :: _) false ++ rest)
        rw [indented, indented, hbr, if_neg Bool.false_ne_true, if_neg Bool.false_ne_true, if_pos rfl,
          if_neg Bool.false_ne_true, List.nil_append, List.append_assoc]
      obtain ⟨tail, htail⟩ : ∃ tail, indented .ln indent (blockCharacters (⟨c :: cs, n⟩ :: ls)) false ++ rest = c ++ tail := by
        change ∃ tail, indented .ln indent (c :: _) false ++ rest = c ++ tail
        rw [indented, hbr, if_neg Bool.false_ne_true, if_neg Bool.false_ne_true, List.nil_append, List.append_assoc]
        exact ⟨_, rfl⟩
      have hbr' : isBreak (view (c ++ tail)) = false := (isBreak_text hc hz).2.2
      have hblank : isBlank (view (c ++ tail)) = isBlank (view c) := Local.isBlank (n := 0) _ _ (agree_character hc)
      have hstop (m : Mark) (hm : m.column = 0) :
          (leftOf (if increment = 0 then 0 else (indent : Int)) (m.right indent)
            && (isSpace (view (c ++ tail)) || isTab (view (c ++ tail)))) = false := by
        cases hi with
        | said hne hi hk =>
          rw [leftOf_right hm hlt, if_neg hne, decide_eq_false (Int.lt_irrefl _), decide_eq_false]
          · rfl
          · omega
        | found hi hb =>
          have : isBlank (view c) = false := hb _ rfl
          change (_ && isBlank (view (c ++ tail))) = false
          rw [hblank, this, Bool.and_false]
      rw [hlaid, htail]
      refine (scanBlockScalarBreaks_blankLines (s := s) start (k := indent) hlt (hat (Nat.le_refl _))
        hstop hbr' hm hks ho).weaken ?_
      rintro a t ⟨h1, h2, m', hm', rfl⟩
      refine ⟨?_, h2, .inl ⟨m', c, _, rfl, hc, hz, hm', ?_⟩⟩
      · rw [h1]
        cases hi with
        | said hne hi hk =>
          rw [if_neg hne, if_neg (by omega)]
        | found hi hb =>
          rw [if_neg (List.cons_ne_nil _ _)] at hi
          rw [if_pos rfl, if_pos rfl, ← hi]
      · rw [← htail]

theorem isBreak_feed : isBreak (view feed) = true := by decide

theorem indented_feeds {k : Nat} {cs : List Bytes} : ∀ {n : Nat} {breaks : Bool}, 0 < n →
    indented .ln k (List.replicate n feed ++ cs) breaks = lineFeeds n ++ indented .ln k cs true
  | n + 1, breaks, _ => by
    have hone : indented .ln k (feed :: (List.replicate n feed ++ cs)) breaks
        = feed ++ indented .ln k (List.replicate n feed ++ cs) true := by
      rw [indented, if_pos isBreak_feed]
      rfl
    rw [List.replicate_succ, List.cons_append, hone]
    by_cases hn : n = 0
    · subst hn
      rfl
    · rw [indented_feeds (by omega)]
      rfl

/-- The lines are laid as their characters are. -/
theorem indented_lines {k : Nat} : ∀ {ls : List BlockLine}, (∀ l ∈ ls, l.Valid) →
    (∀ l ∈ ls.dropLast, 0 < l.feeds) → indented .ln k (blockCharacters ls) true = contentLines k ls
  | [], _, _ => rfl
  | l :: ls, hv, hf => by
    obtain ⟨hne, htext⟩ := hv l List.mem_cons_self
    obtain ⟨text, n⟩ := l
    cases text with
    | nil => exact absurd rfl hne
    | cons c cs =>
      have hbreak : ∀ d ∈ c :: cs, isBreak (view d) = false := fun d hd =>
        (isBreak_text (r := []) (htext d hd).1 (htext d hd).2).1
      have hrest : indented .ln k (List.replicate n feed ++ blockCharacters ls) false = lineFeeds n ++ contentLines k ls := by
        by_cases hn : n = 0
        · -- only the last line may do without a line feed
          have hls : ls = [] := by
            cases ls with
            | nil => rfl
            | cons l' ls =>
              have : 0 < n := hf _ List.mem_cons_self
              omega
          subst hls hn
          rfl
        · rw [indented_feeds (by omega), indented_lines (fun l hl => hv l (List.mem_cons_of_mem _ hl))]
          intro l hl
          cases ls with
          | nil => cases hl
          | cons l' ls => exact hf l (List.mem_cons_of_mem _ hl)
      have hchars : blockCharacters (⟨c :: cs, n⟩ :: ls)
          = c :: (cs ++ (List.replicate n feed ++ blockCharacters ls)) := by
        change (c :: cs ++ List.replicate n feed) ++ blockCharacters ls = _
        rw [List.append_assoc]
        rfl
      have hfirst : contentLines k (⟨c :: cs, n⟩ :: ls)
          = List.replicate k blank ++ ((c :: cs).flatten ++ (lineFeeds n ++ contentLines k ls)) := by
        simp [contentLines]
      rw [hchars, hfirst, indented, hbreak c List.mem_cons_self, if_neg Bool.false_ne_true, if_pos rfl,
        indented_text fun d hd => hbreak d (List.mem_cons_of_mem _ hd), hrest, List.flatten_cons, List.append_assoc]

/-- Characters end with a break if the last line does. -/
theorem brokenOff_concat (ls : List BlockLine) {l : BlockLine} (hl : l.Valid) :
    brokenOff true (blockCharacters (ls ++ [l])) = decide (0 < l.feeds) := by
  have hchars : blockCharacters (ls ++ [l]) = blockCharacters ls ++ l.characters := by
    simp [blockCharacters]
  rw [hchars, brokenOff_append]
  by_cases hn : 0 < l.feeds
  · rw [brokenOff_characters hn, decide_eq_true hn]
  · obtain ⟨hne, htext⟩ := hl
    obtain ⟨text, n⟩ := l
    obtain rfl : n = 0 := by simpa using hn
    cases text with
    | nil => exact absurd rfl hne
    | cons c cs =>
      have hbreak : ∀ d ∈ c :: cs, isBreak (view d) = false := fun d hd =>
        (isBreak_text (r := []) (htext d hd).1 (htext d hd).2).1
      have hline : BlockLine.characters ⟨c :: cs, 0⟩ = c :: cs := List.append_nil _
      rw [hline, brokenOff, hbreak c List.mem_cons_self,
        brokenOff_text fun d hd => hbreak d (List.mem_cons_of_mem _ hd)]
      rfl

theorem outdented_lines (hv : ∀ l ∈ ls, l.Valid) (h : EndsLines indent ls rest r) :
    Outdented .ln indent (brokenOff true (blockCharacters ls)) rest r ∧
      (brokenOff true (blockCharacters ls) = true ∨ rest = []) := by
  rcases List.eq_nil_or_concat ls with rfl | ⟨init, l, rfl⟩
  · cases h with
    | line hl hk hr => exact ⟨.line hk hr, .inl rfl⟩
    | stop hl => exact absurd hl (by simp)
  · rw [List.concat_eq_append] at hv h ⊢
    have hbroken := brokenOff_concat init (hv l (List.mem_append_right _ List.mem_cons_self))
    have hlast : (init ++ [l]).getLast? = some l := List.getLast?_concat
    rw [hbroken]
    cases h with
    | line hl hk hr =>
      rw [decide_eq_true (hl l hlast)]
      exact ⟨.line hk hr, .inl rfl⟩
    | stop hl =>
      obtain ⟨l', hl', h0⟩ := hl
      obtain rfl : l = l' := Option.some.inj (hlast.symm.trans hl')
      rw [decide_eq_false (by omega)]
      exact ⟨.stop, .inr rfl⟩

theorem blockCharacter_line {l : BlockLine} (hv : l.Valid) {c : Bytes} (hc : c ∈ l.characters) : BlockCharacter c := by
  rcases List.mem_append.mp hc with hc | hc
  · exact .inr (hv.2 c hc)
  · rw [List.eq_of_mem_replicate hc]
    exact .inl (.inl rfl)

end Rules

end Scanner

/-- The value of a block scalar follows from its header and its lines. -/
theorem block_scalar_rules (s : Scanner Bytes) (hs : -1 ≤ s.indent) (m : Mark) (literal : Bool)
    (chomping : Scanner.Chomping) (increment indent : Nat) (hlt : indent ≤ Scanner.maxInt) (header rest r : Bytes)
    (e : LineEnding) (leading : List Nat) (ls : List BlockLine) (hh : Scanner.HeaderText chomping increment header)
    (he : e.Stands (Scanner.blankLines leading ++ (contentLines indent ls ++ rest)))
    (hv : ∀ l ∈ ls, l.Valid) (hf : ∀ l ∈ ls.dropLast, 0 < l.feeds)
    (hi : Scanner.ContentIndent s.indent leading ls rest increment indent) (hr : EndsLines indent ls rest r) :
    ∃ m' finish, Scanner.scanBlockScalar literal (s.reading m (octet (if literal then '|' else '>') ::
        (header ++ (e.bytes ++ (Scanner.blankLines leading ++ (contentLines indent ls ++ rest))))))
      = .ok ⟨.scalar (blockValue literal chomping leading.length ls) (if literal then .literal else .folded), m, finish⟩
          (s.reading m' r) := by
  have hmax : Scanner.maxInt = 2147483647 := rfl
  have hpos : 0 < indent := hi.pos
  obtain ⟨hr, hstop⟩ := Scanner.outdented_lines hv hr
  obtain ⟨hten, m₂, tail, htail, hheader⟩ := Scanner.scanBlockScalarHeader_either (s := s) (m := m.right 1)
    (e := e) (r := Scanner.blankLines leading ++ (contentLines indent ls ++ rest)) m hh
  obtain ⟨m₃, hend, hcolumn⟩ := Scanner.scanLineEnd_text (s := s) (m := m₂) "while scanning a block scalar" m htail he
  have hbreaks := Scanner.scanBlockScalarBreaks_leading m hs hlt hv hi hr hcolumn
  rw [Scanner.indented_lines hv hf] at hbreaks
  have hcs : ∀ c ∈ blockCharacters ls, BlockCharacter c := by
    intro c hc
    obtain ⟨l, hl, hc⟩ := List.mem_flatMap.mp hc
    exact Scanner.blockCharacter_line (hv l hl) hc
  rw [← Scanner.value_blockLines leading.length ls hv hf]
  refine Scanner.scanBlockScalar_lines literal (show Break.ln ≠ .any by decide) hpos (by omega) (Scanner.skip_octet ?_) hheader hend hbreaks hcs
    (fun _ => hr) (.inl hstop)
  cases literal <;> decide

/-- A scanner that has come to `indent`. -/
def scannerAt (indent : Int) (b : Bytes) : Scanner Bytes := { input := b, indent := indent }

theorem block_scalar_rules_words :
    ∃ m' finish, Scanner.scanBlockScalar false ((scannerAt (-1) []).reading .zero (ascii
        ['>', '+', '\n', ' ', '\n', ' ', ' ', 'a', '\n', ' ', ' ', 'b', '\n', '\n']))
      = .ok ⟨.scalar (ascii ['\n', 'a', ' ', 'b', '\n', '\n']) .folded, .zero, finish⟩
          ((scannerAt (-1) []).reading m' []) :=
  block_scalar_rules (scannerAt (-1) []) (by decide) .zero false .keep 0 2 (by decide) (ascii ['+']) [] [] .lf [1]
    [⟨[ascii ['a']], 1⟩, ⟨[ascii ['b']], 2⟩]
    (.hintFirst (by decide) ⟨[], [], rfl, nofun, nofun, nofun⟩) nofun (by
      intro l hl
      rcases List.mem_pair.mp hl with rfl | rfl
      · exact ⟨nofun, fun c hc => by rw [List.mem_singleton.mp hc]; exact ⟨isCharacter_ascii (by decide), by decide⟩⟩
      · exact ⟨nofun, fun c hc => by rw [List.mem_singleton.mp hc]; exact ⟨isCharacter_ascii (by decide), by decide⟩⟩)
    (by decide) (.found (by decide) (by decide))
    (.line (k := 0) (r := []) (by decide) (by decide) (.inl rfl))

/-- What a run of the scanner finds, if it finds a token. -/
def found (x : Result Fault (Scanner Bytes) Token) : Option TokenData :=
  match x with
  | .ok token _ => some token.data
  | .error _ _ => none

/-- A tab is refused where the indentation is being looked for, the breaks of a scalar without lines
are none of its value unless all are kept, and nothing lies deeper than the deepest indentation. -/
theorem block_scalar_rules_broken :
    (BlockLine.Valid ⟨[ascii ['\t'], ascii ['a']], 1⟩ ∧ Scanner.detected (-1) [] 1 = 1 ∧
      found (Scanner.scanBlockScalar true ((scannerAt (-1) []).reading .zero
        (ascii ['|', '\n'] ++ contentLines 1 [⟨[ascii ['\t'], ascii ['a']], 1⟩]))) = none) ∧
    found (Scanner.scanBlockScalar true ((scannerAt (-1) []).reading .zero (ascii ['|', '\n'] ++ lineFeeds 1)))
      = some (.scalar [] .literal) ∧
    found (Scanner.scanBlockScalar true ((scannerAt Scanner.maxInt []).reading .zero
        (ascii ['|', '1', '+', '\n'] ++ Scanner.blankLines [1]))) = some (.scalar [] .literal) := by
  refine ⟨⟨⟨nofun, fun c hc => ?_⟩, by decide, by decide +kernel⟩, by decide +kernel, by decide +kernel⟩
  rcases List.mem_pair.mp hc with rfl | rfl
  · exact ⟨isCharacter_ascii (by decide), by decide⟩
  · exact ⟨isCharacter_ascii (by decide), by decide⟩

end LibYaml
