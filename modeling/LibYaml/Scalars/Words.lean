import Mathlib.Data.List.Chain
import LibYaml.Scalars.Quoted

/-!
# Words between blanks and breaks

A text of words is folded alike whether it stands between quotes or is plain.  A quoted scalar takes
the blanks and breaks behind a word into its value at once, a plain one when the next word has come.
-/

namespace LibYaml

open Fallible
open EStateM (Result)

/-! ## Texts -/

theorem LineEnding.value_headD (e : LineEnding) : e.value.headD 0 ≠ 0 := by
  cases e <;> decide

/-- A blank or a break between two words. -/
inductive Space
  | blank (tab : Bool)
  | ending (e : LineEnding)
deriving DecidableEq

namespace Space

def bytes : Space → Bytes
  | .blank false => [octet ' ']
  | .blank true => [octet '\t']
  | .ending e => e.bytes

/-- The column behind it. -/
def past (column : Nat) : Space → Nat
  | .blank _ => column + 1
  | .ending _ => 0

/-- Whether a break has come before what stands behind it. -/
def leads (leading : Bool) : Space → Bool
  | .blank _ => leading
  | .ending _ => true

/-- Whether it is a tab in the indentation of a line, where `left` says it must not be. -/
def forbidden (left : Nat → Bool) (leading : Bool) (column : Nat) : Space → Bool
  | .blank tab => leading && tab && left column
  | .ending _ => false

end Space

/-- A character that neither ends a word nor means something in a plain or a quoted scalar. -/
structure InWord (c : Bytes) : Prop where
  character : IsCharacter c
  text : StartsText c
  plain : view c 0 ∉ [octet '\'', octet '"', octet '\\', octet ':', octet '#']

section InWord

variable {c r : Bytes}

theorem InWord.ne (h : InWord c) {a : Char}
    (ha : octet a ∈ [octet '\'', octet '"', octet '\\', octet ':', octet '#']) : check (view (c ++ r)) a = false := by
  refine beq_eq_false_iff_ne.mpr fun he => h.plain ?_
  rw [← view_append_lt (r := r) h.character.length_pos, he]
  exact ha

theorem InWord.startsText (h : InWord c) : StartsText (c ++ r) := startsText_append h.character h.text

end InWord

structure Word where
  characters : List Bytes
  nonempty : characters ≠ []
  inWord : ∀ c ∈ characters, InWord c

/-- The blanks and breaks between two words; a CR takes the LF behind it for itself. -/
structure Gap where
  spaces : List Space
  nonempty : spaces ≠ []
  joined : spaces.IsChain fun x y => ¬(x = .ending .cr ∧ y = .ending .lf)

def Word.bytes (w : Word) : Bytes := w.characters.flatten

/-- The character is no indicator of a flow collection. -/
def NotFlow (c : Bytes) : Prop := view c 0 ∉ [octet ',', octet '[', octet ']', octet '{', octet '}']

def Word.Inline (w : Word) : Prop := ∀ c ∈ w.characters, NotFlow c

def Gap.bytes (g : Gap) : Bytes := g.spaces.flatMap Space.bytes

/-- The column behind a gap. -/
def Gap.past (g : Gap) (column : Nat) : Nat := g.spaces.foldl Space.past column

/-- A text that starts and ends with a word. -/
inductive Words
  | last (w : Word)
  | more (w : Word) (g : Gap) (rest : Words)

/-- Whether there is a tab in the indentation of a line, where `left` says it must not be; `leading`
that a break has come before. -/
def tabbed (left : Nat → Bool) : Bool → Nat → List Space → Bool
  | _, _, [] => false
  | leading, column, x :: spaces =>
    x.forbidden left leading column || tabbed left (x.leads leading) (x.past column) spaces

namespace Words

def bytes : Words → Bytes
  | .last w => w.bytes
  | .more w g rest => w.bytes ++ (g.bytes ++ rest.bytes)

/-- From `column` on no tab in the indentation of a line and, outside flow collections, no word but the
first is where `left` says it must not be. -/
def Deep (flow : Bool) (left : Nat → Bool) : Nat → Words → Prop
  | _, .last _ => True
  | column, .more w g rest =>
    tabbed left false (column + w.characters.length) g.spaces = false
      ∧ (!flow && left (g.past (column + w.characters.length))) = false
      ∧ rest.Deep flow left (g.past (column + w.characters.length))

/-- No line starts like a document's start or end. -/
def Unmarked : Nat → Words → Prop
  | column, .last w => column = 0 → Scanner.isDocumentIndicator (view w.bytes) = false
  | column, .more w g rest =>
    (column = 0 → Scanner.isDocumentIndicator (view (Words.more w g rest).bytes) = false)
      ∧ rest.Unmarked (g.past (column + w.characters.length))

/-- No indicator of a flow collection is in it. -/
def Inline : Words → Prop
  | .last w => w.Inline
  | .more w _ rest => w.Inline ∧ rest.Inline

end Words

namespace Scanner

/-- A folding behind one more blank or break. -/
def Folding.past (f : Folding) : Space → Folding
  | .blank tab =>
    if f.leadingBlanks then f
    else { f with whitespaces := f.whitespaces ++ (Space.blank tab).bytes }
  | .ending e => f.broken e.value

/-- The folding behind a gap that comes after `string`. -/
def Folding.behind (string : Bytes) (g : Gap) : Folding := g.spaces.foldl Folding.past { string := string }

/-- The value of a text that comes after `string`. -/
def valueOf : Bytes → Words → Bytes
  | string, .last w => string ++ w.bytes
  | string, .more w g rest => valueOf (Folding.behind (string ++ w.bytes) g).fold.string rest

/-! ## Gaps -/

section Gaps

/-- What a run of text leaves pending. -/
def Pending (f : Folding) : Prop := Met .space f ∨ Met .indent f

theorem Pending.fold {f : Folding} (h : Pending f) :
    f.fold = { string := f.fold.string, leadingBlanks := f.leadingBlanks } :=
  h.elim Met.fold Met.fold

theorem pending_string (string : Bytes) : Pending { string := string } := .inl ⟨rfl, rfl, rfl⟩

theorem Pending.past {f : Folding} (h : Pending f) (x : Space) : Pending (f.past x) := by
  cases x with
  | blank tab =>
    rcases h with h | h
    · refine .inl ?_
      rw [Folding.past, h.1, if_neg Bool.false_ne_true]
      exact ⟨rfl, h.2.1, h.2.2⟩
    · refine .inr ?_
      rw [Folding.past, h.1, if_pos rfl]
      exact h
  | ending e =>
    refine .inr ?_
    rcases h with h | h
    · rw [Folding.past, Folding.broken, h.1, if_neg Bool.false_ne_true]
      exact ⟨rfl, rfl, fun hne => absurd h.2.2 hne⟩
    · rw [Folding.past, Folding.broken, h.1, if_pos rfl]
      refine ⟨rfl, h.2.1, fun _ => ?_⟩
      have := h.2.2
      cases ht : f.trailingBreaks with
      | nil => exact e.value_headD
      | cons b bs =>
        rw [ht] at this
        exact this (List.cons_ne_nil b bs)

theorem past_string (f : Folding) (x : Space) : (f.past x).string = f.string := by
  cases x with
  | blank tab =>
    unfold Folding.past
    split_ifs <;> rfl
  | ending e =>
    unfold Folding.past Folding.broken
    split_ifs <;> rfl

theorem Pending.behind (string : Bytes) (g : Gap) :
    Pending (Folding.behind string g) ∧ (Folding.behind string g).string = string := by
  have hrun : ∀ (spaces : List Space) (f : Folding), Pending f → Pending (spaces.foldl Folding.past f)
      ∧ (spaces.foldl Folding.past f).string = f.string := by
    intro spaces
    induction spaces with
    | nil => exact fun f h => ⟨h, rfl⟩
    | cons x spaces ih => exact fun f h => ⟨(ih _ (h.past x)).1, (ih _ (h.past x)).2.trans (past_string f x)⟩
  exact hrun g.spaces _ (pending_string string)

/-- A tab where `left` says that there must be none. -/
def forbids (left : Nat → Bool) (f : Folding) (mark : Mark) (p : View) : Bool :=
  f.leadingBlanks && left mark.column && isTab p

/-- A round of `scanBlanks`. -/
def blanks (left : Nat → Bool) (start : Mark) (f : Folding) : ScanM Bytes (Round Folding Folding) := do
  if ← look (fun p => isBlank p || isBreak p) then do
    let f ← (do
      if ← look isBlank then do
        let mark ← getMark
        if ← look (forbids left f mark) then
          scannerError (some "while scanning a plain scalar") start
            "found a tab character that violates indentation"
        else if f.leadingBlanks then do
          skip
          return f
        else do
          let whitespaces ← read f.whitespaces
          return { f with whitespaces := whitespaces }
      else do
        cache 2
        if f.leadingBlanks then do
          let trailingBreaks ← readLine f.trailingBreaks
          return { f with trailingBreaks := trailingBreaks }
        else do
          let leadingBreak ← readLine f.leadingBreak
          return { f with
            whitespaces := []
            leadingBreak := leadingBreak
            leadingBlanks := true })
    cache 1
    return .again f
  else return .leave f

variable {left : Nat → Bool} {s : Scanner Bytes} {m start : Mark} {r : Bytes} {f : Folding}

theorem isTab_blank_bytes (tab : Bool) (r : Bytes) : isTab (view ((Space.blank tab).bytes ++ r)) = tab := by
  cases tab <;> rfl

theorem forbids_blank (tab : Bool) : forbids left f m (view ((Space.blank tab).bytes ++ r))
    = Space.forbidden left f.leadingBlanks m.column (.blank tab) := by
  rw [forbids, isTab_blank_bytes, Space.forbidden, Bool.and_assoc, Bool.and_comm (left _), ← Bool.and_assoc]

theorem blanks_past (start : Mark) (x : Space) (hx : Space.forbidden left f.leadingBlanks m.column x = false)
    (hr : ∀ e, x = .ending e → e.Stands r) : ∃ m', m'.column = x.past m.column
      ∧ blanks left start f (s.reading m (x.bytes ++ r)) = .ok (.again (f.past x)) (s.reading m' r) := by
  cases x with
  | blank tab =>
    have hblank : isBlank (view ((Space.blank tab).bytes ++ r)) = true := by cases tab <;> rfl
    obtain ⟨b, hb, hbytes⟩ : ∃ b : UInt8, b < 0x80 ∧ (Space.blank tab).bytes = [b] := by
      cases tab
      · exact ⟨_, by decide, rfl⟩
      · exact ⟨_, by decide, rfl⟩
    refine ⟨m.right 1, rfl, ?_⟩
    unfold blanks
    rw [look_bind, hblank, Bool.true_or, if_pos rfl]
    refine (bind_of_ok (?_ : _ = Result.ok (f.past (.blank tab)) (s.reading (m.right 1) r))).trans rfl
    rw [look_bind, hblank, if_pos rfl, getMark_bind, look_bind, forbids_blank, hx, if_neg Bool.false_ne_true]
    rw [Folding.past, hbytes]
    split_ifs
    · rw [bind_of_ok (skip_text (isCharacter_ascii hb))]
      rfl
    · rw [bind_of_ok (read_text (isCharacter_ascii hb))]
      rfl
  | ending e =>
    have hbreak := e.isBreak_bytes r
    obtain ⟨n, hn⟩ : ∃ n, readLine (if f.leadingBlanks then f.trailingBreaks else f.leadingBreak)
        (s.reading m (e.bytes ++ r)) = .ok _ (s.reading (m.down n) r) := LineEnding.readLine_bytes (hr e rfl)
    refine ⟨m.down n, rfl, ?_⟩
    unfold blanks
    change (look _ >>= _) (s.reading m (e.bytes ++ r)) = _
    rw [look_bind, hbreak, Bool.or_true, if_pos rfl]
    refine (bind_of_ok (?_ : _ = Result.ok (f.broken e.value) (s.reading (m.down n) r))).trans rfl
    rw [look_bind, not_blank_of_break hbreak, if_neg Bool.false_ne_true, cache_bind]
    unfold Folding.broken
    split_ifs at hn ⊢
    · rw [bind_of_ok hn]
      rfl
    · rw [bind_of_ok hn]
      rfl

theorem blanks_stop (h : StartsText r) : blanks left start f (s.reading m r) = .ok (.leave f) (s.reading m r) := by
  unfold blanks
  rw [look_bind, not_blank_of_startsText h, not_break_of_startsText h]
  rfl

theorem blanks_forbidden (start : Mark) (x : Space) (hx : Space.forbidden left f.leadingBlanks m.column x = true) :
    ∃ e t, blanks left start f (s.reading m (x.bytes ++ r)) = .error e t := by
  cases x with
  | blank tab =>
    have hblank : isBlank (view ((Space.blank tab).bytes ++ r)) = true := by cases tab <;> rfl
    refine ⟨.reported (.scanner (some "while scanning a plain scalar") start
      "found a tab character that violates indentation" m), s.reading m ((Space.blank tab).bytes ++ r), ?_⟩
    unfold blanks
    rw [look_bind, hblank, Bool.true_or, if_pos rfl]
    refine bind_of_error (?_ : _ = Result.error (ε := Fault) _ _)
    rw [look_bind, hblank, if_pos rfl, getMark_bind, look_bind, forbids_blank, hx, if_pos rfl]
    rfl
  | ending e => cases hx

theorem past_leadingBlanks (f : Folding) (x : Space) : (f.past x).leadingBlanks = x.leads f.leadingBlanks := by
  cases x with
  | blank tab =>
    unfold Folding.past Space.leads
    split_ifs <;> rfl
  | ending e =>
    unfold Folding.past Folding.broken
    split_ifs with h
    · exact h
    · rfl

theorem spaces_stands {x : Space} {spaces : List Space} (hr : StartsText r)
    (hj : (x :: spaces).IsChain fun x y => ¬(x = .ending .cr ∧ y = .ending .lf)) (e : LineEnding)
    (hx : x = .ending e) : e.Stands (spaces.flatMap Space.bytes ++ r) := by
  rintro rfl hfeed
  cases spaces with
  | nil =>
    have := not_break_of_startsText hr
    rw [isBreak, isBreakAt, checkAt, checkAt, show view r 0 = octet '\n' from hfeed] at this
    cases this
  | cons y spaces =>
    rw [List.flatMap_cons, List.append_assoc] at hfeed
    refine hj.rel ⟨hx, ?_⟩
    cases y with
    | blank tab => cases tab <;> cases hfeed
    | ending e => cases e <;> first | rfl | cases hfeed

/-- Where no tab is in the way, a gap is passed. -/
theorem scanBlanks_gap (hr : StartsText r) : ∀ {spaces : List Space} {f : Folding} {m : Mark},
    tabbed left f.leadingBlanks m.column spaces = false →
    spaces.IsChain (fun x y => ¬(x = .ending .cr ∧ y = .ending .lf)) →
    Yields (scanBlanks (forbids left) start f) (s.reading m (spaces.flatMap Space.bytes ++ r)) fun f' t =>
      f' = spaces.foldl Folding.past f ∧ ∃ m', m'.column = spaces.foldl Space.past m.column ∧ t = s.reading m' r
  | [], f, m, _, _ => repeatedly_leave (blanks_stop hr) ⟨rfl, m, rfl, rfl⟩
  | x :: spaces, f, m, ht, hj => by
    rw [tabbed, Bool.or_eq_false_iff] at ht
    obtain ⟨m', hm', hround⟩ := blanks_past (r := spaces.flatMap Space.bytes ++ r) (s := s) start x ht.1
      (spaces_stands hr hj)
    have hlt : (spaces.flatMap Space.bytes ++ r).length < (x.bytes ++ (spaces.flatMap Space.bytes ++ r)).length := by
      have hx : 0 < x.bytes.length := by
        cases x with
        | blank tab => cases tab <;> exact Nat.one_pos
        | ending e => exact e.bytes_length_pos
      simp only [List.length_append]
      omega
    rw [List.flatMap_cons, List.append_assoc, List.foldl_cons, List.foldl_cons, ← hm']
    refine repeatedly_again hround hlt (scanBlanks_gap hr ?_ hj.tail)
    rw [past_leadingBlanks, hm']
    exact ht.2

/-- Where a gap with a tab in the way starts. -/
def BeforeTab (left : Nat → Bool) (s : Scanner Bytes) (r : Bytes) (f : Folding) (t : Scanner Bytes) : Prop :=
  ∃ spaces m, t = s.reading m (spaces.flatMap Space.bytes ++ r)
    ∧ tabbed left f.leadingBlanks m.column spaces = true
    ∧ spaces.IsChain fun x y => ¬(x = .ending .cr ∧ y = .ending .lf)

/-- Elsewhere it is refused. -/
theorem scanBlanks_tabbed (hr : StartsText r) {f' : Folding} {t t' : Scanner Bytes} (ht : BeforeTab left s r f t) :
    scanBlanks (forbids left) start f t ≠ .ok f' t' := by
  have hround (f : Folding) : Holds (BeforeTab left s r f) (blanks left start f)
      (Round.elim (BeforeTab left s r) fun _ _ => False) fun _ _ => True := by
    rintro _ ⟨spaces, m, rfl, htab, hj⟩
    cases spaces with
    | nil => cases htab
    | cons x spaces =>
      rw [List.flatMap_cons, List.append_assoc]
      cases hx : x.forbidden left f.leadingBlanks m.column with
      | true =>
        obtain ⟨e, t, h⟩ := blanks_forbidden (s := s) (r := spaces.flatMap Space.bytes ++ r) start x hx
        rw [h]
        trivial
      | false =>
        obtain ⟨m', hm', h⟩ := blanks_past (r := spaces.flatMap Space.bytes ++ r) (s := s) start x hx
          (spaces_stands hr hj)
        rw [tabbed, hx, Bool.false_or, ← hm', ← past_leadingBlanks] at htab
        rw [h]
        exact ⟨spaces, m', rfl, htab, hj.tail⟩
  exact fun hok => (Holds.loop (fun _ _ _ => trivial) hround _ f).ok ht hok

end Gaps

/-! ## Words -/

section Runs

variable {single : Bool} {s : Scanner Bytes} {m start finish : Mark} {r string : Bytes} {f : Folding}
  {left : Nat → Bool}

theorem scanFlowScalarText_word {Q : Bytes × Bool → Scanner Bytes → Prop} :
    ∀ {cs : List Bytes} {string : Bytes} {m : Mark}, (∀ c ∈ cs, InWord c) →
      Yields (scanFlowScalarText single start (string ++ cs.flatten)) (s.reading (m.right cs.length) r) Q →
        Yields (scanFlowScalarText single start string) (s.reading m (cs.flatten ++ r)) Q
  | [], string, m, _, h => by
    rw [List.flatten_nil, List.append_nil] at h
    exact h
  | c :: cs, string, m, hc, h => by
    have hin := hc c List.mem_cons_self
    have hlt : (cs.flatten ++ r).length < (c ++ (cs.flatten ++ r)).length := by
      have := hin.character.length_pos
      simp only [List.length_append]
      omega
    have hz : isBlankz (view (c ++ (cs.flatten ++ r))) = false := hin.startsText
    have hsingle : checkAt (view (c ++ (cs.flatten ++ r))) '\'' 0 = false := hin.ne (by decide)
    have hslash : check (view (c ++ (cs.flatten ++ r))) '\\' = false := hin.ne (by decide)
    have hquote : isQuote single (view (c ++ (cs.flatten ++ r))) = false := by
      cases single <;> exact hin.ne (by decide)
    rw [List.flatten_cons, List.append_assoc]
    rw [List.flatten_cons, ← List.append_assoc, List.length_cons, Nat.add_comm, ← Mark.right_right] at h
    refine repeatedly_again ?_ hlt (scanFlowScalarText_word (fun d hd => hc d (List.mem_cons_of_mem _ hd)) h)
    rw [look_bind, hz, Bool.not_false, if_pos rfl, look_bind, hsingle, Bool.and_false, Bool.false_and,
      if_neg Bool.false_ne_true, look_bind, hquote, if_neg Bool.false_ne_true, look_bind, hslash, Bool.and_false,
      Bool.false_and, if_neg Bool.false_ne_true]
    refine (bind_of_ok (?_ : _ = Result.ok (string ++ c) (s.reading (m.right 1) (cs.flatten ++ r)))).trans rfl
    rw [look_bind, hslash, Bool.and_false, if_neg Bool.false_ne_true]
    exact read_text hin.character

/-- What is pending is brought into the value by the first character of a word. -/
theorem Pending.joined (h : Pending f) :
    (if f.leadingBlanks || !f.whitespaces.isEmpty then { f.fold with leadingBlanks := false } else f)
      = { string := f.fold.string } := by
  have hfold : { f.fold with leadingBlanks := false } = ({ string := f.fold.string } : Folding) := by
    rw [h.fold]
  split_ifs with hpending
  · exact hfold
  · rw [Bool.or_eq_true, not_or, Bool.not_eq_true, Bool.not_eq_true, Bool.not_eq_false', List.isEmpty_iff] at hpending
    have hspace : Met .space f := h.resolve_right fun hm => by
      rw [hm.1] at hpending
      cases hpending.1
    obtain ⟨string, leadingBreak, trailingBreaks, whitespaces, leadingBlanks⟩ := f
    obtain ⟨rfl, rfl, rfl⟩ := hspace
    obtain ⟨-, rfl⟩ := hpending
    exact congrArg (fun string => ({ string := string } : Folding)) (List.append_nil string).symm

/-- What a plain scalar's text ends with. -/
def StopsPlain (flow : Bool) (r : Bytes) : Prop :=
  isBlankz (view r) = true ∨ endsPlainText flow (view r) = true

theorem not_stray {flow : Bool} {p : View} (h : endsPlainText flow p = true) : isStrayColon flow p = false := by
  cases hc : check p ':' with
  | false => rw [isStrayColon, hc, Bool.and_false, Bool.false_and]
  | true =>
    have hflow : [',', '[', ']', '{', '}'].any (check p ·) = false := by
      rw [check, checkAt, beq_iff_eq] at hc
      simp [check, checkAt, hc, octet]
    rw [endsPlainText, hc, Bool.true_and, hflow, Bool.and_false, Bool.or_false] at h
    rw [isStrayColon, hc, Bool.and_true]
    refine Bool.and_eq_false_iff.mpr (.inr (List.any_eq_false.mpr fun c hc' hat => ?_))
    rw [checkAt, beq_iff_eq] at hat
    simp only [List.mem_cons, List.not_mem_nil, or_false] at hc'
    rcases hc' with rfl | rfl | rfl | rfl | rfl | rfl <;>
    · simp [isBlankzAt, isBlankAt, isSpaceAt, isTabAt, isBreakzAt, isBreakAt, isZAt, checkAt, hat, octet] at h

theorem scanPlainScalarText_stop (hr : StopsPlain (decide (s.flowLevel ≠ 0)) r)
    {Q : Folding × Mark → Scanner Bytes → Prop} (hq : Q (f, finish) (s.reading m r)) :
    Yields (scanPlainScalarText start f finish) (s.reading m r) Q := by
  refine repeatedly_leave ((bind_of_ok inFlow_text).trans ?_) hq
  rw [look_bind]
  cases hz : isBlankz (view r) with
  | true => rfl
  | false =>
    have hends := hr.resolve_left (by rw [hz]; exact Bool.false_ne_true)
    rw [Bool.not_false, if_pos rfl, look_bind, not_stray hends, if_neg Bool.false_ne_true, look_bind, hends,
      if_pos rfl]
    rfl

theorem not_ends {flow : Bool} {c : Bytes} (h : InWord c) (hf : flow = true → NotFlow c) :
    isStrayColon flow (view (c ++ r)) = false ∧ endsPlainText flow (view (c ++ r)) = false := by
  have hcolon : check (view (c ++ r)) ':' = false := h.ne (by decide)
  refine ⟨by rw [isStrayColon, hcolon, Bool.and_false, Bool.false_and], ?_⟩
  rw [endsPlainText, hcolon, Bool.false_and, Bool.false_or]
  cases flow with
  | false => rfl
  | true =>
    refine (Bool.true_and _).trans (List.any_eq_false.mpr fun a ha hcheck => hf rfl ?_)
    rw [← view_append_lt (r := r) h.character.length_pos, show view (c ++ r) 0 = octet a from beq_iff_eq.mp hcheck]
    simp only [List.mem_cons, List.not_mem_nil, or_false] at ha
    rcases ha with rfl | rfl | rfl | rfl | rfl <;> decide

theorem scanPlainScalarText_word (hr : StopsPlain (decide (s.flowLevel ≠ 0)) r)
    {Q : Folding × Mark → Scanner Bytes → Prop} :
    ∀ {cs : List Bytes} {f : Folding} {m finish : Mark}, (∀ c ∈ cs, InWord c) →
      (s.flowLevel ≠ 0 → ∀ c ∈ cs, NotFlow c) → Pending f → (cs = [] → f = { string := f.fold.string }) →
      (∀ finish, Q ({ string := f.fold.string ++ cs.flatten }, finish) (s.reading (m.right cs.length) r)) →
      Yields (scanPlainScalarText start f finish) (s.reading m (cs.flatten ++ r)) Q
  | [], f, m, finish, _, _, _, hf, hq => by
    refine scanPlainScalarText_stop hr ?_
    have hq := hq finish
    rw [List.flatten_nil, List.append_nil, ← hf rfl] at hq
    exact hq
  | c :: cs, f, m, finish, hc, hflow, hf, _, hq => by
    have hin := hc c List.mem_cons_self
    have hlt : (cs.flatten ++ r).length < (c ++ (cs.flatten ++ r)).length := by
      have := hin.character.length_pos
      simp only [List.length_append]
      omega
    have hz : isBlankz (view (c ++ (cs.flatten ++ r))) = false := hin.startsText
    obtain ⟨hstray, hends⟩ : isStrayColon (decide (s.flowLevel ≠ 0)) (view (c ++ (cs.flatten ++ r))) = false
        ∧ endsPlainText (decide (s.flowLevel ≠ 0)) (view (c ++ (cs.flatten ++ r))) = false :=
      not_ends hin fun h => hflow (of_decide_eq_true h) c List.mem_cons_self
    rw [List.flatten_cons, List.append_assoc]
    have hstring : ({ string := f.fold.string ++ c } : Folding).fold.string = f.fold.string ++ c := List.append_nil _
    have hrest : Yields (scanPlainScalarText start { string := f.fold.string ++ c } (m.right 1))
        (s.reading (m.right 1) (cs.flatten ++ r)) Q := by
      refine scanPlainScalarText_word hr (fun d hd => hc d (List.mem_cons_of_mem _ hd))
        (fun h d hd => hflow h d (List.mem_cons_of_mem _ hd)) (pending_string _)
        (fun _ => ?_) fun finish => ?_
      · rw [hstring]
      · have := hq finish
        rwa [List.flatten_cons, ← List.append_assoc, List.length_cons, Nat.add_comm, ← Mark.right_right,
          ← hstring] at this
    refine repeatedly_again ((bind_of_ok inFlow_text).trans ?_) hlt hrest
    rw [look_bind, hz, Bool.not_false, if_pos rfl, look_bind, hstray, if_neg Bool.false_ne_true, look_bind, hends,
      if_neg Bool.false_ne_true]
    simp only [hf.joined]
    rw [bind_of_ok (read_text hin.character)]
    rfl

/-! ## Plain scalars -/

/-- What may stand directly behind a plain or a quoted text. -/
def closers : List UInt8 :=
  [octet '\'', octet '"', octet ':', octet ',', octet '[', octet ']', octet '{', octet '}']

/-- A document's start or end is none because of what stands behind a text. -/
theorem isDocumentIndicator_append {b : Bytes} {x : UInt8} (hx : x ∈ closers)
    (h : isDocumentIndicator (view b) = false) : isDocumentIndicator (view (b ++ x :: r)) = false := by
  simp only [closers, List.mem_cons, List.not_mem_nil, or_false] at hx
  rcases b with _ | ⟨b₀, _ | ⟨b₁, _ | ⟨b₂, _ | ⟨b₃, _ | ⟨b₄, _ | ⟨b₅, b⟩⟩⟩⟩⟩⟩
  · rcases hx with rfl | rfl | rfl | rfl | rfl | rfl | rfl | rfl <;> rfl
  · rcases hx with rfl | rfl | rfl | rfl | rfl | rfl | rfl | rfl <;>
    · simp [isDocumentIndicator, checkAt, view, octet]
  · rcases hx with rfl | rfl | rfl | rfl | rfl | rfl | rfl | rfl <;>
    · simp [isDocumentIndicator, checkAt, view, octet]
  · rcases hx with rfl | rfl | rfl | rfl | rfl | rfl | rfl | rfl <;>
    · simp [isDocumentIndicator, checkAt, isBlankzAt, isBlankAt, isSpaceAt, isTabAt, isBreakzAt, isBreakAt, isZAt,
        view, octet]
  · rcases hx with rfl | rfl | rfl | rfl | rfl | rfl | rfl | rfl <;>
    · simp [isDocumentIndicator, checkAt, isBlankzAt, isBlankAt, isSpaceAt, isTabAt, isBreakzAt, isBreakAt, isZAt,
        view, octet] at h ⊢
      exact h
  · rcases hx with rfl | rfl | rfl | rfl | rfl | rfl | rfl | rfl <;>
    · simp [isDocumentIndicator, checkAt, isBlankzAt, isBlankAt, isSpaceAt, isTabAt, isBreakzAt, isBreakAt, isZAt,
        view, octet] at h ⊢
      exact h
  · exact h

/-- The end of the input, or what ends a plain scalar directly behind a word. -/
def EndsPlain (flow : Bool) (r : Bytes) : Prop := r = [] ∨ endsPlainText flow (view r) = true

theorem EndsPlain.stops {flow : Bool} (h : EndsPlain flow r) : StopsPlain flow r := by
  rcases h with rfl | h
  · exact .inl rfl
  · exact .inr h

theorem EndsPlain.closer {flow : Bool} (h : EndsPlain flow r) : r = [] ∨ ∃ x ∈ closers, ∃ r', r = x :: r' := by
  rcases h with rfl | h
  · exact .inl rfl
  · refine .inr ?_
    have hmem : view r 0 ∈ closers := by
      unfold endsPlainText check checkAt at h
      rcases Bool.or_eq_true_iff.mp h with h | h
      · rw [beq_iff_eq.mp (Bool.and_eq_true_iff.mp h).1]
        decide
      · obtain ⟨a, ha, hcheck⟩ := List.any_eq_true.mp (Bool.and_eq_true_iff.mp h).2
        rw [beq_iff_eq.mp hcheck]
        simp only [List.mem_cons, List.not_mem_nil, or_false] at ha
        rcases ha with rfl | rfl | rfl | rfl | rfl <;> decide
    cases r with
    | nil => exact absurd hmem (by decide)
    | cons x r => exact ⟨x, hmem, r, rfl⟩

theorem not_blank_of_closer {x : UInt8} (hx : x ∈ closers) : (isBlank (view (x :: r)) || isBreak (view (x :: r))) = false := by
  simp only [closers, List.mem_cons, List.not_mem_nil, or_false] at hx
  rcases hx with rfl | rfl | rfl | rfl | rfl | rfl | rfl | rfl <;> rfl

theorem EndsPlain.not_blank {flow : Bool} (h : EndsPlain flow r) : (isBlank (view r) || isBreak (view r)) = false := by
  rcases h.closer with rfl | ⟨x, hx, r', rfl⟩
  · rfl
  · exact not_blank_of_closer hx

theorem EndsPlain.not_indicator {flow : Bool} {b : Bytes} (h : EndsPlain flow r)
    (hb : isDocumentIndicator (view b) = false) : isDocumentIndicator (view (b ++ r)) = false := by
  rcases h.closer with rfl | ⟨x, hx, r', rfl⟩
  · rwa [List.append_nil]
  · exact isDocumentIndicator_append hx hb

end Runs

end Scanner

namespace Words

/-- The first character. -/
theorem head : ∀ words : Words, ∃ c b, InWord c ∧ words.bytes = c ++ b
  | .last w => by
    obtain ⟨c, cs, hw⟩ := List.exists_cons_of_ne_nil w.nonempty
    refine ⟨c, cs.flatten, w.inWord c (hw ▸ List.mem_cons_self), ?_⟩
    rw [bytes, Word.bytes, hw, List.flatten_cons]
  | .more w g rest => by
    obtain ⟨c, cs, hw⟩ := List.exists_cons_of_ne_nil w.nonempty
    refine ⟨c, cs.flatten ++ (g.bytes ++ rest.bytes), w.inWord c (hw ▸ List.mem_cons_self), ?_⟩
    rw [bytes, Word.bytes, hw, List.flatten_cons, List.append_assoc]

theorem startsText (words : Words) (r : Bytes) : StartsText (words.bytes ++ r) := by
  obtain ⟨c, b, hc, h⟩ := words.head
  rw [h, List.append_assoc]
  exact hc.startsText

/-- Further right a line starts like a document's start or end only where it does so further left. -/
theorem Unmarked.further : ∀ {words : Words} {column column' : Nat}, words.Unmarked column →
    (column' = 0 → column = 0) → words.Unmarked column'
  | .last w, _, _, hu, h => fun h0 => hu (h h0)
  | .more w g rest, column, column', hu, h => by
    have hspaces : ∀ (spaces : List Space) {k k' : Nat}, (k' = 0 → k = 0) →
        spaces.foldl Space.past k' = 0 → spaces.foldl Space.past k = 0 := by
      intro spaces
      induction spaces with
      | nil => exact fun h => h
      | cons x spaces ih =>
        refine fun h => ih ?_
        cases x with
        | blank tab => exact fun h0 => absurd h0 (Nat.succ_ne_zero _)
        | ending e => exact fun _ => rfl
    refine ⟨fun h0 => hu.1 (h h0), hu.2.further (hspaces _ ?_)⟩
    omega

theorem rest_shorter (w : Word) (g : Gap) (rest : Words) (r : Bytes) :
    (rest.bytes ++ r).length < ((Words.more w g rest).bytes ++ r).length := by
  obtain ⟨c, cs, hw⟩ := List.exists_cons_of_ne_nil w.nonempty
  have := (w.inWord c (hw ▸ List.mem_cons_self)).character.length_pos
  rw [bytes, Word.bytes, hw, List.flatten_cons]
  simp only [List.length_append]
  omega

theorem Unmarked.first {words : Words} {column : Nat} (h : words.Unmarked column) (h0 : column = 0) :
    Scanner.isDocumentIndicator (view words.bytes) = false := by
  cases words with
  | last w => exact h h0
  | more w g rest => exact h.1 h0

end Words

namespace Scanner

section Plain

variable {s : Scanner Bytes} {m start finish : Mark} {r : Bytes} {f : Folding} {indent : Int}

/-- Whether a column lies left of the indentation, as the scanner compares them. -/
def leftOfIndent (indent : Int) (column : Nat) : Bool := cInt column < indent

/-- A round of `scanPlainScalar`. -/
def plainRound (start : Mark) (indent : Int) (a : Folding × Mark) :
    ScanM Bytes (Round (Folding × Mark) (Folding × Mark)) := do
  cache 4
  let mark ← getMark
  if ← look (fun p => (mark.column = 0 && isDocumentIndicator p) || check p '#') then
    return .leave (a.1, a.2)
  else do
    let (f, finish) ← scanPlainScalarText start a.1 a.2
    if ← look (fun p => isBlank p || isBreak p) then do
      cache 1
      let f ← scanBlanks (tabViolates indent) start f
      let flow ← inFlow
      let mark ← getMark
      if !flow && cInt mark.column < indent then return .leave (f, finish)
      else return .again (f, finish)
    else return .leave (f, finish)

theorem not_hash (words : Words) (r : Bytes) : check (view (words.bytes ++ r)) '#' = false := by
  obtain ⟨c, b, hc, h⟩ := words.head
  rw [h, List.append_assoc]
  exact hc.ne (by decide)

/-- A text that is neither a document's start or end nor a comment is gone on with. -/
theorem not_ended (words : Words) {flow : Bool} (hr : EndsPlain flow r) (hu : words.Unmarked m.column) :
    ((m.column = 0 && isDocumentIndicator (view (words.bytes ++ r))) || check (view (words.bytes ++ r)) '#') = false := by
  rw [not_hash, Bool.or_false, Bool.and_eq_false_iff, decide_eq_false_iff_not]
  rcases Nat.eq_zero_or_pos m.column with h0 | h0
  · exact .inr (hr.not_indicator (hu.first h0))
  · exact .inl (by omega)

theorem blanks_of_gap (g : Gap) (r : Bytes) : (isBlank (view (g.bytes ++ r)) || isBreak (view (g.bytes ++ r))) = true := by
  obtain ⟨x, spaces, hg⟩ := List.exists_cons_of_ne_nil g.nonempty
  rw [Gap.bytes, hg, List.flatMap_cons, List.append_assoc]
  cases x with
  | blank tab => cases tab <;> rfl
  | ending e => rw [Space.bytes, e.isBreak_bytes, Bool.or_true]

theorem stopsPlain_of_gap {flow : Bool} (g : Gap) (r : Bytes) : StopsPlain flow (g.bytes ++ r) := by
  refine .inl ?_
  have := blanks_of_gap g r
  rw [isBlankz, isBlankzAt, isBreakzAt]
  change (isBlank _ || (isBreak _ || _)) = true
  rw [← Bool.or_assoc, this, Bool.true_or]

theorem plainRound_last (start finish : Mark) (indent : Int) {w : Word} (hr : EndsPlain (decide (s.flowLevel ≠ 0)) r)
    (hw : s.flowLevel ≠ 0 → w.Inline) (hf : Pending f) (hu : (Words.last w).Unmarked m.column) :
    Yields (plainRound start indent (f, finish)) (s.reading m (w.bytes ++ r)) fun x _ =>
      ∃ finish, x = .leave ({ string := f.fold.string ++ w.bytes }, finish) := by
  have hstart : ((m.column = 0 && isDocumentIndicator (view (w.bytes ++ r))) || check (view (w.bytes ++ r)) '#')
      = false := not_ended (.last w) hr hu
  have htext : Yields (scanPlainScalarText start f finish) (s.reading m (w.bytes ++ r)) _ :=
    scanPlainScalarText_word hr.stops
    (Q := fun a t => ∃ finish m', t = s.reading m' r ∧ a = ({ string := f.fold.string ++ w.bytes }, finish))
    w.inWord hw hf (fun h => absurd h w.nonempty) fun finish => ⟨finish, _, rfl, rfl⟩
  obtain ⟨_, _, htext, finish', m', rfl, rfl⟩ := htext
  refine ⟨.leave ({ string := f.fold.string ++ w.bytes }, finish'), s.reading m' r, ?_, finish', rfl⟩
  unfold plainRound
  rw [cache_bind, getMark_bind, look_bind, hstart, if_neg Bool.false_ne_true]
  refine (bind_of_ok htext).trans ?_
  change (look _ >>= _) _ = _
  rw [look_bind, hr.not_blank]
  rfl

/-- The text of a round up to the gap behind its word. -/
theorem plainRound_text (start finish : Mark) (indent : Int) {w : Word} {g : Gap} {rest : Words}
    (hr : EndsPlain (decide (s.flowLevel ≠ 0)) r) (hw : s.flowLevel ≠ 0 → w.Inline) (hf : Pending f)
    (hu : (Words.more w g rest).Unmarked m.column) :
    ∃ finish', plainRound start indent (f, finish) (s.reading m ((Words.more w g rest).bytes ++ r))
      = (do
          let f ← scanBlanks (forbids (leftOfIndent indent)) start { string := f.fold.string ++ w.bytes }
          let flow ← inFlow
          let mark ← getMark
          if !flow && cInt mark.column < indent then return (.leave (f, finish') : Round (Folding × Mark) (Folding × Mark))
          else return .again (f, finish'))
        (s.reading (m.right w.characters.length) (g.bytes ++ (rest.bytes ++ r))) := by
  have hbytes : (Words.more w g rest).bytes ++ r = w.bytes ++ (g.bytes ++ (rest.bytes ++ r)) := by
    rw [Words.bytes, List.append_assoc, List.append_assoc]
  have htext : Yields (scanPlainScalarText start f finish)
      (s.reading m (w.bytes ++ (g.bytes ++ (rest.bytes ++ r)))) _ := scanPlainScalarText_word (stopsPlain_of_gap g (rest.bytes ++ r))
    (Q := fun a t => ∃ finish, t = s.reading (m.right w.characters.length) (g.bytes ++ (rest.bytes ++ r)) ∧
      a = ({ string := f.fold.string ++ w.bytes }, finish)) w.inWord hw hf (fun h => absurd h w.nonempty)
    fun finish => ⟨finish, rfl, rfl⟩
  obtain ⟨_, _, htext, finish', rfl, rfl⟩ := htext
  refine ⟨finish', ?_⟩
  unfold plainRound
  rw [cache_bind, getMark_bind, look_bind, not_ended _ hr hu, if_neg Bool.false_ne_true, hbytes]
  refine (bind_of_ok htext).trans ?_
  change (look _ >>= _) _ = _
  rw [look_bind, blanks_of_gap]
  rfl

theorem plainRound_more (start finish : Mark) {w : Word} {g : Gap} {rest : Words} (hr : EndsPlain (decide (s.flowLevel ≠ 0)) r)
    (hw : s.flowLevel ≠ 0 → w.Inline) (hf : Pending f) (hu : (Words.more w g rest).Unmarked m.column)
    (ht : tabbed (leftOfIndent indent) false (m.column + w.characters.length) g.spaces = false) :
    ∃ finish' m', m'.column = g.past (m.column + w.characters.length) ∧
      plainRound start indent (f, finish) (s.reading m ((Words.more w g rest).bytes ++ r))
        = .ok (if !decide (s.flowLevel ≠ 0) && leftOfIndent indent m'.column
            then .leave (Folding.behind (f.fold.string ++ w.bytes) g, finish')
            else .again (Folding.behind (f.fold.string ++ w.bytes) g, finish')) (s.reading m' (rest.bytes ++ r)) := by
  obtain ⟨finish', h⟩ := plainRound_text start finish indent hr hw hf hu
  have hblanks : Yields (scanBlanks (forbids (leftOfIndent indent)) start { string := f.fold.string ++ w.bytes })
      (s.reading (m.right w.characters.length) (g.bytes ++ (rest.bytes ++ r))) _ :=
    scanBlanks_gap (rest.startsText r) ht g.joined
  obtain ⟨_, _, hblanks, rfl, m', hm', rfl⟩ := hblanks
  refine ⟨finish', m', hm', h.trans ((bind_of_ok hblanks).trans ((bind_of_ok inFlow_text).trans ?_))⟩
  rw [getMark_bind, leftOfIndent]
  split_ifs <;> rfl

theorem plainRound_tabbed {w : Word} {g : Gap} {rest : Words} (hr : EndsPlain (decide (s.flowLevel ≠ 0)) r)
    (hw : s.flowLevel ≠ 0 → w.Inline) (hf : Pending f) (hu : (Words.more w g rest).Unmarked m.column)
    (ht : tabbed (leftOfIndent indent) false (m.column + w.characters.length) g.spaces = true)
    {x : Round (Folding × Mark) (Folding × Mark)} {t : Scanner Bytes} :
    plainRound start indent (f, finish) (s.reading m ((Words.more w g rest).bytes ++ r)) ≠ .ok x t := by
  obtain ⟨finish', h⟩ := plainRound_text start finish indent hr hw hf hu
  rw [h]
  intro hok
  obtain ⟨f', t', hblanks, -⟩ := bind_ok hok
  exact scanBlanks_tabbed (rest.startsText r) ⟨g.spaces, _, rfl, ht, g.joined⟩ hblanks

/-- Where the text lies right of the indentation, a plain scalar is all of it. -/
theorem plainText_deep (hr : EndsPlain (decide (s.flowLevel ≠ 0)) r) : ∀ {words : Words} {f : Folding} {m finish : Mark},
    (s.flowLevel ≠ 0 → words.Inline) → Pending f → words.Unmarked m.column →
    words.Deep (decide (s.flowLevel ≠ 0)) (leftOfIndent indent) m.column →
    Yields (repeatedly (plainRound start indent) (f, finish)) (s.reading m (words.bytes ++ r)) fun a _ =>
      a.1 = { string := valueOf f.fold.string words }
  | .last w, f, m, finish, hw, hf, hu, _ => by
    obtain ⟨_, t, hround, finish', rfl⟩ := plainRound_last start finish indent hr hw hf hu
    exact repeatedly_leave hround rfl
  | .more w g rest, f, m, finish, hw, hf, hu, hd => by
    obtain ⟨finish', m', hm', hround⟩ := plainRound_more start finish hr
      (fun h => (hw h).1) hf hu hd.1
    rw [hm', hd.2.1, if_neg Bool.false_ne_true] at hround
    have hdeep := hd.2.2
    have hmarks := hu.2
    rw [← hm'] at hdeep hmarks
    exact repeatedly_again hround (Words.rest_shorter w g rest r)
      (plainText_deep hr (fun h => (hw h).2) (Pending.behind _ g).1 hmarks hdeep)

theorem length_fold (f : Folding) : f.string.length ≤ f.fold.string.length := by
  unfold Folding.fold
  split_ifs <;> simp only [List.length_append] <;> omega

theorem length_valueOf : ∀ (string : Bytes) (words : Words), string.length < (valueOf string words).length
  | string, .last w => by
    obtain ⟨c, cs, hw⟩ := List.exists_cons_of_ne_nil w.nonempty
    have := (w.inWord c (hw ▸ List.mem_cons_self)).character.length_pos
    rw [valueOf, Word.bytes, hw, List.flatten_cons]
    simp only [List.length_append]
    omega
  | string, .more w g rest => by
    have hrest := length_valueOf (Folding.behind (string ++ w.bytes) g).fold.string rest
    have hfold := length_fold (Folding.behind (string ++ w.bytes) g)
    rw [(Pending.behind _ g).2, List.length_append] at hfold
    rw [valueOf]
    omega

/-- Where a text goes on that has the value `value` and lies left of the indentation somewhere. -/
def Shallow (indent : Int) (s : Scanner Bytes) (r value : Bytes) (a : Folding × Mark) (t : Scanner Bytes) : Prop :=
  ∃ (words : Words) (m : Mark), t = s.reading m (words.bytes ++ r) ∧ (s.flowLevel ≠ 0 → words.Inline) ∧ Pending a.1
    ∧ words.Unmarked m.column ∧ ¬words.Deep (decide (s.flowLevel ≠ 0)) (leftOfIndent indent) m.column
    ∧ valueOf a.1.fold.string words = value

/-- Elsewhere a plain scalar ends before the text does. -/
theorem plainText_shallow {value : Bytes} (hr : EndsPlain (decide (s.flowLevel ≠ 0)) r) {a b : Folding × Mark}
    {t t' : Scanner Bytes} (ht : Shallow indent s r value a t) (hok : repeatedly (plainRound start indent) a t = .ok b t') :
    b.1.string.length < value.length := by
  have hround (a : Folding × Mark) : Holds (Shallow indent s r value a) (plainRound start indent a)
      (Round.elim (Shallow indent s r value) fun b _ => b.1.string.length < value.length) fun _ _ => True := by
    obtain ⟨f, finish⟩ := a
    rintro _ ⟨words, m, rfl, hw, hf, hu, hd, rfl⟩
    cases words with
    | last w => exact absurd trivial hd
    | more w g rest =>
      cases htab : tabbed (leftOfIndent indent) false (m.column + w.characters.length) g.spaces with
      | true =>
        cases hx : plainRound start indent (f, finish) (s.reading m ((Words.more w g rest).bytes ++ r)) with
        | ok x t => exact absurd hx (plainRound_tabbed hr (fun h => (hw h).1) hf hu htab)
        | error e t => trivial
      | false =>
        obtain ⟨finish', m', hm', hround⟩ := plainRound_more start finish hr
          (fun h => (hw h).1) hf hu htab
        rw [hround]
        split_ifs with hleft
        · change (Folding.behind (f.fold.string ++ w.bytes) g).string.length
            < (valueOf (Folding.behind (f.fold.string ++ w.bytes) g).fold.string rest).length
          have := length_valueOf (Folding.behind (f.fold.string ++ w.bytes) g).fold.string rest
          have := length_fold (Folding.behind (f.fold.string ++ w.bytes) g)
          omega
        · have hmarks := hu.2
          rw [← hm'] at hmarks
          refine ⟨rest, m', rfl, fun h => (hw h).2, (Pending.behind _ g).1, hmarks, fun hdeep => hd ⟨htab, ?_, ?_⟩, rfl⟩
          · rw [← hm']
            exact Bool.not_eq_true _ ▸ hleft
          · rw [← hm']
            exact hdeep
  exact (Holds.loop (fun _ _ _ => trivial) hround _ a).ok ht hok

theorem scanPlainScalar_words {words : Words} (hr : EndsPlain (decide (s.flowLevel ≠ 0)) r)
    (hw : s.flowLevel ≠ 0 → words.Inline) (hu : words.Unmarked m.column) :
    (∃ finish t, scanPlainScalar (s.reading m (words.bytes ++ r)) = .ok ⟨.scalar (valueOf [] words) .plain, m, finish⟩ t)
      ↔ words.Deep (decide (s.flowLevel ≠ 0)) (leftOfIndent (toCInt (s.indent + 1))) m.column := by
  have hscan : scanPlainScalar (s.reading m (words.bytes ++ r)) = (do
      let (f, finish) ← repeatedly (plainRound m (toCInt (s.indent + 1))) ({}, m)
      onlyIf f.leadingBlanks (modify fun s => { s with simpleKeyAllowed := true })
      return ⟨.scalar f.string .plain, m, finish⟩ : ScanM Bytes Token) (s.reading m (words.bytes ++ r)) := rfl
  rw [hscan]
  constructor
  · rintro ⟨finish, t, h⟩
    by_contra hd
    obtain ⟨⟨f, finish'⟩, t', hrun, h⟩ := bind_ok h
    have hlt := plainText_shallow hr ⟨words, m, rfl, hw, pending_string [], hu, hd, rfl⟩ hrun
    obtain ⟨_, t'', -, h⟩ := bind_ok h
    have hstring : f.string = valueOf [] words := by
      injection h with h
      injection h with h
      injection h
    change f.string.length < (valueOf [] words).length at hlt
    rw [hstring] at hlt
    exact Nat.lt_irrefl _ hlt
  · intro hd
    have hrun : Yields (repeatedly (plainRound m (toCInt (s.indent + 1))) ({}, m)) (s.reading m (words.bytes ++ r)) _ :=
      plainText_deep hr hw (pending_string []) hu hd
    obtain ⟨⟨f, finish⟩, t, hrun, hf⟩ := hrun
    obtain rfl : f = { string := valueOf [] words } := hf
    exact ⟨finish, t, (bind_of_ok hrun).trans rfl⟩

end Plain

/-! ## Quoted scalars -/

section Quoted

variable {s : Scanner Bytes} {m start : Mark} {r : Bytes} {f : Folding} {single : Bool}

/-- A round of `scanFlowScalar`. -/
def quotedRound (single : Bool) (start : Mark) (f : Folding) : ScanM Bytes (Round Folding Bytes) := do
  cache 4
  let mark ← getMark
  if ← look (fun p => mark.column = 0 && isDocumentIndicator p) then
    scannerError (some "while scanning a quoted scalar") start
      "found unexpected document indicator"
  else if ← look isZ then
    scannerError (some "while scanning a quoted scalar") start "found unexpected end of stream"
  else do
    cache 2
    let (string, leadingBlanks) ← scanFlowScalarText single start f.string
    cache 1
    if ← look (isQuote single) then return .leave string
    else do
      cache 1
      let f ← scanBlanks (forbids fun _ => false) start { f with string := string, leadingBlanks := leadingBlanks }
      return .again f.fold

theorem forbids_none : forbids (fun _ => false) = fun _ _ _ => false := by
  funext f mark p
  rw [forbids, Bool.and_false, Bool.false_and]

theorem scanFlowScalar_eq (single : Bool) : scanFlowScalar (ι := Bytes) single = (do
    let start ← getMark
    skip
    let string ← repeatedly (quotedRound single start) {}
    skip
    let finish ← getMark
    return ⟨.scalar string (if single then .singleQuoted else .doubleQuoted), start, finish⟩) := by
  unfold quotedRound
  rw [forbids_none]
  rfl

theorem tabbed_none : ∀ (leading : Bool) (column : Nat) (spaces : List Space),
    tabbed (fun _ => false) leading column spaces = false
  | _, _, [] => rfl
  | leading, column, x :: spaces => by
    have hx : x.forbidden (fun _ => false) leading column = false := by
      cases x with
      | blank tab => exact Bool.and_false _
      | ending e => rfl
    rw [tabbed, hx, Bool.false_or]
    exact tabbed_none _ _ spaces

theorem quote_closer (single : Bool) : quote single ∈ closers := by cases single <;> decide

/-- A text that is no document's start or end is gone on with. -/
theorem not_refused (words : Words) (hr : Closes single r) (hu : words.Unmarked m.column) :
    (m.column = 0 && isDocumentIndicator (view (words.bytes ++ r))) = false := by
  rw [Bool.and_eq_false_iff, decide_eq_false_iff_not]
  rcases Nat.eq_zero_or_pos m.column with h0 | h0
  · obtain ⟨rest, rfl, -⟩ := hr
    exact .inr (isDocumentIndicator_append (quote_closer single) (hu.first h0))
  · exact .inl (by omega)

theorem quotedRound_last {w : Word} (hr : Closes single r) (hu : (Words.last w).Unmarked m.column) :
    ∃ m', quotedRound single start f (s.reading m (w.bytes ++ r)) = .ok (.leave (f.string ++ w.bytes)) (s.reading m' r) := by
  have hstart : (m.column = 0 && isDocumentIndicator (view (w.bytes ++ r))) = false := not_refused (.last w) hr hu
  have hz : isZ (view (w.bytes ++ r)) = false := not_z_of_startsText (Words.startsText (.last w) r)
  have htext : Yields (scanFlowScalarText single start f.string) (s.reading m (w.bytes ++ r)) _ :=
    scanFlowScalarText_word (Q := fun a t => a = (f.string ++ w.bytes, false) ∧ ∃ m', t = s.reading m' r) w.inWord
      (text_closes hr ⟨rfl, _, rfl⟩)
  obtain ⟨_, _, htext, rfl, m', rfl⟩ := htext
  refine ⟨m', ?_⟩
  unfold quotedRound
  rw [cache_bind, getMark_bind, look_bind, hstart, if_neg Bool.false_ne_true, look_bind, hz,
    if_neg Bool.false_ne_true, cache_bind]
  refine (bind_of_ok htext).trans ?_
  change (cache 1 >>= _) _ = _
  rw [cache_bind, look_bind, hr.isQuote]
  rfl

theorem quotedRound_more {w : Word} {g : Gap} {rest : Words} (hr : Closes single r) (hf : AtRest f)
    (hu : (Words.more w g rest).Unmarked m.column) :
    ∃ m', m'.column = g.past (m.column + w.characters.length) ∧
      quotedRound single start f (s.reading m ((Words.more w g rest).bytes ++ r))
        = .ok (.again (Folding.behind (f.string ++ w.bytes) g).fold) (s.reading m' (rest.bytes ++ r)) := by
  have hbytes : (Words.more w g rest).bytes ++ r = w.bytes ++ (g.bytes ++ (rest.bytes ++ r)) := by
    rw [Words.bytes, List.append_assoc, List.append_assoc]
  have hz : isZ (view ((Words.more w g rest).bytes ++ r)) = false :=
    not_z_of_startsText (Words.startsText (.more w g rest) r)
  have hgap := blanks_of_gap g (rest.bytes ++ r)
  have htext : Yields (scanFlowScalarText single start f.string)
      (s.reading m (w.bytes ++ (g.bytes ++ (rest.bytes ++ r)))) _ :=
    scanFlowScalarText_word (Q := fun a t => a = (f.string ++ w.bytes, false) ∧
        t = s.reading (m.right w.characters.length) (g.bytes ++ (rest.bytes ++ r))) w.inWord
      (text_blank hgap ⟨rfl, rfl⟩)
  obtain ⟨_, _, htext, rfl, rfl⟩ := htext
  have hblanks : Yields (scanBlanks (forbids fun _ => false) start { string := f.string ++ w.bytes })
      (s.reading (m.right w.characters.length) (g.bytes ++ (rest.bytes ++ r))) _ :=
    scanBlanks_gap (rest.startsText r) (tabbed_none _ _ _) g.joined
  obtain ⟨_, _, hblanks, rfl, m', hm', rfl⟩ := hblanks
  refine ⟨m', hm', ?_⟩
  have hpending : ({ f with string := f.string ++ w.bytes, leadingBlanks := false } : Folding)
      = { string := f.string ++ w.bytes } := by
    obtain ⟨string, leadingBreak, trailingBreaks, whitespaces, leadingBlanks⟩ := f
    obtain ⟨rfl, rfl, rfl⟩ := hf
    rfl
  unfold quotedRound
  rw [cache_bind, getMark_bind, look_bind, not_refused _ hr hu, if_neg Bool.false_ne_true, look_bind, hz,
    if_neg Bool.false_ne_true, cache_bind, hbytes]
  refine (bind_of_ok htext).trans ?_
  change (cache 1 >>= _) _ = _
  rw [cache_bind, look_bind, not_quote hgap, if_neg Bool.false_ne_true, cache_bind, hpending]
  exact (bind_of_ok hblanks).trans rfl

/-- Between quotes a text is read to its end wherever its lines start. -/
theorem quotedText (hr : Closes single r) : ∀ {words : Words} {f : Folding} {m : Mark}, AtRest f →
    words.Unmarked m.column →
    Yields (repeatedly (quotedRound single start) f) (s.reading m (words.bytes ++ r)) fun value t =>
      value = valueOf f.string words ∧ ∃ m', t = s.reading m' r
  | .last w, f, m, hf, hu => by
    obtain ⟨m', hround⟩ := quotedRound_last (f := f) hr hu
    exact repeatedly_leave hround ⟨rfl, m', rfl⟩
  | .more w g rest, f, m, hf, hu => by
    obtain ⟨m', hm', hround⟩ := quotedRound_more hr hf hu
    have hmarks := hu.2
    rw [← hm'] at hmarks
    have hrest : AtRest (Folding.behind (f.string ++ w.bytes) g).fold := by
      rw [(Pending.behind _ g).1.fold]
      exact ⟨rfl, rfl, rfl⟩
    exact repeatedly_again hround (Words.rest_shorter w g rest r) (quotedText hr hrest hmarks)

theorem scanFlowScalar_words {words : Words} {column : Nat} {rest : Bytes} (hr : single = true → view rest 0 ≠ octet '\'')
    (hu : words.Unmarked column) :
    ∃ finish t, scanFlowScalar single (s.reading m (quote single :: (words.bytes ++ quote single :: rest)))
      = .ok ⟨.scalar (valueOf [] words) (if single then .singleQuoted else .doubleQuoted), m, finish⟩ t := by
  have hcloses : Closes single (quote single :: rest) := ⟨rest, rfl, hr⟩
  have hmarks : words.Unmarked (m.right 1).column := hu.further fun h => absurd h (Nat.succ_ne_zero _)
  have hrun : Yields (repeatedly (quotedRound single m) {}) (s.reading (m.right 1) (words.bytes ++ quote single :: rest)) _ :=
    quotedText hcloses ⟨rfl, rfl, rfl⟩ hmarks
  obtain ⟨_, _, hrun, rfl, m', rfl⟩ := hrun
  refine ⟨m'.right 1, s.reading (m'.right 1) rest, ?_⟩
  rw [scanFlowScalar_eq, getMark_bind]
  refine (bind_of_ok (skip_octet (quote_ascii single).1)).trans ((bind_of_ok hrun).trans ?_)
  exact (bind_of_ok (skip_octet (quote_ascii single).1)).trans rfl

end Quoted

end Scanner

/-! ## Folding -/

namespace Words

/-- There is no tab in the indentation of a line and every word but the first lies further right than
`indent`. -/
def Lies (indent : Int) : Nat → Words → Prop
  | _, .last _ => True
  | column, .more w g rest =>
    tabbed (fun _ => true) false (column + w.characters.length) g.spaces = false
      ∧ indent < g.past (column + w.characters.length)
      ∧ rest.Lies indent (g.past (column + w.characters.length))

/-- Every word but the first starts left of column `limit`. -/
def Within (limit : Nat) : Nat → Words → Prop
  | _, .last _ => True
  | column, .more w g rest =>
    g.past (column + w.characters.length) < limit ∧ rest.Within limit (g.past (column + w.characters.length))

theorem not_tabbed (left : Nat → Bool) : ∀ {leading : Bool} {column : Nat} {spaces : List Space},
    tabbed (fun _ => true) leading column spaces = false → tabbed left leading column spaces = false
  | _, _, [], _ => rfl
  | leading, column, x :: spaces, h => by
    rw [tabbed, Bool.or_eq_false_iff] at h ⊢
    refine ⟨?_, not_tabbed left h.2⟩
    cases x with
    | blank tab =>
      have hx := h.1
      rw [Space.forbidden, Bool.and_true] at hx
      rw [Space.forbidden, hx, Bool.false_and]
    | ending e => rfl

/-- Up to column 2147483647 a text that lies right of the block is found to do so. -/
theorem Lies.deep {flow : Bool} {indent : Int} (h0 : -1 ≤ indent) (hmax : indent < 2 ^ 31 - 1) :
    ∀ {words : Words} {column : Nat}, words.Lies indent column → words.Within (2 ^ 31) column →
      words.Deep flow (Scanner.leftOfIndent (toCInt (indent + 1))) column
  | .last _, _, _, _ => trivial
  | .more w g rest, column, hl, hw => by
    refine ⟨not_tabbed _ hl.1, ?_, hl.2.2.deep h0 hmax hw.2⟩
    have hindent : toCInt (indent + 1) = indent + 1 := toCInt_of_lt (by omega) (by omega)
    rw [Scanner.leftOfIndent, hindent, cInt_of_lt hw.1, decide_eq_false (by have := hl.2.1; omega),
      Bool.and_false]

end Words

namespace Scanner

section Folding

variable {s : Scanner Bytes} {m : Mark} {r : Bytes}

/-- A plain text comes to what it comes to between quotes just where no word of it is taken to lie left of
the indentation. -/
theorem plain_as_quoted_iff (words : Words) (hr : EndsPlain (decide (s.flowLevel ≠ 0)) r)
    (hw : s.flowLevel ≠ 0 → words.Inline) (hu : words.Unmarked m.column) :
    (∃ value, (∃ finish t, scanPlainScalar (s.reading m (words.bytes ++ r)) = .ok ⟨.scalar value .plain, m, finish⟩ t)
      ∧ ∀ (single : Bool) (s' : Scanner Bytes) (m' : Mark) (rest : Bytes), (single = true → view rest 0 ≠ octet '\'') →
        ∃ finish t, scanFlowScalar single (s'.reading m' (quote single :: (words.bytes ++ quote single :: rest)))
          = .ok ⟨.scalar value (if single then .singleQuoted else .doubleQuoted), m', finish⟩ t)
      ↔ words.Deep (decide (s.flowLevel ≠ 0)) (leftOfIndent (toCInt (s.indent + 1))) m.column := by
  rw [← scanPlainScalar_words hr hw hu]
  constructor
  · rintro ⟨value, hplain, hquoted⟩
    obtain ⟨finish, t, h⟩ := hquoted false s m [] nofun
    have h' : ∃ finish t, scanFlowScalar false (s.reading m (quote false :: (words.bytes ++ [quote false]))) = .ok _ t :=
      scanFlowScalar_words nofun hu
    obtain ⟨finish', t', h'⟩ := h'
    rw [h'] at h
    have hvalue : valueOf [] words = value := by
      injection h with h
      injection h with h
      injection h
    rwa [hvalue]
  · exact fun hplain => ⟨valueOf [] words, hplain, fun _ _ _ _ hrest => scanFlowScalar_words hrest hu⟩

/-- A word of `n + 1` letters. -/
def letters (n : Nat) : Word where
  characters := List.replicate (n + 1) [octet 'a']
  nonempty := nofun
  inWord := fun _ hc => List.eq_of_mem_replicate hc ▸ ⟨isCharacter_ascii (by decide), rfl, by decide⟩

/-- A line of a word of `n + 1` letters and a letter, then a line of a letter. -/
def longLine (n : Nat) : Words :=
  .more (letters n) ⟨[.blank false], nofun, .singleton _⟩
    (.more (letters 0) ⟨[.ending .lf], nofun, .singleton _⟩ (.last (letters 0)))

/-- A scanner at the start of a stream, where no block has been opened. -/
def outside : Scanner Bytes := { init [] with indent := -1 }

theorem length_letters (n : Nat) : (letters n).characters.length = n + 1 := List.length_replicate

theorem not_indicator_letters (n : Nat) (r : Bytes) : isDocumentIndicator (view ((letters n).bytes ++ r)) = false := by
  have hfirst : view ((letters n).bytes ++ r) 0 = octet 'a' := by
    have hbytes : (letters n).bytes = octet 'a' :: (List.replicate n [octet 'a']).flatten :=
      congrArg List.flatten List.replicate_succ
    rw [hbytes]
    rfl
  simp [isDocumentIndicator, checkAt, hfirst, octet]

theorem longLine_lies (n : Nat) : (longLine n).Lies (-1) 0 := by
  unfold longLine Words.Lies Words.Lies Words.Lies
  simp only [tabbed, Space.forbidden, Bool.and_false, Bool.false_and, Bool.or_false, true_and, and_true]
  omega

theorem longLine_unmarked (n : Nat) : (longLine n).Unmarked 0 := by
  refine ⟨fun _ => not_indicator_letters n _, fun _ => not_indicator_letters 0 _, fun _ => ?_⟩
  have hlast := not_indicator_letters 0 []
  rwa [List.append_nil] at hlast

theorem longLine_within {n limit : Nat} (h : n + 2 < limit) : (longLine n).Within limit 0 := by
  refine ⟨?_, ?_, trivial⟩
  · change 0 + (letters n).characters.length + 1 < limit
    rw [length_letters]
    omega
  · exact Nat.zero_lt_of_lt h

theorem plain_as_quoted_letters :
    ∃ value, (∃ finish t, scanPlainScalar (outside.reading .zero ((longLine 0).bytes ++ []))
        = .ok ⟨.scalar value .plain, .zero, finish⟩ t)
      ∧ ∀ (single : Bool) (s' : Scanner Bytes) (m' : Mark) (rest : Bytes), (single = true → view rest 0 ≠ octet '\'') →
        ∃ finish t, scanFlowScalar single (s'.reading m' (quote single :: ((longLine 0).bytes ++ quote single :: rest)))
          = .ok ⟨.scalar value (if single then .singleQuoted else .doubleQuoted), m', finish⟩ t :=
  (plain_as_quoted_iff (s := outside) (longLine 0) (.inl rfl) (fun h => absurd rfl h) (longLine_unmarked 0)).mpr
    ((longLine_lies 0).deep (by decide) (by decide) (longLine_within (by decide)))

/-- A word that is taken to lie left of the indentation is left out. -/
theorem longLine_cut {n : Nat} (hleft : leftOfIndent (toCInt (outside.indent + 1)) (n + 2) = true) :
    ¬∃ value, (∃ finish t, scanPlainScalar (outside.reading .zero (longLine n).bytes)
          = .ok ⟨.scalar value .plain, .zero, finish⟩ t)
        ∧ ∀ single, ∃ finish t, scanFlowScalar single
            (outside.reading .zero (quote single :: ((longLine n).bytes ++ [quote single])))
          = .ok ⟨.scalar value (if single then .singleQuoted else .doubleQuoted), .zero, finish⟩ t := by
  rintro ⟨value, hplain, hquoted⟩
  obtain ⟨finish, t, h⟩ := hquoted false
  have h' : ∃ finish t, scanFlowScalar false
      (outside.reading .zero (quote false :: ((longLine n).bytes ++ [quote false]))) = .ok _ t :=
    scanFlowScalar_words nofun (longLine_unmarked n)
  obtain ⟨finish', t', h'⟩ := h'
  rw [h'] at h
  have hvalue : valueOf [] (longLine n) = value := by
    injection h with h
    injection h with h
    injection h
  rw [← hvalue, ← List.append_nil (longLine n).bytes] at hplain
  have hdeep := (scanPlainScalar_words (.inl rfl) (fun h => absurd rfl h) (longLine_unmarked n)).mp hplain
  have hpast : 0 + (letters n).characters.length + 1 = n + 2 := by
    rw [length_letters]
    omega
  have hcolumn : (!false && leftOfIndent (toCInt (outside.indent + 1)) (0 + (letters n).characters.length + 1)) = false :=
    hdeep.2.1
  rw [hpast, hleft] at hcolumn
  cases hcolumn

/-- Behind 2147483647 letters a word is left out. -/
theorem plain_text_cut_short :
    (longLine 2147483646).Lies outside.indent 0 ∧ (longLine 2147483646).Unmarked 0
      ∧ ¬∃ value, (∃ finish t, scanPlainScalar (outside.reading .zero (longLine 2147483646).bytes)
            = .ok ⟨.scalar value .plain, .zero, finish⟩ t)
          ∧ ∀ single, ∃ finish t, scanFlowScalar single
              (outside.reading .zero (quote single :: ((longLine 2147483646).bytes ++ [quote single])))
            = .ok ⟨.scalar value (if single then .singleQuoted else .doubleQuoted), .zero, finish⟩ t :=
  ⟨longLine_lies _, longLine_unmarked _, longLine_cut (by decide +kernel)⟩

end Folding

end Scanner

end LibYaml
