import LibYaml.Scanner.Together

/-!
# Columns and the width of integers

Where no line is longer than a 32-bit integer can say, and no block has been opened within a digit of
that limit, a token is scanned as it would be with unbounded integers.
-/

namespace LibYaml

open Fallible
open EStateM (Result)

variable {limit : Nat} {cs rest line : List Bytes} {c r b : Bytes}

/-! ## Texts -/

theorem next_character (h : IsCharacter c) : next (view (c ++ r)) = view r := by
  funext k
  rw [next, behind, width_character h, view_append_add]

theorem agree_text : ∀ (n : Nat) {cs : List Bytes}, (∀ c ∈ cs, IsCharacter c) →
    Agree n (view cs.flatten) (view cs.flatten)
  | 0, _, _ => trivial
  | _ + 1, [], _ => ⟨rfl, fun h => absurd (view_nil 0) h⟩
  | n + 1, c :: cs, h => by
    have hc := h c List.mem_cons_self
    rw [List.flatten_cons]
    refine ⟨rfl, fun _ => ⟨?_, fun _ _ => rfl, ?_⟩⟩
    · rw [width_character hc]
      exact hc.length_pos
    · rw [next_character hc]
      exact agree_text n fun d hd => h d (List.mem_cons_of_mem _ hd)

theorem isBreak_character (h : IsCharacter c) : isBreak (view (c ++ r)) = isBreak (view c) :=
  Local.isBreak _ _ (agree_character h)

/-- A character of one byte. -/
theorem IsCharacter.eq_singleton {b : UInt8} (h : IsCharacter c) (hb : view (c ++ r) 0 = b) (ha : b < 0x80) :
    c = [b] := by
  have hw := width_character (r := r) h
  rw [width_ascii (by rwa [hb])] at hw
  obtain ⟨d, rfl⟩ := List.length_eq_one_iff.mp hw.symm
  exact congrArg ([·]) hb

/-- No line has more than `limit` characters. -/
def Lines (limit : Nat) (cs : List Bytes) : Prop :=
  ∀ line, line <:+: cs → (∀ c ∈ line, isBreak (view c) = false) → line.length ≤ limit

/-- The input is the characters `rest`, behind those of `line` in their line. -/
structure Lined (limit : Nat) (line rest : List Bytes) (b : Bytes) : Prop where
  text : b = rest.flatten
  characters : ∀ c ∈ rest, IsCharacter c
  inline : ∀ c ∈ line, isBreak (view c) = false
  lines : Lines limit (line ++ rest)

theorem Lined.column_le (h : Lined limit line rest b) : line.length ≤ limit :=
  h.lines line (List.prefix_append line rest).isInfix h.inline

theorem Lined.agree (h : Lined limit line rest b) (n : Nat) : Agree n (view b) (view b) := by
  rw [h.text]
  exact agree_text n h.characters

theorem Lined.fresh (h : Lined limit line rest b) : Lined limit [] rest b :=
  ⟨h.text, h.characters, fun _ hc => absurd hc List.not_mem_nil,
    fun line' hl => h.lines line' (hl.trans (List.suffix_append line rest).isInfix)⟩

/-- What is there is a character. -/
theorem Lined.head (h : Lined limit line rest b) (h0 : view b 0 ≠ 0) :
    ∃ c rest', rest = c :: rest' ∧ IsCharacter c ∧ b = c ++ rest'.flatten := by
  cases rest with
  | nil =>
    rw [h.text] at h0
    exact absurd (view_nil 0) h0
  | cons c rest' =>
    refine ⟨c, rest', rfl, h.characters c List.mem_cons_self, ?_⟩
    rw [h.text, List.flatten_cons]

theorem Lined.past (h : Lined limit line (c :: rest) b) (hb : isBreak (view c) = false) :
    Lined limit (line ++ [c]) rest rest.flatten := by
  refine ⟨rfl, fun d hd => h.characters d (List.mem_cons_of_mem _ hd), fun d hd => ?_, ?_⟩
  · rcases List.mem_append.mp hd with hd | hd
    · exact h.inline d hd
    · rwa [List.mem_singleton.mp hd]
  · have hlines := h.lines
    rwa [List.append_cons] at hlines

theorem Lined.below (h : Lined limit line (c :: rest) b) : Lined limit [] rest rest.flatten := by
  have hfresh := h.fresh.lines
  refine ⟨rfl, fun d hd => h.characters d (List.mem_cons_of_mem _ hd), fun _ hc => absurd hc List.not_mem_nil, ?_⟩
  exact fun line' hl => hfresh line' (hl.trans (List.suffix_cons c rest).isInfix)

theorem isBreak_ne_zero {v : View} (h : isBreak v = true) : v 0 ≠ 0 := by
  intro h0
  rw [isBreak, isBreakAt, checkAt, checkAt, h0] at h
  exact Bool.false_ne_true h

theorem advance_character (h : IsCharacter c) : Input.advance (width (Input.view (c ++ r))) (c ++ r) = r := by
  show (c ++ r).drop (width (view (c ++ r))) = r
  rw [width_character h]
  exact List.drop_left

theorem size_character (h : IsCharacter c) : Input.size r < Input.size (c ++ r) := by
  have := h.length_pos
  show r.length < (c ++ r).length
  rw [List.length_append]
  omega

/-- A text whose lines have at most `limit` characters, beside itself. -/
def linesWithin (limit : Nat) : Simulation Bytes Bytes where
  Rel m _ i j := i = j ∧ ∃ line rest, Lined limit line rest i ∧ line.length = m.column
  Broken _ i j := i = j
  mono _ h := h
  agree := by
    rintro m n i _ ⟨rfl, line, rest, h, -⟩
    exact h.agree n
  broken h := h.1
  encoding _ := rfl
  cache := by
    rintro m k i _ n - ⟨rfl, line, rest, h, hm⟩
    exact ⟨⟨rfl, line, rest, h, hm⟩, h.agree k, le_rfl, le_rfl⟩
  past := by
    rintro m n i _ ⟨rfl, line, rest, h, hm⟩ hi
    obtain ⟨c, rest, rfl, hc, rfl⟩ := h.head hi.1
    have hb : isBreak (view c) = false := (isBreak_character hc).symm.trans hi.2
    rw [advance_character hc]
    refine ⟨⟨rfl, line ++ [c], rest, h.past hb, ?_⟩, size_character hc, size_character hc⟩
    rw [List.length_append, List.length_singleton, hm]
    rfl
  below := by
    rintro m n i _ ⟨rfl, line, rest, h, -⟩ hb
    obtain ⟨c, rest, rfl, hc, rfl⟩ := h.head (isBreak_ne_zero hb)
    rw [advance_character hc]
    exact ⟨⟨rfl, [], rest, h.below, rfl⟩, size_character hc, size_character hc⟩
  crlf := by
    rintro m n i _ ⟨rfl, line, rest, h, -⟩ hb
    have hb : (view i 0 == octet '\r' && view i 1 == octet '\n') = true := hb
    rw [Bool.and_eq_true, beq_iff_eq, beq_iff_eq] at hb
    obtain ⟨c, rest, rfl, hc, rfl⟩ := h.head (by rw [hb.1]; decide)
    obtain rfl := hc.eq_singleton hb.1 (by decide)
    have hn : view rest.flatten 0 = octet '\n' := hb.2
    obtain ⟨d, rest, rfl, hd, heq⟩ := h.below.head (by rw [hn]; decide)
    rw [heq] at hn
    obtain rfl := hd.eq_singleton hn (by decide)
    have hsize : rest.flatten.length + 1 < (octet '\r' :: octet '\n' :: rest.flatten).length := Nat.lt_succ_self _
    exact ⟨⟨rfl, [], rest, h.below.below, rfl⟩, hsize, hsize⟩
  ended := by
    rintro m n i _ ⟨rfl, line, rest, h, -⟩
    exact ⟨rfl, [], rest, h.fresh, rfl⟩

namespace Scanner

/-! ## Unbounded integers -/

section Exactly

variable {ι : Type}

/-- The integer, where 32 bits hold it. -/
def exactly (n : Int) : ScanM ι Int := if -(2 ^ 31) ≤ n ∧ n < 2 ^ 31 then pure n else throw .undefined

theorem narrowed_same {n : Int} (h : -(2 ^ 31) ≤ n ∧ n < 2 ^ 31) :
    Same (narrowed n : ScanM ι Int) (exactly n : ScanM ι Int) :=
  ⟨n, congrArg pure (toCInt_eq h), if_pos h⟩

/-- An indentation that any digit may be added to. -/
def Narrow (indent : Int) : Prop := -1 ≤ indent ∧ indent + 9 ≤ maxInt

theorem narrows_exactly : Sim.Narrows (linesWithin maxInt) narrowed exactly Narrow where
  column := by
    rintro m n i j ⟨-, line, rest, h, hm⟩
    have := h.column_le
    have hmax : maxInt = 2147483647 := rfl
    exact narrowed_same ⟨by omega, by omega⟩
  indent := by
    rintro outer ⟨hlo, hhi⟩
    have hmax : maxInt = 2147483647 := rfl
    exact narrowed_same ⟨by omega, by omega⟩
  increment := by
    rintro outer increment ⟨hlo, hhi⟩ h0 hi
    have hmax : maxInt = 2147483647 := rfl
    exact narrowed_same ⟨by omega, by omega⟩

end Exactly

/-! ## Runs -/

section Runs

variable {text : Bytes} {delivered : List Token} {s t u : Scanner Bytes}

/-- A text whose lines are short is scanned beside itself. -/
theorem beside_init (hc : ∀ c ∈ cs, IsCharacter c) (hl : Lines limit cs) :
    Beside (linesWithin limit) (init cs.flatten) (init cs.flatten) := by
  refine ⟨rfl, ⟨rfl, [], cs, ⟨rfl, hc, fun _ hc => absurd hc List.not_mem_nil, hl⟩, rfl⟩, ?_⟩
  exact fun _ hk => absurd hk List.not_mem_nil

theorem Sound.indent_ge (h : Sound delivered s) : -1 ≤ s.indent := by
  obtain ⟨indents, hi⟩ := List.getLast?_eq_some_iff.mp h.bottom
  have hcolumns := h.columns
  rw [hi] at hcolumns
  cases indents with
  | nil =>
    obtain ⟨he, -⟩ := List.cons.inj hi
    exact he.ge
  | cons indent indents =>
    obtain ⟨he, -⟩ := List.cons.inj hi
    have := List.rel_of_pairwise_cons hcolumns (List.mem_append_right indents List.mem_cons_self)
    omega

/-- Runs whose states are `Beside` themselves do the same. -/
theorem eq_of_sim {α : Type} {P : Scanner Bytes → Scanner Bytes → Prop} {x y : ScanM Bytes α}
    {Q : α → Scanner Bytes → Scanner Bytes → Prop} {E : Fault → Scanner Bytes → Scanner Bytes → Prop}
    (h : Sim P x y Q E) (hQ : ∀ a s t, Q a s t → t = s) (hE : ∀ e s t, E e s t → t = s) (hs : P s t) : x s = y t := by
  have hst := h s t hs
  cases hx : x s <;> cases hy : y t <;> rw [hx, hy] at hst <;> try exact hst.elim
  · rw [hst.1, hQ _ _ _ hst.2]
  · rw [hst.1, hE _ _ _ hst.2]

/-- Where every line has at most `maxInt` characters and the indentation leaves room for a digit, the
next token is scanned as with unbounded integers, and no integer is out of range. -/
theorem indentation_exact (hc : ∀ c ∈ cs, IsCharacter c) (hl : Lines maxInt cs)
    (h : Reached cs.flatten delivered s) (hi : Inside s t) (hs : t.streamStartProduced = true)
    (ha : approach t = .ok ⟨⟩ u) (hu : u.indent + 9 ≤ maxInt) :
    fetchTokenWith (scanPlainScalarWith exactly) (scanBlockScalarWith exactly) u = fetchToken u
      ∧ ∀ v, fetchToken u ≠ .error .undefined v := by
  have hb := hi.beside (h.beside (beside_init hc hl))
  obtain ⟨u', hu', hhere⟩ := approach_here.ok hb.here ha
  rw [ha] at hu'
  cases hu'
  have hsettled : Settled delivered t := by
    refine (hi.between h.resting.between).resolve_left fun hun => ?_
    obtain ⟨-, -, -, -, -, -, hstarted⟩ := fields_of_kept hun.2
    have hstarted : t.streamStartProduced = false := hstarted
    rw [hs] at hstarted
    cases hstarted
  have hfetching := approach_spec.ok hsettled ha
  have hnarrow : Narrow u.indent := ⟨hfetching.1.indent_ge, hu⟩
  refine ⟨(eq_of_sim (fetchTokenWith_here (I := Narrow) (R := linesWithin maxInt) (o := (t, t)) (i := 0)
    (fun o i => ?_) fun literal o i => ?_) (fun _ s t hst => ?_) (fun _ s t hst => ?_)
    (hhere.weaken (fun h => ⟨h, hnarrow⟩) le_rfl le_rfl)).symm, fun v hv => ?_⟩
  · rw [← scanPlainScalarWith_narrowed]
    exact Sim.scanPlainScalarWith narrows_exactly
  · rw [← scanBlockScalarWith_narrowed]
    exact Sim.scanBlockScalarWith narrows_exactly
  · rcases hst with hst | hst
    · rw [hst.onto, ← hst.rel.1]
      rfl
    · rw [hst.onto, ← hst.rel.1]
      rfl
  · have hbroken : s.input = t.input := hst.broken
    rw [hst.onto, ← hbroken]
    rfl
  · have hfailed := fetchToken_spec.error hfetching hv
    exact hfailed.ended.defined rfl

/-- In "- a" the 'a' is scanned in the block that the '-' has opened. -/
theorem indentation_exact_entry : ∃ s u : Scanner Bytes, approach s = .ok ⟨⟩ u ∧ u.indent = 0
    ∧ fetchTokenWith (scanPlainScalarWith exactly) (scanBlockScalarWith exactly) u = fetchToken u
    ∧ ∀ v, fetchToken u ≠ .error .undefined v := by
  have hrun : passes (fun token s => decide (token.type ≠ .noToken) && passes (fun token s =>
      decide (token.type ≠ .noToken) && passes (fun token s => decide (token.type ≠ .noToken)
        && (decide (s.streamStartProduced = true) && passes (fun _ u => decide (u.indent = 0)) (approach s)))
      (scan s)) (scan s)) (scan (init (("- a".toList.map octet).map ([·])).flatten)) = true := by decide +kernel
  obtain ⟨_, s₁, hs₁, hc⟩ := exists_ok hrun
  rw [Bool.and_eq_true, decide_eq_true_iff] at hc
  obtain ⟨_, s₂, hs₂, hc₂⟩ := exists_ok hc.2
  rw [Bool.and_eq_true, decide_eq_true_iff] at hc₂
  obtain ⟨_, s, hs, hc₃⟩ := exists_ok hc₂.2
  rw [Bool.and_eq_true, Bool.and_eq_true, decide_eq_true_iff, decide_eq_true_iff] at hc₃
  obtain ⟨⟨⟩, u, hu, hindent⟩ := exists_ok hc₃.2.2
  have hindent : u.indent = 0 := of_decide_eq_true hindent
  have hreached := ((Reached.start.scan hs₁ hc.1).scan hs₂ hc₂.1).scan hs hc₃.1
  refine ⟨s, u, hu, hindent, indentation_exact (OneByte.splits (by decide)).2 (fun line hl _ => ?_) hreached .start hc₃.2.1 hu ?_⟩
  · exact hl.length_le.trans (by decide)
  · rw [hindent]
    decide

end Runs

/-! ## Beyond 32 bits -/

section Deep

variable {s t u : Scanner Bytes} {m : Mark}

/-- Spaces before the next token. -/
theorem scanToNextToken_spaces (hc : ∀ c ∈ cs, c = [octet ' ']) (hr : view r 0 ∉ octet ' ' :: octet '#' :: breakOctets)
    (hbom : isBom (view (cs.flatten ++ r)) = false) (ht : (s.flowLevel ≠ 0 || !s.simpleKeyAllowed) = false) :
    scanToNextToken (s.reading m (cs.flatten ++ r)) = .ok () (s.reading (m.right cs.length) r) := by
  have hspace : check (view r) ' ' = false := beq_eq_false_iff_ne.mpr fun h => hr (h ▸ List.mem_cons_self)
  have hhash : check (view r) '#' = false :=
    beq_eq_false_iff_ne.mpr fun h => hr (h ▸ List.mem_cons_of_mem _ List.mem_cons_self)
  have hbreak : isBreak (view r) = false :=
    (inline_of_octet fun h => hr (List.mem_cons_of_mem _ (List.mem_cons_of_mem _ h))).2
  have hskip : skipWhile (fun p => check p ' ' || (false && check p '\t')) (s.reading m (cs.flatten ++ r))
      = .ok () (s.reading (m.right cs.length) r) :=
    skipWhile_text ((Bool.or_false _).trans hspace) (fun c h => hc c h ▸ isCharacter_ascii (by decide))
      fun c h r => by rw [hc c h]; rfl
  have htext : skipToText (s.reading m (cs.flatten ++ r)) = .ok () (s.reading (m.right cs.length) r) := by
    have htabs : tabsSeparate (s.reading m (cs.flatten ++ r)) = .ok false (s.reading m (cs.flatten ++ r)) :=
      congrArg (Result.ok · _) ht
    unfold skipToText
    rw [cache_bind, getMark_bind, look_bind, hbom, Bool.and_false]
    refine (bind_of_ok rfl).trans ?_
    rw [cache_bind, bind_of_ok htabs]
    refine (bind_of_ok hskip).trans ?_
    rw [look_bind, hhash]
    rfl
  have hloop : Yields scanToNextToken (s.reading m (cs.flatten ++ r)) fun _ t => t = s.reading (m.right cs.length) r := by
    refine repeatedly_leave (b := ()) ?_ rfl
    refine (bind_of_ok htext).trans ?_
    rw [look_bind, hbreak]
    rfl
  obtain ⟨⟨⟩, _, h, rfl⟩ := hloop
  exact h

/-- Two rounds may be enough. -/
theorem fetchMoreTokens_of_rounds (h : moreTokens s = .ok (.again ()) t) (h' : moreTokens t = .ok (.leave ()) u) :
    fetchMoreTokens s = .ok () { u with tokenAvailable := true } := by
  have hloop : loop .outOfFuel (fun _ => moreTokens) (2 + (s.input.length + 2)) () s = .ok () u := by
    refine loop_more ?_ _
    rw [loop, bind_of_ok h]
    exact bind_of_ok h'
  rw [show 2 + (s.input.length + 2) = Input.size s.input + 4 from Nat.add_comm _ _] at hloop
  rw [fetchMoreTokens_eq, bind_of_ok (get_apply s), bind_of_ok hloop]
  rfl

/-- The scanner behind STREAM-START. -/
def opened (input : Bytes) : Scanner Bytes := { init input with
  indent := -1
  simpleKeys := [noSimpleKey]
  simpleKeyAllowed := true
  streamStartProduced := true
  tokensParsed := 1 }

theorem scan_init (input : Bytes) : scan (init input) = .ok ⟨.streamStart .utf8, .zero, .zero⟩ (opened input) := rfl

/-- The scanner in front of a '-' in column `maxInt`. -/
def inFront : Scanner Bytes := (opened []).reading ⟨maxInt, 0, maxInt⟩ ("- a".toList.map octet)

/-- The scanner behind that '-'. -/
def behindEntry (tokens : List Token) (parsed : Nat) : Scanner Bytes := { init (" a".toList.map octet) with
  mark := ⟨maxInt + 1, 0, maxInt + 1⟩
  streamStartProduced := true
  tokens := tokens
  tokensParsed := parsed
  indents := [-1]
  indent := maxInt
  simpleKeyAllowed := true
  simpleKeys := [noSimpleKey] }

/-- The tokens of that '-'. -/
def entryTokens : List Token :=
  [⟨.blockSequenceStart, ⟨maxInt, 0, maxInt⟩, ⟨maxInt, 0, maxInt⟩⟩,
    ⟨.blockEntry, ⟨maxInt, 0, maxInt⟩, ⟨maxInt + 1, 0, maxInt + 1⟩⟩]

theorem fetchToken_inFront : fetchToken inFront = .ok () (behindEntry entryTokens 1) := by
  with_unfolding_all rfl

theorem scan_opened (hc : ∀ c ∈ cs, c = [octet ' ']) (hn : cs.length = maxInt)
    (hbom : isBom (view (cs.flatten ++ "- a".toList.map octet)) = false) :
    scan (opened (cs.flatten ++ "- a".toList.map octet))
      = .ok ⟨.blockSequenceStart, ⟨maxInt, 0, maxInt⟩, ⟨maxInt, 0, maxInt⟩⟩ (behindEntry entryTokens.tail 2) := by
  have happroach : approach (opened (cs.flatten ++ "- a".toList.map octet)) = .ok () inFront := by
    have hnext := scanToNextToken_spaces (s := opened []) (m := .zero) hc (by decide) hbom rfl
    rw [hn] at hnext
    refine (bind_of_ok rfl).trans ((bind_of_ok hnext).trans ?_)
    with_unfolding_all rfl
  have hfirst : moreTokens (opened (cs.flatten ++ "- a".toList.map octet)) = .ok (.again ()) (behindEntry entryTokens 1) := by
    have hfetch : fetchNextToken (opened (cs.flatten ++ "- a".toList.map octet)) = .ok () (behindEntry entryTokens 1) := by
      rw [fetchNextToken_started rfl, bind_of_ok happroach]
      exact fetchToken_inFront
    exact (bind_of_ok (get_apply _)).trans (bind_of_ok hfetch)
  have hsecond : moreTokens (behindEntry entryTokens 1) = .ok (.leave ()) (behindEntry entryTokens 1) := by
    with_unfolding_all rfl
  have hmore := fetchMoreTokens_of_rounds hfirst hsecond
  have hscan : scanToken (opened (cs.flatten ++ "- a".toList.map octet))
      = .ok ⟨.blockSequenceStart, ⟨maxInt, 0, maxInt⟩, ⟨maxInt, 0, maxInt⟩⟩ (behindEntry entryTokens.tail 2) := by
    refine (bind_of_ok (get_apply _)).trans ((bind_of_ok hmore).trans ?_)
    with_unfolding_all rfl
  unfold scan
  rw [hscan]
  rfl

theorem scan_behindEntry : scan (behindEntry entryTokens.tail 2)
    = .ok ⟨.blockEntry, ⟨maxInt, 0, maxInt⟩, ⟨maxInt + 1, 0, maxInt + 1⟩⟩ (behindEntry [] 3) := by
  with_unfolding_all rfl

/-- The scanner in front of the 'a'. -/
def item : Scanner Bytes := (behindEntry [] 3).reading ⟨maxInt + 2, 0, maxInt + 2⟩ ("a".toList.map octet)

theorem approach_item : approach (behindEntry [] 3) = .ok ⟨⟩ item := by
  with_unfolding_all rfl

theorem fetchTokenWith_item : fetchTokenWith (scanPlainScalarWith exactly) (scanBlockScalarWith exactly) item
    = .error .undefined { item with
      simpleKeys := [⟨true, false, 3, ⟨maxInt + 2, 0, maxInt + 2⟩⟩]
      simpleKeyAllowed := false } := by
  with_unfolding_all rfl

/-- "- a" behind `maxInt` spaces. -/
def deepText : List Bytes := List.replicate maxInt [octet ' '] ++ ("- a".toList.map octet).map ([·])

/-- `yaml_parser_roll_indent` takes the column of the '-' for an indentation, to which nothing can be
added: the 'a' is scanned against an indentation that is not there. -/
theorem indentation_overflows : (∀ c ∈ deepText, IsCharacter c) ∧ deepText.flatten.length < 2 ^ 63 - 1
    ∧ ∃ delivered s u, Reached deepText.flatten delivered s ∧ s.streamStartProduced = true
      ∧ approach s = .ok ⟨⟩ u ∧ u.indent = maxInt ∧ toCInt (u.indent + 1) = -(2 ^ 31)
      ∧ (∃ v, fetchToken u = .ok ⟨⟩ v)
      ∧ ∃ v, fetchTokenWith (scanPlainScalarWith exactly) (scanBlockScalarWith exactly) u = .error .undefined v := by
  have hspaces : ∀ c ∈ List.replicate maxInt [octet ' '], c = [octet ' '] := fun c hc => List.eq_of_mem_replicate hc
  have hsplits : Splits ("- a".toList.map octet) (("- a".toList.map octet).map ([·])) := OneByte.splits (by decide)
  have htext : deepText.flatten = (List.replicate maxInt [octet ' ']).flatten ++ "- a".toList.map octet := by
    rw [deepText, List.flatten_append, hsplits.1]
  refine ⟨fun c hc => ?_, ?_, ?_⟩
  · rcases List.mem_append.mp hc with hc | hc
    · rw [hspaces c hc]
      exact isCharacter_ascii (by decide)
    · exact hsplits.2 c hc
  · rw [htext, List.length_append, List.flatten_replicate_singleton, List.length_replicate]
    decide
  · have hbom : isBom (view ((List.replicate maxInt [octet ' ']).flatten ++ "- a".toList.map octet)) = false := by
      rw [show maxInt = 2147483646 + 1 from rfl, List.replicate_succ]
      rfl
    have hfirst := scan_init deepText.flatten
    rw [htext] at hfirst ⊢
    have hreached := ((Reached.start.scan hfirst (by decide)).scan
      (scan_opened hspaces List.length_replicate hbom) (by decide)).scan scan_behindEntry (by decide)
    refine ⟨_, _, item, hreached, rfl, approach_item, rfl, ?_, ?_, ?_⟩
    · unfold toCInt
      decide
    · obtain ⟨⟨⟩, v, hv, -⟩ := exists_ok (c := fun _ _ => true) (r := fetchToken item) (by decide +kernel)
      exact ⟨v, hv⟩
    · exact ⟨_, fetchTokenWith_item⟩

end Deep

end Scanner

end LibYaml
