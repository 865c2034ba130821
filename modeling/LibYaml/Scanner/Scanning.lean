import LibYaml.Scanner.Narrowing
import LibYaml.Scanner.Simulation

/-!
# Scanning a token on both sides

Every function that scans a token leaves two related scanners related, behind a character more than
before.
-/

namespace LibYaml

open Fallible

namespace Scanner

namespace Sim

variable {ι κ : Type} [Input ι] [Input κ] {R : Simulation ι κ} {α β : Type}
  {o : Scanner ι × Scanner κ} {P : Scanner ι → Prop} {n m i k : Nat} {p : View → Prop}
  {start : Mark} {string : Bytes}

theorem of_not {b : Bool} (h : (!b) = true) : b = false := by simpa using h

theorem of_not_false {b : Bool} (h : (!b) = false) : b = true := by simpa using h

/-- A run of blanks and the like, of which there may be none. -/
theorem readSome {c : View → Bool} (hc : Local 1 c) (h0 : ∀ v, c v = true → Inline v) :
    Sim (Ready R o P 1 i) (Scanner.readWhile c string) (Scanner.readWhile c string)
      (fun _ => Ready R o (Ahead 0) 1 i) (Lost R o) :=
  ((readWhile (p := fun _ => True) hc h0).of fun _ _ h =>
    h.weaken (fun _ => trivial) le_rfl le_rfl).into fun _ _ _ h =>
      h.weaken (fun _ => trivial) le_rfl le_rfl

theorem isBlank_inline {v : View} (h : isBlank v = true) : Inline v :=
  inline_first (c := isBlank) (fun _ => rfl) (by decide) h

theorem isAlpha_inline {v : View} (h : isAlpha v = true) : Inline v :=
  inline_first (c := isAlpha) (fun _ => rfl) (by decide) h

theorem isDigit_inline {v : View} (h : isDigit v = true) : Inline v :=
  inline_first (c := isDigit) (fun _ => rfl) (by decide) h

theorem isPlusMinus_inline {v : View} (h : isPlusMinus v = true) : Inline v :=
  inline_first (c := isPlusMinus) (fun _ => rfl) (by decide) h

theorem not_breakz_inline {v : View} (h : (!isBreakz v) = true) : Inline v :=
  inline_breakz (of_not h)

theorem scanLineEnd {context : String} :
    Sim (Ready R o P n i) (scanLineEnd context start) (scanLineEnd context start)
      (fun _ => Ready R o (Ahead 0) 0 i) (Lost R o) := by
  refine Fallible.Sim.of (A := Ready R o (Ahead 0) 0 i) ?_
    fun _ _ h => h.weaken (fun _ => trivial) (Nat.zero_le _) le_rfl
  refine cacheThen (by omega) (by omega) fun _ => (skipWhile Local.isBlank fun _ => isBlank_inline).bind fun _ => ?_
  refine lookAt Local.check fun b => ?_
  refine (onlyIf (by omega) (by omega) (fun _ => skipWhile (P := Ahead 0) Local.isBreakz.not fun _ => not_breakz_inline)
    fun _ _ h => h).bind fun _ => ?_
  refine ifShows (q := fun _ => True) (r := fun _ => True) Local.isBreakz.not (fun _ _ _ => trivial)
    (fun _ _ _ => trivial) fail ?_
  refine ifShows (q := (isBreak · = true)) (r := Solid 0) Local.isBreak (fun _ _ h => h)
    (fun _ _ _ => trivial) ?_ (pure.into fun _ _ _ h => h.weaken (fun h => h) (Nat.zero_le _) le_rfl)
  refine (cacheWith (A := Shows (isBreak · = true)) (by decide) fun s input h ha => ?_).bind
    fun _ => (skipLine fun _ h => h).into fun _ _ _ h => h.weaken (fun h => h) le_rfl (by omega)
  exact (Local.isBreak _ _ ha).symm.trans h

/-! ## Tags -/

theorem escapedWidth {directive : Bool} {octet : UInt8} {width : Nat} {n : Nat} :
    Sim (Ready R o P n i) (escapedWidth directive start octet width)
      (escapedWidth directive start octet width) (fun _ => Ready R o P n i) (Lost R o) := by
  unfold Scanner.escapedWidth
  split_ifs
  · exact fail
  · exact pure
  · exact pure
  · exact fail

theorem scanUriEscapes {directive : Bool} :
    Sim (Ready R o (Ahead 0) 0 i) (scanUriEscapes directive start string)
      (scanUriEscapes directive start string) (fun _ => Ready R o (Ahead 0) 0 (i + 1))
      (Lost R o) := by
  refine repeatedly (P := fun _ => Ahead 0) fun o a j hj => ?_
  obtain ⟨width, string⟩ := a
  refine cacheThen (by omega) (by omega) fun _ => ifShows (q := fun _ => True) (r := fun v => isEscapedOctet v = true)
    Local.isEscapedOctet.not (fun _ _ _ => trivial) (fun _ _ h => by simpa using h) fail ?_
  refine look (fun s h w hw => ?_) fun octet => ?_
  · have hs := isEscapedOctet_inline h
    have same : ∀ j < 3, Input.view s.input j = w j := fun j hj =>
      hw.byte (solid_ascii hs) (Nat.le_of_lt hj) hj
    simp only [escapedOctet, asHexAt, same 1 (by decide), same 2 (by decide)]
  refine Fallible.Sim.of (A := Ready R o (Ahead 3) 3 j) (escapedWidth.bind fun width => ?_)
    fun s t h => h.weaken (fun h => solid_ascii (isEscapedOctet_inline h.1)) le_rfl le_rfl
  refine skip.bind fun _ => skip.bind fun _ => skip.bind fun _ => ?_
  split_ifs
  · exact round fun _ _ h => h.weaken (fun h => h) le_rfl (by omega)
  · exact round fun _ _ h => h.weaken (fun h => h) le_rfl (by omega)

theorem isUriChar_inline {uriChar : Bool} {v : View} (h : isUriChar uriChar v = true) : Inline v :=
  inline_first (c := isUriChar uriChar) (fun _ => rfl) (by cases uriChar <;> decide) h

theorem scanTagUri {uriChar directive : Bool} {head : Option Bytes} :
    Sim (Ready R o P n i) (scanTagUri uriChar directive head start)
      (scanTagUri uriChar directive head start) (fun _ => Ready R o (Ahead 0) 1 i) (Lost R o) := by
  refine Fallible.Sim.of (A := Ready R o (Ahead 0) 0 i) ?_
    fun _ _ h => h.weaken (fun _ => trivial) (Nat.zero_le _) le_rfl
  refine cacheThen (by omega) (by omega) fun _ => Fallible.Sim.bind (Q := fun _ => Ready R o (Ahead 0) 1 i) ?_ fun a => ?_
  · refine repeatedly (P := fun _ => Ahead 0) fun o a j hj => ?_
    obtain ⟨length, string⟩ := a
    refine ifShows (q := Solid 1) (r := Solid 0) Local.isUriChar
      (fun _ _ h => (isUriChar_inline h).solid) (fun _ _ _ => trivial) ?_
      (round fun _ _ h => h.weaken (fun h => h) le_rfl hj)
    refine Fallible.Sim.bind (Q := fun _ => Ready R o (Ahead 0) 0 (j + 1)) ?_ fun string =>
      cacheThen (by omega) (by omega) fun _ => round fun _ _ h => h
    exact ifShows (q := Solid 0) (r := Solid 1) Local.check (fun _ _ _ => trivial) (fun _ h _ => h)
      (of_ready (by omega) (by omega) (fun _ h => h) scanUriEscapes) read
  · obtain ⟨length, string⟩ := a
    dsimp only
    split_ifs
    · exact fail
    · exact pure

theorem scanTagHandle {directive : Bool} :
    Sim (Ready R o P n i) (scanTagHandle directive start) (scanTagHandle directive start)
      (fun _ => Ready R o (Ahead 0) 0 (i + 1)) (Lost R o) := by
  refine Fallible.Sim.of (A := Ready R o (Ahead 0) 0 i) ?_
    fun _ _ h => h.weaken (fun _ => trivial) (Nat.zero_le _) le_rfl
  refine cacheThen (by omega) (by omega) fun _ => ifShows (q := fun _ => True) (r := Solid 1) Local.check.not
    (fun _ _ _ => trivial) (fun _ _ h => (check_inline (c := '!') (by simpa using h) (by decide)).solid)
    fail ?_
  refine read.bind fun string => cacheThen (by omega) (by omega) fun _ => (readSome Local.isAlpha fun _ => isAlpha_inline).bind
    fun string => ?_
  refine ifShows (q := Solid 1) (r := Solid 0) Local.check
    (fun _ _ h => (check_inline h (by decide)).solid) (fun _ _ _ => trivial)
    (read.into fun _ _ _ h => h.weaken (fun h => h) le_rfl (by omega)) ?_
  split_ifs
  · exact fail
  · exact pure.into fun _ _ _ h => h.weaken (fun h => h) (Nat.zero_le _) le_rfl

theorem skipFirst {c : Char} (hc : octet c ∉ breakOctets) : Sim (Ready R o (Shows (check · c = true)) (n + 1) i)
    Scanner.skip Scanner.skip (fun _ => Ready R o (Ahead 0) n (i + 1)) (Lost R o) :=
  skipTo (fun _ h => check_inline h hc) fun _ _ => trivial

theorem scanTagParts : Sim (Ready R o (Shows (check · '!' = true)) 2 i) (scanTagParts start)
    (scanTagParts start) (fun _ => Ready R o (Ahead 0) 0 (i + 1)) (Lost R o) := by
  have first : ∀ v, check v '!' = true → v 0 = octet '!' := by simp [check, checkAt]
  refine ifLookOn (A := Ahead 2) (B := Ahead 0) (fun s h w hw => ?_) (fun s h h' => ?_)
    (fun _ _ _ => trivial) ?_ ?_
  · simp only [checkAt, hw.byte (check_inline h (by decide)).solid le_rfl (by decide : 1 < 2)]
  · have second : Input.view s.input 1 = octet '<' := by simpa [checkAt] using h'
    refine solid_ascii fun j hj => ?_
    rcases j with _ | _ | j
    · rw [first _ h]
      decide
    · rw [Nat.zero_add, second]
      decide
    · omega
  · refine skip.bind fun _ => skip.bind fun _ => scanTagUri.bind fun suffix => ?_
    refine ifShows (q := fun _ => True) (r := (check · '>' = true)) Local.check.not
      (fun _ _ _ => trivial) (fun _ _ h => by simpa using h) fail ?_
    exact (skipFirst (by decide)).bind fun _ => pure.into fun _ _ _ h =>
      h.weaken (fun h => h) le_rfl (by omega)
  · refine scanTagHandle.bind fun handle => ?_
    split_ifs
    · exact scanTagUri.bind fun suffix => pure.into fun _ _ _ h =>
        h.weaken (fun h => h) (Nat.zero_le _) le_rfl
    · refine scanTagUri.bind fun suffix => ?_
      split_ifs
      · exact pure.into fun _ _ _ h => h.weaken (fun h => h) (Nat.zero_le _) le_rfl
      · exact pure.into fun _ _ _ h => h.weaken (fun h => h) (Nat.zero_le _) le_rfl

theorem scanTag : Sim (Ready R o (Shows (check · '!' = true)) 4 i) scanTag scanTag
    (fun _ => Ready R o (Ahead 0) 1 (i + 1)) (Lost R o) := by
  refine mark fun start => (cacheWith (A := Shows (check · '!' = true)) (by decide) fun _ _ h ha =>
    (Local.check (n := 3) _ _ ha).symm.trans h).bind fun _ => scanTagParts.bind fun parts => ?_
  obtain ⟨handle, suffix⟩ := parts
  refine cacheThen (by omega) (by omega) fun _ => flow fun b => ?_
  exact ifShows (q := Solid 0) (r := Solid 0)
    (Local.isBlankz.not.and (Local.or Local.const Local.check.not)) (fun _ _ _ => trivial)
    (fun _ _ _ => trivial) fail (mark fun finish => pure)

/-! ## Anchors -/

theorem scanAnchor {type : TokenType} : Sim (Ready R o (Ahead 1) 4 i) (scanAnchor type)
    (scanAnchor type) (fun _ => Ready R o (Ahead 0) 1 (i + 1)) (Lost R o) := by
  refine mark fun start => skip.bind fun _ => cacheThen (by omega) (by omega) fun _ => ?_
  refine (readSome Local.isAlpha fun _ => isAlpha_inline).bind fun string => mark ?_
  intro finish
  refine ifShows (q := Solid 0) (r := Solid 0) ?_ ?_ ?_ ?_ ?_
  · exact Local.or Local.const Local.endsAnchor.not
  · intros
    trivial
  · intros
    trivial
  · exact fail
  · exact pure

/-! ## Directives -/

theorem scanDirectiveName : Sim (Ready R o P n i) (scanDirectiveName start)
    (scanDirectiveName start) (fun _ => Ready R o (Ahead 0) 1 i) (Lost R o) := by
  refine Fallible.Sim.of (A := Ready R o (Ahead 0) 0 i) ?_
    fun _ _ h => h.weaken (fun _ => trivial) (Nat.zero_le _) le_rfl
  refine cacheThen (by omega) (by omega) fun _ => (readSome Local.isAlpha fun _ => isAlpha_inline).bind fun string => ?_
  split_ifs
  · exact fail
  · exact ifShows (q := Solid 0) (r := Solid 0) Local.isBlankz.not (fun _ _ _ => trivial)
      (fun _ _ _ => trivial) fail pure

theorem scanVersionDirectiveNumber : Sim (Ready R o P n i) (scanVersionDirectiveNumber start)
    (scanVersionDirectiveNumber start) (fun _ => Ready R o (Ahead 0) 1 i) (Lost R o) := by
  refine Fallible.Sim.of (A := Ready R o (Ahead 0) 0 i) ?_
    fun _ _ h => h.weaken (fun _ => trivial) (Nat.zero_le _) le_rfl
  refine cacheThen (by omega) (by omega) fun _ => Fallible.Sim.bind (Q := fun _ => Ready R o (Ahead 0) 1 i) ?_ fun a => ?_
  · refine repeatedly (P := fun _ => Ahead 0) fun o a j hj => ?_
    obtain ⟨length, value⟩ := a
    refine ifShows (q := Solid 1) (r := Solid 0) Local.isDigit
      (fun _ _ h => (isDigit_inline h).solid) (fun _ _ _ => trivial) ?_
      (round fun _ _ h => h.weaken (fun h => h) le_rfl hj)
    split_ifs
    · exact fail
    · exact lookAt Local.asDigit fun _ => skip.bind fun _ => cacheThen (by omega) (by omega) fun _ => round fun _ _ h => h
  · obtain ⟨length, value⟩ := a
    dsimp only
    split_ifs
    · exact fail
    · exact pure

theorem scanVersionDirectiveValue : Sim (Ready R o (Ahead 0) 1 i) (scanVersionDirectiveValue start)
    (scanVersionDirectiveValue start) (fun _ => Ready R o (Ahead 0) 1 i) (Lost R o) := by
  refine cacheThen (by omega) (by omega) fun _ => (skipWhile Local.isBlank fun _ => isBlank_inline).bind fun _ =>
    scanVersionDirectiveNumber.bind fun major => ?_
  refine ifShows (q := fun _ => True) (r := (check · '.' = true)) Local.check.not
    (fun _ _ _ => trivial) (fun _ _ h => by simpa using h) fail ?_
  exact (skipFirst (by decide)).bind fun _ => scanVersionDirectiveNumber.bind fun minor =>
    of_ready (by omega) (by omega) (fun _ h => h) pure

theorem scanTagDirectiveValue : Sim (Ready R o (Ahead 0) 1 i) (scanTagDirectiveValue start)
    (scanTagDirectiveValue start) (fun _ => Ready R o (Ahead 0) 1 i) (Lost R o) := by
  refine cacheThen (by omega) (by omega) fun _ => (skipWhile Local.isBlank fun _ => isBlank_inline).bind fun _ =>
    scanTagHandle.bind fun handle => cacheThen (by omega) (by omega) fun _ => ?_
  refine ifShows (q := Solid 0) (r := Solid 0) Local.isBlank.not (fun _ _ _ => trivial)
    (fun _ _ _ => trivial) fail ?_
  refine (skipWhile Local.isBlank fun _ => isBlank_inline).bind fun _ => scanTagUri.bind fun suffix =>
    cacheThen (by omega) (by omega) fun _ => ?_
  exact ifShows (q := Solid 0) (r := Solid 0) Local.isBlankz.not (fun _ _ _ => trivial)
    (fun _ _ _ => trivial) fail (of_ready (by omega) (by omega) (fun _ h => h) pure)

theorem scanDirectiveValue {name : Bytes} : Sim (Ready R o (Ahead 0) 1 i)
    (scanDirectiveValue name start) (scanDirectiveValue name start)
    (fun _ => Ready R o (Ahead 0) 1 i) (Lost R o) := by
  unfold Scanner.scanDirectiveValue
  split_ifs
  · exact scanVersionDirectiveValue.bind fun _ => pure
  · exact scanTagDirectiveValue.bind fun _ => pure
  · exact fail

theorem scanDirective : Sim (Ready R o (Ahead 1) 4 i) scanDirective scanDirective
    (fun _ => Ready R o (Ahead 0) 0 (i + 1)) (Lost R o) := by
  refine mark fun start => skip.bind fun _ => scanDirectiveName.bind fun name =>
    scanDirectiveValue.bind fun data => mark fun finish => scanLineEnd.bind fun _ => pure

/-! ## Block scalars -/

theorem scanChomping : Sim (Ready R o (Ahead 1) 1 i) scanChomping scanChomping
    (fun _ => Ready R o (Ahead 0) 0 i) (Lost R o) := by
  have chosen : Local 1 fun v => if check v '+' then Chomping.keep else .strip := by
    intro v w h
    simp only [Local.check (n := 0) v w h]
  exact lookAt chosen fun _ => skip.bind fun _ => of_ready (by omega) (by omega) (fun _ h => h) pure

theorem scanIncrement : Sim (Ready R o (Ahead 1) 1 i) (scanIncrement start) (scanIncrement start)
    (fun _ => Ready R o (Ahead 0) 0 i) (Lost R o) :=
  ifShows (q := Solid 0) (r := Solid 1) Local.check (fun _ _ _ => trivial) (fun _ h _ => h) fail
    (lookAt Local.asDigit fun _ => skip.bind fun _ => of_ready (by omega) (by omega) (fun _ h => h) pure)

theorem scanBlockScalarHeader : Sim (Ready R o (Ahead 0) 1 i) (scanBlockScalarHeader start)
    (scanBlockScalarHeader start) (fun _ => Ready R o (Ahead 0) 0 i) (Lost R o) := by
  refine ifShows (q := Solid 1) (r := Solid 0) Local.isPlusMinus (fun _ _ h => (isPlusMinus_inline h).solid)
    (fun _ _ _ => trivial) ?_ ?_
  · refine scanChomping.bind fun chomping => cacheThen (by omega) (by omega) fun _ => ?_
    exact ifShows (q := Solid 1) (r := Solid 0) Local.isDigit (fun _ _ h => (isDigit_inline h).solid)
      (fun _ _ _ => trivial) (scanIncrement.bind fun _ => pure) (of_ready (by omega) (by omega) (fun _ h => h) pure)
  · refine ifShows (q := Solid 1) (r := Solid 0) Local.isDigit (fun _ _ h => (isDigit_inline h).solid)
      (fun _ _ _ => trivial) ?_ (of_ready (by omega) (by omega) (fun _ h => h) pure)
    refine scanIncrement.bind fun increment => cacheThen (by omega) (by omega) fun _ => ?_
    exact ifShows (q := Solid 1) (r := Solid 0) Local.isPlusMinus (fun _ _ h => (isPlusMinus_inline h).solid)
      (fun _ _ _ => trivial) (scanChomping.bind fun _ => pure) (of_ready (by omega) (by omega) (fun _ h => h) pure)

theorem isBreak_of_breakz {v : View} (hz : isZ v = false) (hb : (!isBreakz v) = false) :
    isBreak v = true := by
  have hb : (isBreak v || isZ v) = true := by
    rwa [Bool.not_eq_false'] at hb
  rwa [hz, Bool.or_false] at hb

theorem same {x : ScanM ι α} {y : ScanM κ α} {f : α → ScanM ι β} {g : α → ScanM κ β}
    {Q : β → Scanner ι → Scanner κ → Prop} {E : Fault → Scanner ι → Scanner κ → Prop} (h : Same x y)
    (hf : ∀ a, Sim (Ready R o P n i) (f a) (g a) Q E) : Sim (Ready R o P n i) (x >>= f) (y >>= g) Q E := by
  obtain ⟨a, rfl, rfl⟩ := h
  exact hf a

/-- The two conversions are the same where scanning makes them: of columns, and next to an
indentation of which `I` holds. -/
structure Narrows (R : Simulation ι κ) (narrow : Int → ScanM ι Int) (narrow' : Int → ScanM κ Int) (I : Int → Prop) :
    Prop where
  column : ∀ {m n i j}, R.Rel m n i j → Same (narrow m.column) (narrow' m.column)
  indent : ∀ {outer : Int}, I outer → Same (narrow (outer + 1)) (narrow' (outer + 1))
  increment : ∀ {outer : Int} {increment : Nat}, I outer → 0 ≤ outer → increment ≤ 9 →
    Same (narrow (outer + increment)) (narrow' (outer + increment))

theorem Narrows.narrowed : Narrows R narrowed narrowed fun _ => True :=
  ⟨fun _ => .pure, fun _ => .pure, fun _ _ _ => .pure⟩

section Widths

variable {narrow : Int → ScanM ι Int} {narrow' : Int → ScanM κ Int} {I : Int → Prop}
  {Q : β → Scanner ι → Scanner κ → Prop} {E : Fault → Scanner ι → Scanner κ → Prop}

/-- Where something is done with the columns. -/
theorem markOf {p : Mark → Prop} (hp : ∀ {m n i j}, R.Rel m n i j → p m) {f : Mark → ScanM ι β} {g : Mark → ScanM κ β}
    (hf : ∀ w, p w → Sim (Ready R o P n i) (f w) (g w) Q E) :
    Sim (Ready R o P n i) (Scanner.getMark >>= f) (Scanner.getMark >>= g) Q E := by
  intro s t hst
  have hm : t.mark = s.mark := by rw [hst.onto]; rfl
  have := hf s.mark (hp hst.rel) s t hst
  rwa [bind_apply, bind_apply, Scanner.getMark, Scanner.getMark, hm]

theorem indentOf (hI : I o.1.indent) {f : Int → ScanM ι β} {g : Int → ScanM κ β}
    (hf : ∀ outer, I outer → Sim (Ready R o P n i) (f outer) (g outer) Q E) :
    Sim (Ready R o P n i) (Scanner.getIndent >>= f) (Scanner.getIndent >>= g) Q E := by
  intro s t hst
  have hm : t.indent = s.indent := by rw [hst.onto]; rfl
  have hindent : s.indent = o.1.indent := congrArg (·.indent) hst.left.kept
  have := hf s.indent (hindent ▸ hI) s t hst
  rwa [bind_apply, bind_apply, Scanner.getIndent, Scanner.getIndent, hm]

/-- What is known of the indentation stays known. -/
theorem indented {x : ScanM ι β} {y : ScanM κ β} (hP : ∀ s, P s → I s.indent)
    (h : I o.1.indent → Sim (Ready R o P n i) x y Q E) : Sim (Ready R o P n i) x y Q E := by
  intro s t hst
  have hindent : s.indent = o.1.indent := congrArg (·.indent) hst.left.kept
  exact h (hindent ▸ hP s hst.ahead) s t hst

theorem skipIndentationWith (h : Narrows R narrow narrow' I) {indent : Int} :
    Sim (Ready R o (Ahead 0) 1 i) (skipIndentationWith narrow indent) (skipIndentationWith narrow' indent)
      (fun _ => Ready R o (Ahead 0) 1 i) (Lost R o) := by
  refine repeatedly (P := fun _ => Ahead 0) fun o _ j hj => markOf h.column fun w hw => same (leftOfWith_same hw) fun left => ?_
  refine ifShows (q := Solid 1) (r := Solid 0) (Local.and Local.const Local.isSpace)
    (fun v _ h => ?_) (fun _ _ _ => trivial) ?_ ?_
  · exact (check_inline (c := ' ') (Bool.and_eq_true_iff.mp h).2 (by decide)).solid
  · exact skip.bind fun _ => cacheThen (by omega) (by omega) fun _ => round fun _ _ h => h
  · exact round fun _ _ h => h.weaken (fun h => h) le_rfl hj

theorem scanBlockScalarBreaksWith (h : Narrows R narrow narrow' I) (hI : I o.1.indent) {indent : Int} {breaks : Bytes} :
    Sim (Ready R o P n i) (scanBlockScalarBreaksWith narrow indent breaks start)
      (scanBlockScalarBreaksWith narrow' indent breaks start) (fun _ => Ready R o (Ahead 0) 1 i)
      (Lost R o) := by
  refine Fallible.Sim.of (A := Ready R o (Ahead 0) 0 i) ?_
    fun _ _ h => h.weaken (fun _ => trivial) (Nat.zero_le _) le_rfl
  refine mark fun finish => Fallible.Sim.bind (Q := fun _ => Ready R o (Ahead 0) 1 i) ?_ fun a => ?_
  · refine repeatedly (P := fun _ => Ahead 0) fun o a j hj => ?_
    obtain ⟨maxIndent, breaks, finish⟩ := a
    refine cacheThen (by omega) (by omega) fun _ => (skipIndentationWith h).bind fun _ => markOf h.column fun w hw => ?_
    refine same hw fun column => same (leftOfWith_same hw) fun left => ?_
    refine ifShows (q := Solid 0) (r := Solid 0) (Local.and Local.const Local.isTab)
      (fun _ _ _ => trivial) (fun _ _ _ => trivial) fail ?_
    refine ifShows (q := Solid 0) (r := (isBreak · = true)) Local.isBreak.not (fun _ _ _ => trivial)
      (fun _ _ h => by simpa using h)
      (round fun _ _ h => h.weaken (fun h => h) le_rfl hj) ?_
    refine (cacheWith (A := Shows (isBreak · = true)) (by decide) fun _ _ h ha =>
      (Local.isBreak _ _ ha).symm.trans h).bind fun _ => ?_
    refine (readLine (e := j + 1) le_rfl fun v h h' => ?_).bind fun breaks =>
      mark fun finish => round fun _ _ h => h
    rw [h] at h'
    cases h'
  · obtain ⟨maxIndent, breaks, finish⟩ := a
    refine indentOf hI fun outer houter => same ?_ fun indent => pure
    split_ifs
    · exact (h.indent houter).map fun least => max (max maxIndent least) 1
    · exact .pure

theorem scanBlockScalarLinesWith (h : Narrows R narrow narrow' I) (hI : I o.1.indent) {literal : Bool} {b : BlockScalar} :
    Sim (Ready R o (Ahead 0) 1 i) (scanBlockScalarLinesWith narrow literal start b)
      (scanBlockScalarLinesWith narrow' literal start b) (fun _ => Ready R o (Ahead 0) 1 i) (Lost R o) := by
  refine repeatedlyFrom (P := fun _ => Ahead 0) ?_
  intro o' b j hk hj
  have hI' : I o'.1.indent := by
    have hindent : o'.1.indent = o.1.indent := congrArg (·.indent) hk
    rwa [hindent]
  refine markOf h.column fun w hw => same hw fun column => ?_
  refine ifShows (q := (isZ · = false)) (r := Solid 0) (Local.and Local.const Local.isZ.not)
    (fun v _ h => by simp at h; exact h.2) (fun _ _ _ => trivial) ?_
    (round fun _ _ h => h.weaken (fun h => h) le_rfl hj)
  refine lookAt Local.isBlank fun blank => ?_
  refine (readWhile Local.isBreakz.not fun _ => not_breakz_inline).bind fun string => ?_
  -- what is not the end and is not read is a line break
  refine Fallible.Sim.bind (Q := fun _ => Ready R o' (Moved j (Shows (isBreak · = true))) 2 j) ?_
    fun _ => ?_
  · refine cacheWith (by decide) fun s input h ha => h.imp_right fun h => ?_
    have hb := isBreak_of_breakz h.1 h.2
    exact (Local.isBreak _ _ ha).symm.trans hb
  · refine Fallible.Sim.bind (Q := fun _ => Ready R o' (Ahead 0) 0 (j + 1)) ?_ fun leadingBreak =>
      (scanBlockScalarBreaksWith h hI').bind fun a => ?_
    · refine moved (readLine (p := Solid 0) (by omega) fun _ _ _ => le_rfl) (readLine le_rfl ?_)
      intro v h h'
      rw [h] at h'
      cases h'
    · obtain ⟨indent, trailingBreaks, finish⟩ := a
      exact round fun _ _ h => h

theorem ifLookHolds {c : View → Bool} {x y : ScanM ι β} {A : Scanner ι → Prop} {Q : β → Scanner ι → Prop}
    {E : Fault → Scanner ι → Prop} (hx : Holds (Shows (c · = true)) x Q E) (hy : Holds (fun _ => True) y Q E) :
    Holds A (Scanner.look c >>= fun b => if b = true then x else y) Q E := by
  intro s _
  rw [bind_of_ok (show Scanner.look c s = .ok (c (Input.view s.input)) s from rfl)]
  cases hc : c (Input.view s.input) with
  | true => exact hx s hc
  | false => exact hy s trivial

/-- An indentation increment has one digit. -/
def OneDigit (increment : Int) : Prop := ∃ n : Nat, increment = n ∧ n ≤ 9

theorem scanIncrement_oneDigit : Holds (Shows (isDigit · = true)) (Scanner.scanIncrement start : ScanM ι Int)
    (fun increment _ => OneDigit increment) fun _ _ => True := by
  have hdigit : ∀ n < 256, octet '0' ≤ UInt8.ofNat n ∧ UInt8.ofNat n ≤ octet '9' →
      (UInt8.ofNat n - octet '0').toNat ≤ 9 := by decide +kernel
  intro s hs
  have hs : (octet '0' ≤ Input.view s.input 0 && Input.view s.input 0 ≤ octet '9') = true := hs
  rw [Bool.and_eq_true, decide_eq_true_iff, decide_eq_true_iff] at hs
  have := hdigit (Input.view s.input 0).toNat (Input.view s.input 0).toNat_lt
  rw [UInt8.ofNat_toNat] at this
  unfold Scanner.scanIncrement
  rw [bind_of_ok (show Scanner.look _ s = .ok (check (Input.view s.input) '0') s from rfl)]
  cases check (Input.view s.input) '0' with
  | true => trivial
  | false => exact ⟨_, rfl, this hs⟩

theorem scanBlockScalarHeader_oneDigit : Holds (fun _ => True) (Scanner.scanBlockScalarHeader start : ScanM ι _)
    (fun a _ => OneDigit a.2) fun _ _ => True := by
  have done {chomping : Chomping} {increment : Int} (h : OneDigit increment) :
      Holds (fun _ => True) (Pure.pure (chomping, increment) : ScanM ι (Chomping × Int))
        (fun a _ => OneDigit a.2) fun _ _ => True := Holds.pure fun _ _ => h
  have hzero : OneDigit 0 := ⟨0, rfl, by decide⟩
  refine ifLookHolds ((Holds.const trivial).bind fun chomping => (Holds.const trivial).bind fun _ => ?_) ?_
  · exact ifLookHolds (scanIncrement_oneDigit.bind fun increment _ h => h) (done hzero)
  · refine ifLookHolds (scanIncrement_oneDigit.bind fun increment s h => ?_) (done hzero)
    refine ((Holds.const trivial).bind fun _ => ?_ : Holds (fun _ => True) _ _ _) s trivial
    exact ifLookHolds ((Holds.const trivial).bind fun _ => done h) (done h)

theorem scanBlockScalarWith (h : Narrows R narrow narrow' I) {literal : Bool} :
    Sim (Ready R o (fun s => Shows (Solid 1) s ∧ I s.indent) 4 i) (scanBlockScalarWith narrow literal)
      (scanBlockScalarWith narrow' literal) (fun _ => Ready R o (Ahead 0) 1 (i + 1)) (Lost R o) := by
  refine indented (I := I) (fun s h => h.2) fun hI => Fallible.Sim.of (A := Ready R o (Ahead 1) 4 i) ?_
    fun _ _ h => h.weaken And.left le_rfl le_rfl
  refine mark fun start => skip.bind fun _ => cacheThen (by omega) (by omega) fun _ =>
    scanBlockScalarHeader.bindOf scanBlockScalarHeader_oneDigit fun a ha => ?_
  obtain ⟨chomping, increment⟩ := a
  obtain ⟨n, rfl, hn⟩ := ha
  refine scanLineEnd.bind fun _ => indentOf hI fun outer houter => same ?_ fun indent =>
    (scanBlockScalarBreaksWith h hI).bind fun a => ?_
  · split_ifs
    · exact .pure
    · exact h.increment houter ‹_› hn
    · exact .pure
  · obtain ⟨indent, trailingBreaks, finish⟩ := a
    exact cacheThen (by omega) (by omega) fun _ => (scanBlockScalarLinesWith h hI).bind fun b => pure

theorem scanBlockScalar {literal : Bool} : Sim (Ready R o (Ahead 1) 4 i) (scanBlockScalar literal)
    (scanBlockScalar literal) (fun _ => Ready R o (Ahead 0) 1 (i + 1)) (Lost R o) := by
  rw [← scanBlockScalarWith_narrowed, ← scanBlockScalarWith_narrowed]
  exact Fallible.Sim.of (scanBlockScalarWith .narrowed) fun _ _ h => h.weaken (fun h => ⟨h, trivial⟩) le_rfl le_rfl

end Widths

/-! ## The blanks in a flow scalar -/

/-- Where there is a blank or a break, it is passed. -/
theorem scanBlanksWith (violates : Folding → Mark → ScanM ι Bool) (violates' : Folding → Mark → ScanM κ Bool)
    {start : Mark} {f : Folding} (hv : ∀ f {m n i j}, R.Rel m n i j → Same (violates f m) (violates' f m)) :
    Sim (Ready R o (Moved i (Shows fun v => (isBlank v || isBreak v) = true)) 1 i)
      (scanBlanksWith violates start f) (scanBlanksWith violates' start f)
      (fun _ => Ready R o (Ahead 0) 1 (i + 1)) (Lost R o) := by
  refine repeatedly
    (P := fun _ => Moved i (Shows fun v => (isBlank v || isBreak v) = true)) fun o f j hj => ?_
  refine ifLook (A := Shows fun v => (isBlank v || isBreak v) = true)
    (B := fun s => i < s.mark.index) (Local.or Local.isBlank Local.isBreak) (fun _ _ h => h)
    (fun s h h' => ?_) ?_ (round fun s t h => ?_)
  · refine h.resolve_right fun h => ?_
    have : (isBlank (Input.view s.input) || isBreak (Input.view s.input)) = true := h
    rw [h'] at this
    cases this
  · refine Fallible.Sim.bind (Q := fun _ => Ready R o (Ahead 0) 0 (j + 1)) ?_ fun f =>
      cacheThen (by omega) (by omega) fun _ => round fun s t h => ?_
    · refine ifShows (q := Solid 1) (r := (isBreak · = true)) Local.isBlank
        (fun _ _ h => (isBlank_inline h).solid) (fun _ h h' => by rw [h'] at h; exact h) ?_ ?_
      · refine markOf (hv f) fun w hw => same hw fun left => ?_
        refine ifShows (q := Solid 0) (r := Solid 1) (Local.and Local.const Local.isTab) (fun _ _ _ => trivial)
          (fun _ h _ => h) fail ?_
        split_ifs
        · exact skip.bind fun _ => pure
        · exact read.bind fun _ => pure
      · refine (cacheWith (A := Shows (isBreak · = true)) (by decide) fun _ _ h ha =>
          (Local.isBreak _ _ ha).symm.trans h).bind fun _ => ?_
        have passed {string : Bytes} : Sim (Ready R o (Shows (isBreak · = true)) 2 j)
            (Scanner.readLine string) (Scanner.readLine string)
            (fun _ => Ready R o (Ahead 0) 0 (j + 1)) (Lost R o) :=
          readLine le_rfl fun v h h' => by rw [h] at h'; cases h'
        split_ifs
        · exact passed.bind fun _ => pure
        · exact passed.bind fun _ => pure
    · have := h.index
      exact h.weaken (fun _ => .inl (by omega)) le_rfl le_rfl
  · have hi := h.ahead
    exact ⟨h.onto, h.rel, trivial, hi, h.left, h.right⟩

/-- A quoted scalar refuses no blanks. -/
theorem scanBlanks {f : Folding} :
    Sim (Ready R o (Moved i (Shows fun v => (isBlank v || isBreak v) = true)) 1 i)
      (scanBlanks (fun _ _ _ => false) start f) (scanBlanks (fun _ _ _ => false) start f)
      (fun _ => Ready R o (Ahead 0) 1 (i + 1)) (Lost R o) :=
  @scanBlanksWith ι κ _ _ R o i (fun _ _ => Pure.pure false) (fun _ _ => Pure.pure false) start f
    fun _ _ _ _ _ _ => .pure

/-! ## Quoted scalars -/

theorem scanCodePoint {length : Nat} (hl : length ≤ 8) :
    Sim (Ready R o P n i) (scanCodePoint length start string) (scanCodePoint length start string)
      (fun _ => Ready R o (Ahead 0) 0 i) (Lost R o) := by
  refine Fallible.Sim.of (A := Ready R o (Ahead 0) 0 i) ?_
    fun _ _ h => h.weaken (fun _ => trivial) (Nat.zero_le _) le_rfl
  refine cacheThen hl (by omega) fun _ => ?_
  refine ifShows (q := Solid 0) (r := (areHex length · = true)) Local.areHex.not
    (fun _ _ _ => trivial) (fun _ _ h => by simpa using h) fail ?_
  refine look (fun s h w hw => ?_) fun value => ?_
  · exact asHex_congr fun j hj => hw.byte (areHex_solid h) (Nat.le_of_lt hj) hj
  · split_ifs
    · exact fail
    · refine Fallible.Sim.of (A := Ready R o (Ahead (0 + length)) (0 + length) i)
        (skips.bind fun _ => of_ready (by omega) (by omega) (fun _ h => h) pure) fun s t h => ?_
      refine h.weaken (fun h => ?_) (by omega) le_rfl
      rw [Nat.zero_add]
      exact areHex_solid h.1

theorem escape_width {b : UInt8} {w : Nat} (h : escape b = some (.inr w)) : w ≤ 8 := by
  have each : ∀ n < 256, ∀ w ∈ (escape (UInt8.ofNat n)).bind Sum.getRight?, w ≤ 8 := by
    decide +kernel
  have := each b.toNat b.toNat_lt w
  rw [UInt8.ofNat_toNat, h] at this
  exact this rfl

theorem scanEscape : Sim (Ready R o (Shows (check · '\\' = true)) 2 i) (scanEscape start string)
    (scanEscape start string) (fun _ => Ready R o (Ahead 0) 0 (i + 1)) (Lost R o) := by
  refine look (fun s h w hw => hw.byte (check_inline h (by decide)).solid le_rfl (by decide)) fun b => ?_
  -- no escape is a NUL or a break
  have hb : ∀ (v : View), check v '\\' = true ∧ v 1 = b → ∀ e, escape b = some e → Solid 2 v := by
    intro v hv e he
    have hbs : v 0 = octet '\\' := by simpa [check, checkAt] using hv.1
    refine .behind (by rw [hbs]; decide) (check_inline hv.1 (by decide)) (inline_of_octet ?_).solid
    change v 1 ∉ breakOctets
    rw [hv.2]
    have hnone : breakOctets.all (escape · |>.isNone) = true := by decide
    intro hb
    have := List.all_eq_true.mp hnone b hb
    rw [he] at this
    cases this
  cases he : escape b with
  | none => exact fail
  | some e =>
    refine Fallible.Sim.of (A := Ready R o (Ahead 2) 2 i) ?_ fun s t h =>
      h.weaken (fun h => hb _ h e he) le_rfl le_rfl
    cases e with
    | inl bytes => exact skip.bind fun _ => skip.bind fun _ => of_ready (by omega) (by omega) (fun _ h => h) pure
    | inr length =>
      exact skip.bind fun _ => skip.bind fun _ =>
        (scanCodePoint (escape_width he)).into fun _ _ _ h => h.weaken (fun h => h) le_rfl (by omega)

theorem isQuote_solid {single : Bool} {v : View} (h : isQuote single v = true) : Solid 1 v :=
  (check_inline h (by cases single <;> decide)).solid

/-- Behind the text: moved on, or in front of what ends it. -/
def TextEnd (R : Simulation ι κ) (o : Scanner ι × Scanner κ) (p : View → Prop) (i : Nat)
    (s : Scanner ι) (t : Scanner κ) : Prop :=
  Ready R o (Ahead 0) 0 (i + 1) s t ∨ Ready R o (Shows p) 1 i s t

theorem textEnd {c j : Nat} {p q : View → Prop} {r : Round α β} (hj : i + c ≤ j)
    (hp : ∀ v, (c = 0 → isZ v = false) ∧ p v → isZ v = false → q v)
    {Q : Round α β → Scanner ι → Scanner κ → Prop} (hQ : ∀ s t, TextEnd R o q i s t → Q r s t) :
    Sim (Ready R o (Shows fun v => (c = 0 → isZ v = false) ∧ p v) 2 j) (Pure.pure r) (Pure.pure r) Q
      (Lost R o) := by
  refine round fun s t h => hQ s t ?_
  by_cases hc : c = 0
  · exact .inr (h.weaken (fun hv => hp _ hv (hv.1 hc)) (by decide) (by omega))
  · exact .inl (h.weaken (fun _ => trivial) (by decide) (by omega))

theorem isEscapedBreak {single : Bool} : Local (n + 2) fun v =>
    !single && check v '\\' && isBreakAt v 1 := by
  intro v w hvw
  have := Local.behind (c := '\\') (d := isBreak) Local.isBreak (by decide) v w hvw
  have : (check v '\\' && isBreakAt v 1) = (check w '\\' && isBreakAt w 1) := this
  simp only [Bool.and_assoc, this]

theorem isDoubledQuote {single : Bool} : Local (n + 2) fun v =>
    single && checkAt v '\'' 0 && checkAt v '\'' 1 := by
  intro v w hvw
  have := Local.behind (c := '\'') (d := (check · '\'')) Local.check (by decide) v w hvw
  have : (checkAt v '\'' 0 && checkAt v '\'' 1) = (checkAt w '\'' 0 && checkAt w '\'' 1) := this
  simp only [Bool.and_assoc, this]

theorem isDoubledQuote_solid {single : Bool} {v : View}
    (h : (single && checkAt v '\'' 0 && checkAt v '\'' 1) = true) : Solid 2 v := by
  simp only [Bool.and_eq_true, checkAt, beq_iff_eq] at h
  refine solid_ascii fun j hj => ?_
  rcases j with _ | _ | j
  · rw [h.1.2]
    decide
  · rw [Nat.zero_add, h.2]
    decide
  · omega

/-- What a run of text can end with. -/
def StopsText (single : Bool) (v : View) : Prop :=
  isZ v = false ∧ (isBlankz v = true ∨ isQuote single v = true)

theorem scanFlowScalarText {single : Bool} :
    Sim (Ready R o (Shows (isZ · = false)) 2 i) (scanFlowScalarText single start string)
      (scanFlowScalarText single start string)
      (fun _ => TextEnd R o (StopsText single) i) (Lost R o) := by
  have first : ∀ s t, Ready R o (Shows (isZ · = false)) 2 i s t →
      Ready R o (Shows fun v => 0 = 0 → isZ v = false) 2 i s t := fun _ _ h =>
    h.weaken (fun h _ => h) le_rfl le_rfl
  refine Fallible.Sim.of (rounds (P := fun c _ => Shows fun v => c = 0 → isZ v = false)
    (d := fun _ => 2) (Q := fun o _ => TextEnd R o (StopsText single) i) (fun h ho ho' => ?_)
    fun o c string j hj => ?_) first
  · exact h.imp (·.trans ho ho') (·.trans ho ho')
  have again : ∀ {n : Nat} {string : Bytes}, Sim (Ready R o (Ahead 0) n (j + 1))
      (cache 2 >>= fun _ => Pure.pure (Round.again (β := Bytes × Bool) string))
      (cache 2 >>= fun _ => Pure.pure (Round.again (β := Bytes × Bool) string))
      (Round.elim (fun _ => Ready R o (Shows fun v => c + 1 = 0 → isZ v = false) 2 (j + 1))
        fun _ => TextEnd R o (StopsText single) i) (Lost R o) :=
    cacheThen (by omega) (by omega) fun _ => round fun _ _ h => h.weaken (fun _ h => absurd h (Nat.succ_ne_zero c))
      le_rfl le_rfl
  refine ifShows (q := fun v => (c = 0 → isZ v = false) ∧ isBlankz v = false)
    (r := fun v => (c = 0 → isZ v = false) ∧ isBlankz v = true) Local.isBlankz.not
    (fun _ h h' => ⟨h, by simpa using h'⟩) (fun _ h h' => ⟨h, by simpa using h'⟩) ?_ ?_
  · refine ifShows (q := Solid 2) isDoubledQuote (fun _ _ h => isDoubledQuote_solid h)
      (fun _ h _ => h) (skip.bind fun _ => skip.bind fun _ => ?_) ?_
    · exact again.of fun _ _ h => h.weaken (fun h => h) le_rfl (by omega)
    refine ifShows (q := fun v => (c = 0 → isZ v = false) ∧ isQuote single v = true) Local.isQuote
      (fun _ h h' => ⟨h.1, h'⟩) (fun _ h _ => h)
      (textEnd hj (fun _ h hz => ⟨hz, .inr h.2⟩) fun _ _ h => h) ?_
    refine ifShows (q := fun v => check v '\\' = true ∧ isBreakAt v 1 = true) isEscapedBreak
      (fun v _ h => by simp only [Bool.and_eq_true] at h; exact ⟨h.1.2, h.2⟩) (fun _ h _ => h) ?_ ?_
    · refine (cacheWith (A := Shows fun v => check v '\\' = true ∧ isBreakAt v 1 = true) (by decide)
        fun s input h ha => ?_).bind fun _ => ?_
      · have := @isEscapedBreak 0 false _ _ ha
        simp only [Bool.not_false, Bool.true_and, h.1, h.2, Bool.and_true] at this
        exact (Bool.and_eq_true _ _).mp this.symm
      · refine (skipTo (q := (isBreak · = true)) (fun _ h => check_inline h.1 (by decide))
          fun v h => ?_).bind fun _ => (skipLine fun _ h => h).bind fun _ => round fun s t h => ?_
        · have hv : v 0 = octet '\\' := by simpa [check, checkAt] using h.1
          rw [next_ascii (by rw [hv]; decide)]
          exact h.2
        · exact .inl (h.weaken (fun h => h) le_rfl (by omega))
    · refine Fallible.Sim.bind (Q := fun _ => Ready R o (Ahead 0) 0 (j + 1)) ?_ fun string => again
      refine ifShows (q := (check · '\\' = true)) (r := Solid 1)
        (Local.and Local.const Local.check) (fun _ _ h => by simp at h; exact h.2) (fun _ h _ => ?_)
        scanEscape (of_ready (by omega) (by omega) (fun _ h => h) read)
      exact (inline_blankz h.2).solid
  · exact textEnd hj (fun _ h hz => ⟨hz, .inl h.2⟩) fun _ _ h => h

theorem scanFlowScalar {single : Bool} : Sim (Ready R o (Ahead 1) 4 i) (scanFlowScalar single)
    (scanFlowScalar single) (fun _ => Ready R o (Ahead 0) 0 (i + 1)) (Lost R o) := by
  refine mark fun start => skip.bind fun _ =>
    Fallible.Sim.bind (Q := fun _ => Ready R o (Ahead 1) 1 (i + 1)) ?_ fun string =>
      skip.bind fun _ => mark fun finish => of_ready (by omega) (by omega) (fun _ h => h) pure
  refine Fallible.Sim.of (A := Ready R o (Ahead 0) 0 (i + 1)) ?_
    fun _ _ h => h.weaken (fun h => h) (Nat.zero_le _) le_rfl
  refine repeatedly (P := fun _ => Ahead 0) fun o f j hj => cacheThen (by omega) (by omega) fun _ => mark fun w => ?_
  refine ifShows (q := Solid 0) (r := Solid 0) (Local.and Local.const Local.isDocumentIndicator)
    (fun _ _ _ => trivial) (fun _ _ _ => trivial) fail ?_
  refine ifShows (q := Solid 0) (r := (isZ · = false)) Local.isZ (fun _ _ _ => trivial)
    (fun _ _ h => h) fail ?_
  refine (cacheWith (A := Shows (isZ · = false)) (by decide) fun _ _ h ha =>
    (Local.isZ (n := 3) _ _ ha).symm.trans h).bind fun _ => scanFlowScalarText.bind fun a => ?_
  obtain ⟨string, leadingBlanks⟩ := a
  refine Fallible.Sim.bind (Q := fun _ => Ready R o (Moved j (Shows (StopsText single))) 1 j) ?_
    fun _ => ?_
  · refine Fallible.Sim.either ?_ ?_
    · refine (cacheWith (A := Ahead 0) (by decide) fun _ _ h _ => h).into fun _ s t h => ?_
      have := h.index
      exact h.weaken (fun _ => .inl (by omega)) le_rfl (by omega)
    · refine cacheWith (by decide) fun s input h ha => .inr ?_
      have hz := Local.isZ (n := 0) _ _ ha
      have hb := Local.isBlankz (n := 0) _ _ ha
      have hq := @Local.isQuote 0 single _ _ ha
      refine ⟨hz.symm.trans h.1, h.2.imp hb.symm.trans hq.symm.trans⟩
  refine ifLook (A := Ahead 1) (B := Moved j (Shows fun v => (isBlank v || isBreak v) = true))
    Local.isQuote (fun _ _ h => isQuote_solid h) (fun s h h' => h.imp_right fun h => ?_) ?_ ?_
  · have hb : isBlankz (Input.view s.input) = true := h.2.resolve_right (by rw [h']; decide)
    have hz : isZ (Input.view s.input) = false := h.1
    have hb : (isBlank (Input.view s.input) || (isBreak (Input.view s.input)
      || isZ (Input.view s.input))) = true := hb
    rwa [hz, Bool.or_false] at hb
  · exact round fun _ _ h => h.weaken (fun h => h) le_rfl hj
  · refine (cacheWith (A := Moved j (Shows fun v => (isBlank v || isBreak v) = true)) (by decide)
      fun s input h ha => h.imp_right fun h => ?_).bind fun _ =>
        scanBlanks.bind fun f => ?_
    · exact round fun _ _ h => h.weaken (fun h => h) (Nat.zero_le _) le_rfl
    · exact ((Local.or Local.isBlank Local.isBreak) _ _ ha).symm.trans h

/-! ## Plain scalars -/

/-- What a plain scalar's text starts with. -/
def StartsText (s : Scanner ι) : Prop :=
  Shows (fun v => isBlankz v = false ∧ isStrayColon (decide (s.flowLevel ≠ 0)) v = false
    ∧ endsPlainText (decide (s.flowLevel ≠ 0)) v = false) s

theorem scanPlainScalarText {f : Folding} {finish : Mark} {e : Nat} (he : e ≤ i + 1)
    (hp : ∀ s, P s → e ≤ i ∨ StartsText s) :
    Sim (Ready R o P 2 i) (scanPlainScalarText start f finish)
      (scanPlainScalarText start f finish) (fun _ => Ready R o (Ahead 0) 2 e) (Lost R o) := by
  refine Fallible.Sim.of (rounds (P := fun c _ s => c = 0 → P s) (d := fun _ => 2)
    (Q := fun o _ => Ready R o (Ahead 0) 2 e) (fun h => h.trans) ?_)
    fun _ _ h => h.weaken (fun h _ => h) le_rfl le_rfl
  rintro o c ⟨f, finish⟩ j hj
  -- the first round reads a character
  have stop : ∀ s, (c = 0 → P s) → e ≤ j ∨ StartsText s := fun s h => by
    by_cases hc : c = 0
    · exact (hp s (h hc)).imp_left fun _ => by omega
    · exact .inl (by omega)
  refine inFlow fun b => ?_
  refine ifLook (A := fun s => (e ≤ j ∨ StartsText s) ∧ decide (s.flowLevel ≠ 0) = b
      ∧ Shows (isBlankz · = false) s) (B := fun _ => e ≤ j)
    Local.isBlankz.not (fun s h h' => ⟨stop s h.1, h.2, of_not h'⟩) (fun s h h' => ?_) ?_
    (round fun s t h => h.weaken (fun _ => trivial) le_rfl h.ahead)
  · refine (stop s h.1).resolve_right fun hs => ?_
    have := hs.1
    rw [of_not_false h'] at this
    cases this
  refine ifLook (A := Ahead 0) Local.isStrayColon (fun _ _ _ => trivial) (fun _ h _ => h) fail ?_
  refine ifLook (A := fun _ => e ≤ j) (B := Ahead 1) Local.endsPlainText (fun s h h' => ?_)
    (fun s h _ => ?_) (round fun s t h => h.weaken (fun _ => trivial) le_rfl h.ahead) ?_
  · refine h.1.resolve_right fun hs => ?_
    have := hs.2.2
    rw [h.2.1, h'] at this
    cases this
  · have hb : isBlankz (Input.view s.input) = false := h.2.2
    exact (inline_blankz hb).solid
  refine read.bind fun string => mark fun finish => cacheThen (by omega) (by omega) fun _ => round fun _ _ h => ?_
  exact h.weaken (fun _ h => absurd h (Nat.succ_ne_zero c)) le_rfl le_rfl

/-- Scanning a scalar may change whether a simple key is allowed. -/
theorem allow {b : Bool} : Sim (Ready R o (Ahead k) n i)
    (modify fun s => { s with simpleKeyAllowed := b })
    (modify fun s => { s with simpleKeyAllowed := b }) (fun _ => Ready R o (Ahead k) n i)
    (Lost R o) := by
  intro s t h
  refine ⟨rfl, ?_, h.rel, h.ahead, h.index, ⟨h.left.kept, h.left.index, h.left.size, h.left.place⟩,
    ⟨h.right.kept, h.right.index, h.right.size, h.right.place⟩⟩
  rw [h.onto]
  rfl

theorem tabs {f : Bool → ScanM ι β} {g : Bool → ScanM κ β} {Q : β → Scanner ι → Scanner κ → Prop}
    (h : ∀ b, Sim (Ready R o P n i) (f b) (g b) Q (Lost R o)) :
    Sim (Ready R o P n i) (tabsSeparate >>= f) (tabsSeparate >>= g) Q (Lost R o) := by
  intro s t hst
  have hf : t.flowLevel = s.flowLevel := by rw [hst.onto]; rfl
  have ha : t.simpleKeyAllowed = s.simpleKeyAllowed := by rw [hst.onto]; rfl
  have := h (s.flowLevel ≠ 0 || !s.simpleKeyAllowed) s t hst
  rwa [bind_apply, bind_apply, tabsSeparate, tabsSeparate, hf, ha]

/-- What a plain scalar starts with. -/
structure StartsPlain (s : Scanner ι) : Prop where
  text : StartsText s
  comment : Shows (check · '#' = false) s
  indicator : s.mark.column = 0 → Shows (isDocumentIndicator · = false) s

theorem StartsPlain.agree {s : Scanner ι} {input : ι} (h : StartsPlain s)
    (ha : Agree 4 (Input.view s.input) (Input.view input)) :
    StartsPlain { s with input := input } := by
  refine ⟨⟨?_, ?_, ?_⟩, ?_, fun h0 => ?_⟩
  · exact (Local.isBlankz (n := 3) _ _ ha).symm.trans h.text.1
  · exact (Local.isStrayColon (n := 2) _ _ ha).symm.trans h.text.2.1
  · exact (Local.endsPlainText (n := 2) _ _ ha).symm.trans h.text.2.2
  · exact (Local.check (n := 3) _ _ ha).symm.trans h.comment
  · exact (Local.isDocumentIndicator _ _ ha).symm.trans (h.indicator h0)

theorem scanPlainScalarWith {narrow : Int → ScanM ι Int} {narrow' : Int → ScanM κ Int} {I : Int → Prop}
    (h : Narrows R narrow narrow' I) : Sim (Ready R o (fun s => StartsPlain s ∧ I s.indent) 4 i)
      (scanPlainScalarWith narrow) (scanPlainScalarWith narrow') (fun _ => Ready R o (Ahead 0) 1 (i + 1))
      (Lost R o) := by
  refine indented (I := I) (fun s h => h.2) fun hI => Fallible.Sim.of (A := Ready R o StartsPlain 4 i) ?_
    fun _ _ h => h.weaken And.left le_rfl le_rfl
  refine mark fun start => indentOf hI fun outer houter => same (h.indent houter) fun indent =>
    Fallible.Sim.bind (Q := fun _ => Ready R o (Ahead 0) 1 (i + 1)) ?_ ?_
  · refine Fallible.Sim.of (rounds (P := fun c _ s => c = 0 → StartsPlain s)
      (d := fun c => if c = 0 then 4 else 1) (Q := fun o _ => Ready R o (Ahead 0) 1 (i + 1))
      (fun h => h.trans) ?_) fun _ _ h => h.weaken (fun h _ => h) le_rfl le_rfl
    rintro o c ⟨f, finish⟩ j hj
    refine Fallible.Sim.bind (Q := fun _ => Ready R o (fun s => c = 0 → StartsPlain s) 4 j)
      (cacheWith (by decide) fun s input h ha hc => ?_) fun _ => getMark fun w => ?_
    · subst hc
      exact (h rfl).agree ha
    -- the first round finds no end
    refine ifLook (A := fun _ => i + 1 ≤ j) (B := fun s => i + 1 ≤ j ∨ StartsText s)
      (Local.or (Local.and Local.const Local.isDocumentIndicator) Local.check) (fun s h h' => ?_)
      (fun s h _ => ?_) (round fun s t h => h.weaken (fun _ => trivial) (by decide) h.ahead) ?_
    · by_cases hc : c = 0
      · have hs := h.1 hc
        have hcomment : check (Input.view s.input) '#' = false := hs.comment
        rw [hcomment, Bool.or_false, Bool.and_eq_true, decide_eq_true_iff] at h'
        have := hs.indicator (h.2 ▸ h'.1)
        have : isDocumentIndicator (Input.view s.input) = false := this
        rw [h'.2] at this
        cases this
      · omega
    · by_cases hc : c = 0
      · exact .inr (h.1 hc).text
      · exact .inl (by omega)
    have text : Sim (Ready R o (fun s => i + 1 ≤ j ∨ StartsText s) 4 j)
        (Scanner.scanPlainScalarText start f finish) (Scanner.scanPlainScalarText start f finish)
        (fun _ => Ready R o (Ahead 0) 2 (max (i + 1) j)) (Lost R o) :=
      of_ready (by omega) (by omega) (fun _ h => h) (scanPlainScalarText (i := j)
        (e := max (i + 1) j) (by omega) fun s (h : i + 1 ≤ j ∨ StartsText s) => h.imp_left fun h => by
          omega)
    refine text.bind ?_
    rintro ⟨f, finish⟩
    refine ifShows (q := fun v => (isBlank v || isBreak v) = true) (r := Solid 0)
      (Local.or Local.isBlank Local.isBreak) (fun _ _ h => h) (fun _ _ _ => trivial) ?_
      (round fun s t h => h.weaken (fun h => h) (by decide) (by omega))
    refine (cacheWith (A := Moved (max (i + 1) j) (Shows fun v => (isBlank v || isBreak v) = true))
      (by decide) fun s input h ha => .inr ?_).bind fun _ => (scanBlanksWith _ _ ?_).bind
        fun f => flow fun b => markOf h.column fun w hw => same (endsPlainScalarWith_same hw) fun ends => ?_
    · exact ((Local.or Local.isBlank Local.isBreak) _ _ ha).symm.trans h
    · exact fun f {m n i j} hrel => tabViolatesWith_same (h.column hrel)
    cases ends with
    | true => exact round fun s t h => h.weaken (fun h => h) le_rfl (by omega)
    | false => exact round fun s t h => h.weaken (fun _ h => absurd h (by simp)) le_rfl (by omega)
  · rintro ⟨f, finish⟩
    exact (onlyIf (by omega) (by omega) (fun _ => allow) fun _ _ h => h).bind fun _ => pure

theorem scanPlainScalar : Sim (Ready R o StartsPlain 4 i) scanPlainScalar scanPlainScalar
    (fun _ => Ready R o (Ahead 0) 1 (i + 1)) (Lost R o) := by
  rw [← scanPlainScalarWith_narrowed, ← scanPlainScalarWith_narrowed]
  exact Fallible.Sim.of (scanPlainScalarWith .narrowed) fun _ _ h => h.weaken (fun h => ⟨h, trivial⟩) le_rfl le_rfl

/-! ## To the next token -/

theorem isBom_inline {v : View} (h : isBom v = true) : Inline v := by
  have h0 : v 0 = 0xEF := by
    simp only [isBom, Bool.and_eq_true, beq_iff_eq] at h
    exact h.1.1
  exact inline_of_octet (by rw [h0]; decide)

theorem skipToText : Sim (Ready R o P n i) skipToText skipToText (fun _ => Ready R o (Ahead 0) 1 i)
    (Lost R o) := by
  refine Fallible.Sim.of (A := Ready R o (Ahead 0) 0 i) ?_
    fun _ _ h => h.weaken (fun _ => trivial) (Nat.zero_le _) le_rfl
  refine cacheThen (by omega) (by omega) fun _ => mark fun w => look (fun _ _ _ h =>
    (Local.and Local.const Local.isBom) _ _ h) fun b => ?_
  refine Fallible.Sim.bind (Q := fun _ => Ready R o (Ahead 0) 0 i) ?_ fun _ => ?_
  · refine onlyIf (by omega) (by omega) (fun hb => ?_) fun _ _ _ => trivial
    refine (skip (k := 0) (n := 0)).weaken (fun s t h => h.weaken (fun h => ?_) le_rfl le_rfl)
      (fun _ _ _ h => h.weaken (fun h => h) le_rfl (by omega)) fun _ _ _ h => h
    have hb := h.2.trans hb
    rw [Bool.and_eq_true] at hb
    exact (isBom_inline hb.2).solid
  refine cacheThen (by omega) (by omega) fun _ => tabs fun b => ?_
  refine (skipWhile (Local.or Local.check (Local.and Local.const Local.check)) ?_).bind fun _ => ?_
  · intro v h
    exact inline_first (c := fun v => check v ' ' || (b && check v '\t')) (fun _ => rfl)
      (by cases b <;> decide) h
  · refine lookAt Local.check fun b => ?_
    exact onlyIf (by omega) (by omega) (fun _ => skipWhile Local.isBreakz.not fun _ => not_breakz_inline) fun _ _ h => h

theorem scanToNextToken : Sim (Ready R o P n i) scanToNextToken scanToNextToken
    (fun _ => Ready R o (Ahead 0) 1 i) (Lost R o) := by
  refine Fallible.Sim.of (A := Ready R o (Ahead 0) 0 i) ?_
    fun _ _ h => h.weaken (fun _ => trivial) (Nat.zero_le _) le_rfl
  refine repeatedly (P := fun _ => Ahead 0) fun o _ j hj => skipToText.bind fun _ => ?_
  refine ifShows (q := (isBreak · = true)) (r := Solid 0) Local.isBreak (fun _ _ h => h)
    (fun _ _ _ => trivial) ?_ (round fun _ _ h => h.weaken (fun h => h) le_rfl hj)
  refine (cacheWith (A := Shows (isBreak · = true)) (by decide) fun _ _ h ha =>
    (Local.isBreak _ _ ha).symm.trans h).bind fun _ => (skipLine fun _ h => h).bind fun _ =>
      flow fun b => (onlyIf (by omega) (by omega) (fun _ => allow) fun _ _ h => h).bind fun _ => round fun _ _ h => h

end Sim

end Scanner

end LibYaml
