import LibYaml.Scanner.Machine
import LibYaml.Scanner.Simulation

/-!
# What scanning a token changes

Whatever the input is, scanning a token changes the mark and the input and nothing that belongs to
the tokens already found, and the mark does not go back.  So a token lies between the marks from
which and to which it was scanned.
-/

namespace LibYaml

open Fallible

namespace Mark

/-- `w` does not lie in front of `m`. -/
structure Before (m w : Mark) : Prop where
  index : m.index ≤ w.index
  line : m.line ≤ w.line

theorem Before.refl (m : Mark) : m.Before m := ⟨le_rfl, le_rfl⟩

theorem Before.trans {m w v : Mark} (h : m.Before w) (h' : w.Before v) : m.Before v :=
  ⟨h.index.trans h'.index, h.line.trans h'.line⟩

end Mark

namespace Scanner

variable {ι α β : Type}

/-- The scanner has come from `o` over `m` and scanned a token, or a part of one. -/
structure Came (o : Scanner ι) (m : Mark) (s : Scanner ι) : Prop where
  kept : s.kept = o.kept
  past : o.mark.Before m
  up : m.Before s.mark

/-- The scanner has failed at a token. -/
structure Stopped (o : Scanner ι) (e : Fault) (s : Scanner ι) : Prop where
  fault : e = .outOfFuel ∨ ∃ problem, e = .reported problem
  kept : s.kept = o.kept

theorem Came.start (o : Scanner ι) : Came o o.mark o := ⟨rfl, .refl _, .refl _⟩

theorem Came.further {o s : Scanner ι} {m w : Mark} (h : Came o m s) (hm : m.Before w) (hs : w.Before s.mark) :
    Came o w s :=
  ⟨h.kept, h.past.trans hm, hs⟩

/-- From wherever the scanner has come, it goes on. -/
def Walks (x : ScanM ι α) : Prop := ∀ o m, Holds (Came o m) x (fun _ => Came o m) (Stopped o)

namespace Walks

variable {x : ScanM ι α} {f : α → ScanM ι β}

theorem pure {a : α} : Walks (pure a : ScanM ι α) := fun _ _ => Holds.pure fun _ h => h

theorem bind (hx : Walks x) (hf : ∀ a, Walks (f a)) : Walks (x >>= f) :=
  fun o m => (hx o m).bind fun a => hf a o m

theorem map {g : α → β} (hx : Walks x) : Walks (g <$> x) := bind hx fun _ => pure

theorem ite {c : Prop} [Decidable c] {y : ScanM ι α} (hx : Walks x) (hy : Walks y) :
    Walks (if c then x else y) :=
  fun o m => Holds.ite (fun _ => hx o m) fun _ => hy o m

theorem onlyIf {c : Bool} {x : ScanM ι PUnit} (hx : Walks x) : Walks (onlyIf c x) :=
  ite hx pure

theorem fail {context : Option String} {mark : Mark} {problem : String} :
    Walks (scannerError context mark problem : ScanM ι α) :=
  fun _ _ _ h => ⟨.inr ⟨_, rfl⟩, h.kept⟩

theorem getMark : Walks (getMark : ScanM ι Mark) := fun _ _ _ h => h

theorem getIndent : Walks (getIndent : ScanM ι Int) := fun _ _ _ h => h

theorem inFlow : Walks (inFlow : ScanM ι Bool) := fun _ _ _ h => h

theorem tabsSeparate : Walks (tabsSeparate : ScanM ι Bool) := fun _ _ _ h => h

theorem allow {b : Bool} : Walks (modify fun s : Scanner ι => { s with simpleKeyAllowed := b }) :=
  fun _ _ _ h => ⟨h.kept, h.past, h.up⟩

theorem loop {e : Fault} (he : e = .outOfFuel) {body : α → ScanM ι (Round α β)} (h : ∀ a, Walks (body a))
    (n : Nat) (a : α) : Walks (Fallible.loop e body n a) := by
  refine fun o m => Holds.loop (P := fun _ => Came o m) (fun _ _ hs => ⟨.inl he, hs.kept⟩) (fun a => ?_) n a
  refine (h a o m).weaken (fun _ h => h) (fun r s h => ?_) fun _ _ h => h
  cases r with
  | again a => exact h
  | leave b => exact h

section Input

variable [Input ι] {body : α → ScanM ι (Round α β)} {string : Bytes} {c : View → Bool}

theorem cache {n : Nat} : Walks (cache n : ScanM ι Unit) := by
  intro o m s h
  unfold Scanner.cache
  cases Input.cache n s.input with
  | ok _ input => exact ⟨h.kept, h.past, h.up⟩
  | error problem input => exact ⟨.inr ⟨_, rfl⟩, h.kept⟩

theorem look {f : View → α} : Walks (look f : ScanM ι α) := fun _ _ _ h => h

omit [Input ι] in
theorem advance {s : Scanner ι} {o : Scanner ι} {m w : Mark} {input : ι} (h : Came o m s) (hw : s.mark.Before w) :
    Came o m { s with mark := w, input := input } :=
  ⟨h.kept, h.past, h.up.trans hw⟩

theorem passBreak {n : Nat} : Walks (modify (passBreak n) : ScanM ι Unit) :=
  fun _ _ _ h => advance h ⟨Nat.le_succ _, Nat.le_succ _⟩

theorem passCrlf : Walks (modify passCrlf : ScanM ι Unit) :=
  fun _ _ _ h => advance h ⟨Nat.le_add_right _ 2, Nat.le_succ _⟩

theorem passOver {n : Nat} : Walks (modify (passOver n) : ScanM ι Unit) :=
  fun _ _ _ h => advance h ⟨Nat.le_succ _, le_rfl⟩

theorem skip : Walks (skip : ScanM ι Unit) := bind look fun _ => passOver

theorem skips : ∀ n, Walks (skips n : ScanM ι Unit)
  | 0 => pure
  | n + 1 => bind skip fun _ => skips n

theorem skipLine : Walks (skipLine : ScanM ι Unit) :=
  bind look fun _ => ite passCrlf (bind look fun _ => ite (bind look fun _ => passBreak) pure)

theorem read : Walks (read string : ScanM ι Bytes) := bind look fun _ => bind skip fun _ => pure

theorem readLine : Walks (readLine string : ScanM ι Bytes) := by
  refine bind look fun _ => ite (bind passCrlf fun _ => pure) ?_
  refine bind look fun _ => ite (bind passBreak fun _ => pure) ?_
  refine bind look fun _ => ite (bind passBreak fun _ => pure) ?_
  exact bind look fun _ => ite (bind look fun _ => bind passBreak fun _ => pure) pure

theorem repeatedly (h : ∀ a, Walks (body a)) {a : α} : Walks (repeatedly body a) :=
  bind (fun _ _ _ h => h) fun _ => loop rfl h _ a

theorem skipWhile : Walks (skipWhile c : ScanM ι Unit) :=
  repeatedly fun _ => bind look fun _ => ite (bind skip fun _ => bind cache fun _ => pure) pure

theorem readWhile : Walks (readWhile c string : ScanM ι Bytes) :=
  repeatedly fun _ => bind look fun _ => ite (bind read fun _ => bind cache fun _ => pure) pure

theorem scanLineEnd {context : String} {start : Mark} : Walks (scanLineEnd context start : ScanM ι Unit) := by
  refine bind cache fun _ => bind skipWhile fun _ => bind look fun _ => bind (onlyIf skipWhile) fun _ => ?_
  exact bind look fun _ => ite fail (bind look fun _ => ite (bind cache fun _ => skipLine) pure)

/-! ## Tags, anchors and directives -/

variable {start : Mark} {directive uriChar : Bool}

theorem scanUriEscapes : Walks (scanUriEscapes directive start string : ScanM ι Bytes) := by
  refine repeatedly ?_
  rintro ⟨width, string⟩
  have hwidth (octet : UInt8) : Walks (escapedWidth directive start octet width : ScanM ι Nat) := by
    unfold escapedWidth
    exact ite (ite fail pure) (ite pure fail)
  refine bind cache fun _ => bind look fun _ => ite fail ?_
  refine bind look fun octet => bind (hwidth octet) fun _ => ?_
  exact bind skip fun _ => bind skip fun _ => bind skip fun _ => ite pure pure

theorem scanTagUri {head : Option Bytes} : Walks (scanTagUri uriChar directive head start : ScanM ι Bytes) := by
  refine bind cache fun _ => bind (repeatedly ?_) ?_
  · rintro ⟨length, string⟩
    refine bind look fun _ => ite ?_ pure
    exact bind (bind look fun _ => ite scanUriEscapes read) fun _ => bind cache fun _ => pure
  · rintro ⟨length, string⟩
    exact ite fail pure

theorem scanTagHandle : Walks (scanTagHandle directive start : ScanM ι Bytes) := by
  refine bind cache fun _ => bind look fun _ => ite fail ?_
  refine bind read fun _ => bind cache fun _ => bind readWhile fun _ => ?_
  exact bind look fun _ => ite read (ite fail pure)

theorem scanTagParts : Walks (scanTagParts start : ScanM ι (Bytes × Bytes)) := by
  refine bind look fun _ => ite ?_ ?_
  · refine bind skip fun _ => bind skip fun _ => bind scanTagUri fun _ => ?_
    exact bind look fun _ => ite fail (bind skip fun _ => pure)
  · refine bind scanTagHandle fun _ => ite (bind scanTagUri fun _ => pure) ?_
    exact bind scanTagUri fun _ => ite pure pure

theorem scanDirectiveName : Walks (scanDirectiveName start : ScanM ι Bytes) := by
  refine bind cache fun _ => bind readWhile fun _ => ite fail ?_
  exact bind look fun _ => ite fail pure

theorem scanVersionDirectiveNumber : Walks (scanVersionDirectiveNumber start : ScanM ι Int) := by
  refine bind cache fun _ => bind (repeatedly ?_) ?_
  · rintro ⟨length, value⟩
    refine bind look fun _ => ite (ite fail ?_) pure
    exact bind look fun _ => bind skip fun _ => bind cache fun _ => pure
  · rintro ⟨length, value⟩
    exact ite fail pure

theorem scanVersionDirectiveValue : Walks (scanVersionDirectiveValue start : ScanM ι (Int × Int)) := by
  refine bind cache fun _ => bind skipWhile fun _ => bind scanVersionDirectiveNumber fun _ => ?_
  refine bind look fun _ => ite fail ?_
  exact bind skip fun _ => bind scanVersionDirectiveNumber fun _ => pure

theorem scanTagDirectiveValue : Walks (scanTagDirectiveValue start : ScanM ι (Bytes × Bytes)) := by
  refine bind cache fun _ => bind skipWhile fun _ => bind scanTagHandle fun _ => ?_
  refine bind cache fun _ => bind look fun _ => ite fail ?_
  refine bind skipWhile fun _ => bind scanTagUri fun _ => bind cache fun _ => ?_
  exact bind look fun _ => ite fail pure

theorem scanDirectiveValue {name : Bytes} : Walks (scanDirectiveValue name start : ScanM ι TokenData) := by
  refine ite (bind scanVersionDirectiveValue ?_) (ite (bind scanTagDirectiveValue ?_) fail)
  · rintro ⟨major, minor⟩
    exact pure
  · rintro ⟨handle, suffix⟩
    exact pure

/-! ## Scalars -/

theorem scanChomping : Walks (scanChomping : ScanM ι Chomping) :=
  bind look fun _ => bind skip fun _ => pure

theorem scanIncrement : Walks (scanIncrement start : ScanM ι Int) :=
  bind look fun _ => ite fail (bind look fun _ => bind skip fun _ => pure)

theorem scanBlockScalarHeader : Walks (scanBlockScalarHeader start : ScanM ι (Chomping × Int)) := by
  refine bind look fun _ => ite ?_ ?_
  · refine bind scanChomping fun _ => bind cache fun _ => ?_
    exact bind look fun _ => ite (bind scanIncrement fun _ => pure) pure
  · refine bind look fun _ => ite ?_ pure
    refine bind scanIncrement fun _ => bind cache fun _ => ?_
    exact bind look fun _ => ite (bind scanChomping fun _ => pure) pure

theorem skipIndentation {indent : Int} : Walks (skipIndentation indent : ScanM ι Unit) := by
  refine repeatedly fun _ => bind getMark fun _ => bind look fun _ => ite ?_ pure
  exact bind skip fun _ => bind cache fun _ => pure

theorem scanCodePoint {length : Nat} : Walks (scanCodePoint length start string : ScanM ι Bytes) := by
  refine bind cache fun _ => bind look fun _ => ite fail ?_
  exact bind look fun _ => ite fail (bind (skips length) fun _ => pure)

theorem scanEscape : Walks (scanEscape start string : ScanM ι Bytes) := by
  refine bind look fun b => ?_
  cases escape b with
  | none => exact fail
  | some e =>
    cases e with
    | inl bytes => exact bind skip fun _ => bind skip fun _ => pure
    | inr length => exact bind skip fun _ => bind skip fun _ => scanCodePoint

theorem scanFlowScalarText {single : Bool} :
    Walks (scanFlowScalarText single start string : ScanM ι (Bytes × Bool)) := by
  refine repeatedly fun _ => bind look fun _ => ite ?_ pure
  refine bind look fun _ => ite (bind skip fun _ => bind skip fun _ => bind cache fun _ => pure) ?_
  refine bind look fun _ => ite pure (bind look fun _ => ite ?_ ?_)
  · exact bind cache fun _ => bind skip fun _ => bind skipLine fun _ => pure
  · exact bind (bind look fun _ => ite scanEscape read) fun _ => bind cache fun _ => pure

theorem scanBlanks {violates : Folding → Mark → View → Bool} {f : Folding} :
    Walks (scanBlanks violates start f : ScanM ι Folding) := by
  refine repeatedly fun _ => bind look fun _ => ite (bind (bind look fun _ => ite ?_ ?_) fun _ => ?_) pure
  · refine bind getMark fun _ => bind look fun _ => ite fail (ite ?_ ?_)
    · exact bind skip fun _ => pure
    · exact bind read fun _ => pure
  · exact bind cache fun _ => ite (bind readLine fun _ => pure) (bind readLine fun _ => pure)
  · exact bind cache fun _ => pure

/-! ## To the next token -/

theorem skipToText : Walks (skipToText : ScanM ι Unit) := by
  refine bind cache fun _ => bind getMark fun _ => bind look fun _ => bind (onlyIf skip) fun _ => ?_
  refine bind cache fun _ => bind tabsSeparate fun _ => bind skipWhile fun _ => ?_
  exact bind look fun _ => onlyIf skipWhile

theorem scanToNextToken : Walks (scanToNextToken : ScanM ι Unit) := by
  refine repeatedly fun _ => bind skipToText fun _ => bind look fun _ => ite ?_ pure
  exact bind cache fun _ => bind skipLine fun _ => bind inFlow fun _ => bind (onlyIf allow) fun _ => pure

end Input

end Walks

/-! ## Tokens -/

/-- The types of the tokens that are scanned, in contrast to those that are found in passing. -/
def isScanned : TokenType → Bool
  | .versionDirective | .tagDirective | .alias | .anchor | .tag | .scalar => true
  | _ => false

/-- The scanner has scanned a token from `o` on. -/
structure Scanned (o : Scanner ι) (token : Token) (s : Scanner ι) : Prop where
  came : Came o token.endMark s
  start : token.startMark = o.mark
  type : isScanned token.type = true

section Tokens

variable {o : Scanner ι} {m : Mark} {E : Fault → Scanner ι → Prop} {Q : β → Scanner ι → Prop}

theorem Walks.andThen {x : ScanM ι α} {f : α → ScanM ι β} (hx : Walks x)
    (hf : ∀ a, Holds (Came o m) (f a) Q (Stopped o)) : Holds (Came o m) (x >>= f) Q (Stopped o) :=
  (hx o m).bind hf

theorem failed {context : Option String} {mark : Mark} {problem : String} :
    Holds (Came o m) (scannerError context mark problem) Q (Stopped o) :=
  fun _ h => ⟨.inr ⟨_, rfl⟩, h.kept⟩

theorem getMark_came {f : Mark → ScanM ι β} (h : ∀ w, Holds (Came o w) (f w) Q E) :
    Holds (Came o m) (getMark >>= f) Q E :=
  fun s hs => h s.mark s (hs.further hs.up (.refl _))

theorem getMark_start {f : Mark → ScanM ι β} (h : Holds (Came o o.mark) (f o.mark) Q E) :
    Holds (· = o) (getMark >>= f) Q E := by
  rintro _ rfl
  exact h _ (.start _)

theorem scanned {data : TokenData} (ht : isScanned data.type = true) :
    Holds (Came o m) (pure ⟨data, o.mark, m⟩) (Scanned o) (Stopped o) :=
  Holds.pure fun _ h => ⟨h, rfl, ht⟩

variable [Input ι]

theorem repeatedly_came {body : α → ScanM ι (Round α β)} {P : α → Scanner ι → Prop} (hP : ∀ a s, P a s → s.kept = o.kept)
    (h : ∀ a, Holds (P a) (body a) (Round.elim P Q) (Stopped o)) (a : α) :
    Holds (P a) (repeatedly body a) Q (Stopped o) :=
  fun s hs => Holds.loop (fun a s h => ⟨.inl rfl, hP a s h⟩) h _ a s hs

theorem scanTag_scanned : Holds (· = o) scanTag (Scanned o) (Stopped o) := by
  refine getMark_start (Walks.cache.andThen fun _ => Walks.scanTagParts.andThen ?_)
  rintro ⟨handle, suffix⟩
  refine Walks.cache.andThen fun _ => Walks.inFlow.andThen fun _ => Walks.look.andThen fun _ => ?_
  refine Holds.ite (fun _ => failed) fun _ => getMark_came fun w => scanned rfl

theorem scanAnchor_scanned {type : TokenType} : Holds (· = o) (scanAnchor type) (Scanned o) (Stopped o) := by
  refine getMark_start (Walks.skip.andThen fun _ => Walks.cache.andThen fun _ => Walks.readWhile.andThen fun string => ?_)
  refine getMark_came fun w => Walks.look.andThen fun _ => Holds.ite (fun _ => failed) fun _ => scanned ?_
  split <;> rfl

theorem scanDirectiveValue_type {name : Bytes} {start : Mark} : Holds (Came o m) (scanDirectiveValue name start)
    (fun data s => Came o m s ∧ isScanned data.type = true) (Stopped o) := by
  refine Holds.ite (fun _ => Walks.scanVersionDirectiveValue.andThen ?_) fun _ =>
    Holds.ite (fun _ => Walks.scanTagDirectiveValue.andThen ?_) fun _ => failed
  · rintro ⟨major, minor⟩
    exact Holds.pure fun s h => ⟨h, rfl⟩
  · rintro ⟨handle, suffix⟩
    exact Holds.pure fun s h => ⟨h, rfl⟩

theorem scanDirective_scanned : Holds (· = o) scanDirective (Scanned o) (Stopped o) := by
  refine getMark_start (Walks.skip.andThen fun _ => Walks.scanDirectiveName.andThen fun name => ?_)
  refine scanDirectiveValue_type.bind fun data s h => ?_
  exact getMark_came (fun w => Walks.scanLineEnd.andThen fun _ => scanned h.2) s h.1

/-- The last break lies between the marks from and to which breaks are scanned. -/
theorem scanBlockScalarBreaks_came {indent : Int} {breaks : Bytes} {start : Mark} :
    Holds (Came o m) (scanBlockScalarBreaks indent breaks start) (fun a => Came o a.2.2) (Stopped o) := by
  refine getMark_came fun w => ((repeatedly_came
    (P := fun a : Int × Bytes × Mark => Came o a.2.2) (Q := fun a : Int × Bytes × Mark => Came o a.2.2)
    (fun _ _ h => h.kept) ?_ (0, breaks, w))).bind ?_
  · rintro ⟨maxIndent, breaks, finish⟩
    refine Walks.cache.andThen fun _ => Walks.skipIndentation.andThen fun _ => Walks.getMark.andThen fun mark => ?_
    refine Walks.look.andThen fun _ => Holds.ite (fun _ => failed) fun _ => ?_
    refine Walks.look.andThen fun _ => Holds.ite (fun _ => Holds.pure fun _ h => h) fun _ => ?_
    exact Walks.cache.andThen fun _ => Walks.readLine.andThen fun _ => getMark_came fun w => Holds.pure fun _ h => h
  · rintro ⟨maxIndent, breaks, finish⟩
    exact Walks.getIndent.andThen fun _ => Holds.pure fun _ h => h

theorem scanBlockScalarLines_came {literal : Bool} {start : Mark} {b : BlockScalar} :
    Holds (Came o b.finish) (scanBlockScalarLines literal start b) (fun b => Came o b.finish) (Stopped o) := by
  refine repeatedly_came (P := fun b : BlockScalar => Came o b.finish) (fun _ _ h => h.kept) (fun b => ?_) b
  refine Walks.getMark.andThen fun mark => Walks.look.andThen fun _ => Holds.ite (fun _ => ?_) fun _ => ?_
  · refine Walks.look.andThen fun _ => Walks.readWhile.andThen fun _ => Walks.cache.andThen fun _ => ?_
    refine Walks.readLine.andThen fun _ => scanBlockScalarBreaks_came.bind ?_
    rintro ⟨indent, trailingBreaks, finish⟩
    exact Holds.pure fun _ h => h
  · exact Holds.pure fun _ h => h

theorem scanBlockScalar_scanned {literal : Bool} : Holds (· = o) (scanBlockScalar literal) (Scanned o) (Stopped o) := by
  refine getMark_start (Walks.skip.andThen fun _ => Walks.cache.andThen fun _ => Walks.scanBlockScalarHeader.andThen ?_)
  rintro ⟨chomping, increment⟩
  refine Walks.scanLineEnd.andThen fun _ => Walks.getIndent.andThen fun outer => scanBlockScalarBreaks_came.bind ?_
  rintro ⟨indent, trailingBreaks, finish⟩
  let b : BlockScalar := { trailingBreaks := trailingBreaks, indent := indent, finish := finish }
  change Holds (Came o b.finish) _ _ _
  exact Walks.cache.andThen fun _ => scanBlockScalarLines_came.bind fun b => scanned rfl

theorem scanFlowScalar_scanned {single : Bool} : Holds (· = o) (scanFlowScalar single) (Scanned o) (Stopped o) := by
  refine getMark_start (Walks.skip.andThen fun _ => Walks.andThen (Walks.repeatedly fun f => ?_) fun string => ?_)
  · refine Walks.bind .cache fun _ => .bind .getMark fun mark => .bind .look fun _ => .ite .fail ?_
    refine .bind .look fun _ => .ite .fail (.bind .cache fun _ => .bind .scanFlowScalarText ?_)
    rintro ⟨string, leadingBlanks⟩
    refine .bind .cache fun _ => .bind .look fun _ => .ite .pure ?_
    exact .bind .cache fun _ => .bind .scanBlanks fun _ => .pure
  · exact Walks.skip.andThen fun _ => getMark_came fun w => scanned rfl

theorem scanPlainScalarText_came {start : Mark} {f : Folding} {finish : Mark} :
    Holds (Came o finish) (scanPlainScalarText start f finish) (fun a => Came o a.2) (Stopped o) := by
  refine repeatedly_came (P := fun a : Folding × Mark => Came o a.2) (fun _ _ h => h.kept) ?_ (f, finish)
  rintro ⟨f, finish⟩
  refine Walks.inFlow.andThen fun _ => Walks.look.andThen fun _ => Holds.ite (fun _ => ?_) fun _ => ?_
  · refine Walks.look.andThen fun _ => Holds.ite (fun _ => failed) fun _ => Walks.look.andThen fun _ => ?_
    refine Holds.ite (fun _ => Holds.pure fun _ h => h) fun _ => Walks.read.andThen fun _ => ?_
    exact getMark_came fun w => Walks.cache.andThen fun _ => Holds.pure fun _ h => h
  · exact Holds.pure fun _ h => h

theorem scanPlainScalar_scanned : Holds (· = o) scanPlainScalar (Scanned o) (Stopped o) := by
  refine getMark_start (Walks.getIndent.andThen fun outer => (repeatedly_came (P := fun a : Folding × Mark => Came o a.2)
    (Q := fun a : Folding × Mark => Came o a.2) (fun _ _ h => h.kept) ?_ ({}, o.mark)).bind ?_)
  · rintro ⟨f, finish⟩
    refine Walks.cache.andThen fun _ => Walks.getMark.andThen fun mark => Walks.look.andThen fun _ => ?_
    refine Holds.ite (fun _ => Holds.pure fun _ h => h) fun _ => scanPlainScalarText_came.bind ?_
    rintro ⟨f, finish⟩
    refine Walks.look.andThen fun _ => Holds.ite (fun _ => ?_) fun _ => Holds.pure fun _ h => h
    refine Walks.cache.andThen fun _ => Walks.scanBlanks.andThen fun f => Walks.inFlow.andThen fun _ => ?_
    refine Walks.getMark.andThen fun _ => Holds.ite (fun _ => Holds.pure fun _ h => h) fun _ => Holds.pure fun _ h => h
  · rintro ⟨f, finish⟩
    exact (Walks.onlyIf .allow).andThen fun _ => scanned rfl

end Tokens

end Scanner

end LibYaml
