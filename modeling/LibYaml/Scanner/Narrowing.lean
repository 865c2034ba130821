import LibYaml.Scanner.Scalars

/-!
# Indentation and the width of integers

The scanner compares columns with indentations as 32-bit integers.  Here the conversion is a
parameter of the functions that make it, in each place where the source makes it; with the
conversion to 32 bits they are the scanner's own.
-/

namespace LibYaml

namespace Scanner

open Fallible

section With

variable {ι : Type} (narrow : Int → ScanM ι Int)

def leftOfWith (indent : Int) (mark : Mark) : ScanM ι Bool :=
  if indent = 0 then pure true
  else do
    let column ← narrow mark.column
    return column < indent

def tabViolatesWith (indent : Int) (f : Folding) (mark : Mark) : ScanM ι Bool :=
  if f.leadingBlanks then do
    let column ← narrow mark.column
    return column < indent
  else return false

def endsPlainScalarWith (indent : Int) (flow : Bool) (mark : Mark) : ScanM ι Bool :=
  if flow then return false
  else do
    let column ← narrow mark.column
    return column < indent

variable [Input ι]

def skipIndentationWith (indent : Int) : ScanM ι Unit :=
  repeatedly (fun _ => do
    let mark ← getMark
    let left ← leftOfWith narrow indent mark
    if ← look (fun p => left && isSpace p) then do
      skip
      cache 1
      return .again ()
    else return .leave ()) ()

def scanBlockScalarBreaksWith (indent : Int) (breaks : Bytes) (start : Mark) :
    ScanM ι (Int × Bytes × Mark) := do
  let finish ← getMark
  let (maxIndent, breaks, finish) ← repeatedly (fun (maxIndent, breaks, finish) => do
    cache 1
    skipIndentationWith narrow indent
    let mark ← getMark
    let column ← narrow mark.column
    let maxIndent := max maxIndent column
    let left ← leftOfWith narrow indent mark
    if ← look (fun p => left && isTab p) then
      scannerError (some "while scanning a block scalar") start
        "found a tab character where an indentation space is expected"
    else if ← look (!isBreak ·) then return .leave (maxIndent, breaks, finish)
    else do
      cache 2
      let breaks ← readLine breaks
      let finish ← getMark
      return .again (maxIndent, breaks, finish)) ((0 : Int), breaks, finish)
  let outer ← getIndent
  let indent ← (if indent = 0 then do
      let least ← narrow (outer + 1)
      return max (max maxIndent least) 1
    else return indent)
  return (indent, breaks, finish)

def scanBlockScalarLinesWith (literal : Bool) (start : Mark) (b : BlockScalar) :
    ScanM ι BlockScalar :=
  repeatedly (fun (b : BlockScalar) => do
    let mark ← getMark
    let column ← narrow mark.column
    if ← look (fun p => column = b.indent && !isZ p) then do
      let blank ← look isBlank
      let string ← readWhile (!isBreakz ·) (b.fold literal blank)
      cache 2
      let leadingBreak ← readLine []
      let (indent, trailingBreaks, finish) ← scanBlockScalarBreaksWith narrow b.indent [] start
      return .again ⟨string, leadingBreak, trailingBreaks, blank, indent, finish⟩
    else return .leave b) b

def scanBlockScalarWith (literal : Bool) : ScanM ι Token := do
  let start ← getMark
  skip
  cache 1
  let (chomping, increment) ← scanBlockScalarHeader start
  scanLineEnd "while scanning a block scalar" start
  let outer ← getIndent
  let indent ← (if increment = 0 then return 0
    else if 0 ≤ outer then narrow (outer + increment)
    else return increment)
  let (indent, trailingBreaks, finish) ← scanBlockScalarBreaksWith narrow indent [] start
  cache 1
  let b ← scanBlockScalarLinesWith narrow literal start
    { trailingBreaks := trailingBreaks, indent := indent, finish := finish }
  return ⟨.scalar (b.value chomping) (if literal then .literal else .folded), start, b.finish⟩

def scanBlanksWith (violates : Folding → Mark → ScanM ι Bool) (start : Mark) (f : Folding) :
    ScanM ι Folding :=
  repeatedly (fun (f : Folding) => do
    if ← look (fun p => isBlank p || isBreak p) then do
      let f ← (do
        if ← look isBlank then do
          let mark ← getMark
          let left ← violates f mark
          if ← look (fun p => left && isTab p) then
            scannerError (some "while scanning a plain scalar") start
              "found a tab character that violates indentation"
          else if f.leadingBlanks then do
            skip
            return f
          else do
            let whitespaces ← read f.whitespaces
            return { f with whitespaces := whitespaces }
        else do
          cache 2
          if f.leadingBlanks then do
            let trailingBreaks ← readLine f.trailingBreaks
            return { f with trailingBreaks := trailingBreaks }
          else do
            let leadingBreak ← readLine f.leadingBreak
            return { f with
              whitespaces := []
              leadingBreak := leadingBreak
              leadingBlanks := true })
      cache 1
      return .again f
    else return .leave f) f

def scanPlainScalarWith : ScanM ι Token := do
  let start ← getMark
  let outer ← getIndent
  let indent ← narrow (outer + 1)
  let (f, finish) ← repeatedly (fun ((f, finish) : Folding × Mark) => do
    cache 4
    let mark ← getMark
    if ← look (fun p => (mark.column = 0 && isDocumentIndicator p) || check p '#') then
      return .leave (f, finish)
    else do
      let (f, finish) ← scanPlainScalarText start f finish
      if ← look (fun p => isBlank p || isBreak p) then do
        cache 1
        let f ← scanBlanksWith (tabViolatesWith narrow indent) start f
        let flow ← inFlow
        let mark ← getMark
        let ends ← endsPlainScalarWith narrow indent flow mark
        if ends then return .leave (f, finish)
        else return .again (f, finish)
      else return .leave (f, finish)) ({}, start)
  onlyIf f.leadingBlanks (modify fun s => { s with simpleKeyAllowed := true })
  return ⟨.scalar f.string .plain, start, finish⟩

end With

section Same

variable {ι κ α β : Type}

/-- Neither run does anything, and both come to the same. -/
def Same (x : ScanM ι α) (y : ScanM κ α) : Prop := ∃ a, x = pure a ∧ y = pure a

theorem Same.pure {a : α} : Same (Pure.pure a : ScanM ι α) (Pure.pure a : ScanM κ α) := ⟨a, rfl, rfl⟩

theorem Same.map {x : ScanM ι α} {y : ScanM κ α} (f : α → β) (h : Same x y) :
    Same (x >>= fun a => Pure.pure (f a)) (y >>= fun a => Pure.pure (f a)) := by
  obtain ⟨a, rfl, rfl⟩ := h
  exact ⟨f a, rfl, rfl⟩

variable {narrow : Int → ScanM ι Int} {narrow' : Int → ScanM κ Int} {indent : Int} {mark : Mark}

theorem leftOfWith_same (h : Same (narrow mark.column) (narrow' mark.column)) :
    Same (leftOfWith narrow indent mark) (leftOfWith narrow' indent mark) := by
  unfold leftOfWith
  split_ifs
  · exact .pure
  · exact h.map _

theorem tabViolatesWith_same {f : Folding} (h : Same (narrow mark.column) (narrow' mark.column)) :
    Same (tabViolatesWith narrow indent f mark) (tabViolatesWith narrow' indent f mark) := by
  unfold tabViolatesWith
  split_ifs
  · exact h.map _
  · exact .pure

theorem endsPlainScalarWith_same {flow : Bool} (h : Same (narrow mark.column) (narrow' mark.column)) :
    Same (endsPlainScalarWith narrow indent flow mark) (endsPlainScalarWith narrow' indent flow mark) := by
  unfold endsPlainScalarWith
  split_ifs
  · exact .pure
  · exact h.map _

end Same

section Narrowed

variable {ι : Type}

/-- The conversion to 32 bits. -/
def narrowed (n : Int) : ScanM ι Int := pure (toCInt n)

theorem leftOfWith_narrowed (indent : Int) (mark : Mark) :
    leftOfWith narrowed indent mark = (pure (leftOf indent mark) : ScanM ι Bool) := by
  unfold leftOfWith leftOf
  by_cases h : indent = 0
  · rw [if_pos h, decide_eq_true h, Bool.true_or]
  · rw [if_neg h, decide_eq_false h, Bool.false_or]
    rfl

theorem tabViolatesWith_narrowed (indent : Int) : tabViolatesWith narrowed indent
    = fun f mark => (pure (f.leadingBlanks && decide (cInt mark.column < indent)) : ScanM ι Bool) := by
  funext f mark
  unfold tabViolatesWith
  cases f.leadingBlanks <;> rfl

theorem endsPlainScalarWith_narrowed (indent : Int) (flow : Bool) (mark : Mark) :
    endsPlainScalarWith narrowed indent flow mark
      = (pure (!flow && decide (cInt mark.column < indent)) : ScanM ι Bool) := by
  unfold endsPlainScalarWith
  cases flow <;> rfl

variable [Input ι]

theorem skipIndentationWith_narrowed (indent : Int) :
    skipIndentationWith narrowed indent = (skipIndentation indent : ScanM ι Unit) := by
  unfold skipIndentationWith
  simp only [leftOfWith_narrowed]
  rfl

theorem scanBlockScalarBreaksWith_narrowed (indent : Int) (breaks : Bytes) (start : Mark) :
    scanBlockScalarBreaksWith narrowed indent breaks start
      = (scanBlockScalarBreaks indent breaks start : ScanM ι _) := by
  unfold scanBlockScalarBreaksWith scanBlockScalarBreaks
  simp only [leftOfWith_narrowed, skipIndentationWith_narrowed]
  by_cases h : indent = 0
  · simp only [if_pos h]
    rfl
  · simp only [if_neg h]
    rfl

theorem scanBlockScalarLinesWith_narrowed (literal : Bool) (start : Mark) (b : BlockScalar) :
    scanBlockScalarLinesWith narrowed literal start b = (scanBlockScalarLines literal start b : ScanM ι _) := by
  unfold scanBlockScalarLinesWith scanBlockScalarLines cInt
  simp only [scanBlockScalarBreaksWith_narrowed, narrowed, pure_bind]

theorem scanBlockScalarWith_narrowed (literal : Bool) :
    scanBlockScalarWith narrowed literal = (scanBlockScalar literal : ScanM ι Token) := by
  have hindent (outer increment : Int) : (if increment = 0 then pure 0
      else if 0 ≤ outer then narrowed (outer + increment) else pure increment : ScanM ι Int)
      = pure (if increment = 0 then 0 else if 0 ≤ outer then toCInt (outer + increment) else increment) := by
    split_ifs <;> rfl
  unfold scanBlockScalarWith
  simp only [scanBlockScalarBreaksWith_narrowed, scanBlockScalarLinesWith_narrowed, hindent]
  rfl

theorem scanBlanksWith_pure (violates : Folding → Mark → Bool) (start : Mark) (f : Folding) :
    scanBlanksWith (fun f mark => pure (violates f mark)) start f
      = (scanBlanks (fun f mark p => violates f mark && isTab p) start f : ScanM ι Folding) := rfl

theorem scanPlainScalarWith_narrowed : scanPlainScalarWith narrowed = (scanPlainScalar : ScanM ι Token) := by
  unfold scanPlainScalarWith
  simp only [tabViolatesWith_narrowed, scanBlanksWith_pure, endsPlainScalarWith_narrowed]
  rfl

end Narrowed

end Scanner

end LibYaml
