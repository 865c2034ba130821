import LibYaml.Emitter.Coupling

/-!
# The emitter is coupled with itself

Whatever the channels go through, the emitter writes the same: each function, run on two emitters
that are alike, leaves them alike.  All it writes are whole characters.
-/

namespace LibYaml

namespace Emitter

open Fallible

variable {σ τ : Type}

theorem popState_eq : (popState : EmitM σ Unit) = get >>= fun s => match s.states with
    | [] => throw .undefined
    | state :: states => modify fun s => { s with state := state, states := states } := by
  funext s
  rw [bind_apply, get_apply]
  dsimp only
  rcases h : s.states with _ | ⟨state, states⟩ <;> simp [popState, h]

theorem popIndent_eq : (popIndent : EmitM σ Unit) = get >>= fun s => match s.indents with
    | [] => throw .undefined
    | indent :: indents => modify fun s => { s with indent := indent, indents := indents } := by
  funext s
  rw [bind_apply, get_apply]
  dsimp only
  rcases h : s.indents with _ | ⟨indent, indents⟩ <;> simp [popIndent, h]

namespace Coupled

variable [WriteHandler σ] [WriteHandler τ] {C : Coupling σ τ}

section Output

theorem putSpaces : ∀ n, Coupled C (putSpaces n) (putSpaces n)
  | 0 => pure ()
  | n + 1 => bind (put (by decide)) fun _ => putSpaces n

theorem writeIndent : Coupled C writeIndent writeIndent :=
  get fun _ _ _ _ => bind (onlyIf putBreak) fun _ => bind (get fun _ _ _ _ => putSpaces _) fun _ =>
    update (fun _ _ => rfl) (fun _ => rfl) fun _ h => h

theorem separate (needWhitespace : Bool) : Coupled C (separate needWhitespace) (separate needWhitespace) :=
  get fun _ _ _ _ => onlyIf (put (by decide))

theorem writeIndicator {indicator : Bytes} (h : OneByte indicator)
    (needWhitespace isWhitespace isIndention : Bool) :
    Coupled C (writeIndicator indicator needWhitespace isWhitespace isIndention)
      (writeIndicator indicator needWhitespace isWhitespace isIndention) :=
  bind (separate _) fun _ => bind (forM fun b hb => write (isCharacter_singleton (h b hb))) fun _ =>
    update (fun _ _ => rfl) (fun _ => rfl) fun _ h => h

theorem emitterError (problem : String) :
    Coupled C (emitterError problem : EmitM σ Unit) (emitterError problem) :=
  throw _

end Output

section Writers

theorem endText : Coupled C endText endText :=
  update (fun _ _ => rfl) (fun _ => rfl) fun _ h => h

theorem setIndention (indention : Bool) : Coupled C (setIndention indention) (setIndention indention) :=
  update (fun _ _ => rfl) (fun _ => rfl) fun _ h => h

theorem writeAnchor (value : Bytes) : Coupled C (writeAnchor value) (writeAnchor value) :=
  charactersOf fun _ hc => bind (forM fun c h => write (hc c h)) fun _ => endText

theorem writeTagHandle (value : Bytes) : Coupled C (writeTagHandle value) (writeTagHandle value) :=
  bind (separate _) fun _ => charactersOf fun _ hc =>
    bind (forM fun c h => write (hc c h)) fun _ => endText

theorem octetWidth_hexDigit {n : Nat} (h : n < 16) : octetWidth (hexDigit n) = 1 := by
  have : ∀ n < 16, octetWidth (hexDigit n) = 1 := by decide
  exact this n h

theorem putEscaped (value : UInt8) : Coupled C (putEscaped value) (putEscaped value) := by
  have hi : (value >>> 4).toNat < 16 := by
    rw [UInt8.toNat_shiftRight]
    have := value.toNat_lt
    simp [Nat.shiftRight_eq_div_pow]
    omega
  have lo : (value &&& 0x0F).toNat < 16 := by
    rw [UInt8.toNat_and]
    exact Nat.lt_succ_of_le Nat.and_le_right
  exact bind (put (by decide)) fun _ => bind (put (octetWidth_hexDigit hi)) fun _ =>
    put (octetWidth_hexDigit lo)

theorem writeTagContent (value : Bytes) (needWhitespace : Bool) :
    Coupled C (writeTagContent value needWhitespace) (writeTagContent value needWhitespace) :=
  bind (separate _) fun _ => charactersOf fun _ hc =>
    bind (forM fun c h => ite (write (hc c h)) (forM fun b _ => putEscaped b)) fun _ => endText

theorem writeFoldedBreak {c : Bytes} (h : IsCharacter c) (breaks : Bool) :
    Coupled C (writeFoldedBreak c breaks) (writeFoldedBreak c breaks) :=
  bind (onlyIf putBreak) fun _ => bind (writeBreak h) fun _ => setIndention _

theorem writeSpace {c : Bytes} (h : IsCharacter c) (fold : Bool) :
    Coupled C (writeSpace c fold) (writeSpace c fold) :=
  ite writeIndent (write h)

theorem writePlainCharacters (allowBreaks : Bool) : ∀ {cs : List Bytes} (_ : ∀ c ∈ cs, IsCharacter c)
    (spaces breaks : Bool), Coupled C (writePlainCharacters allowBreaks cs spaces breaks)
      (writePlainCharacters allowBreaks cs spaces breaks)
  | [], _, _, _ => pure ()
  | c :: cs, hc, _, _ => by
    have hcs : ∀ c ∈ cs, IsCharacter c := fun c h => hc c (List.mem_cons_of_mem _ h)
    have hc := hc c List.mem_cons_self
    have ih := @writePlainCharacters allowBreaks cs hcs
    refine get fun s o o' _ => ite (bind (writeSpace hc _) fun _ => ih _ _) ?_
    refine ite (bind (writeFoldedBreak hc _) fun _ => ih _ _) ?_
    exact bind (onlyIf writeIndent) fun _ => bind (write hc) fun _ =>
      bind (setIndention _) fun _ => ih _ _

theorem writeSingleQuotedCharacters (allowBreaks : Bool) :
    ∀ {cs : List Bytes} (_ : ∀ c ∈ cs, IsCharacter c) (start spaces breaks : Bool),
      Coupled C (writeSingleQuotedCharacters allowBreaks cs start spaces breaks)
        (writeSingleQuotedCharacters allowBreaks cs start spaces breaks)
  | [], _, _, _, _ => onlyIf writeIndent
  | c :: cs, hc, _, _, _ => by
    have hcs : ∀ c ∈ cs, IsCharacter c := fun c h => hc c (List.mem_cons_of_mem _ h)
    have hc := hc c List.mem_cons_self
    have ih := @writeSingleQuotedCharacters allowBreaks cs hcs
    refine get fun s o o' _ => ite (bind (writeSpace hc _) fun _ => ih _ _ _) ?_
    refine ite (bind (writeFoldedBreak hc _) fun _ => ih _ _ _) ?_
    exact bind (onlyIf writeIndent) fun _ => bind (onlyIf (put (by decide))) fun _ =>
      bind (write hc) fun _ => bind (setIndention _) fun _ => ih _ _ _

theorem octetWidth_hexDigits (value : Nat) : ∀ width, OneByte (hexDigits value width)
  | 0 => by simp [OneByte, hexDigits]
  | width + 1 => by
    intro b hb
    rcases List.mem_cons.mp hb with rfl | hb
    · exact octetWidth_hexDigit (Nat.mod_lt _ (by decide))
    · exact octetWidth_hexDigits value width b hb

theorem octetWidth_escapeCode (value : Nat) : OneByte (escapeCode value) := by
  have digits (c : UInt8) (hc : octetWidth c = 1) (width : Nat) :
      OneByte (c :: hexDigits value width) := by
    intro b hb
    rcases List.mem_cons.mp hb with rfl | hb
    · exact hc
    · exact octetWidth_hexDigits value width b hb
  unfold escapeCode
  split
  case h_16 =>
    split_ifs
    · exact digits _ (by decide) 2
    · exact digits _ (by decide) 4
    · exact digits _ (by decide) 8
  all_goals decide

theorem writeDoubleQuotedCharacters (allowBreaks : Bool) :
    ∀ {cs : List Bytes} (_ : ∀ c ∈ cs, IsCharacter c) (start spaces : Bool),
      Coupled C (writeDoubleQuotedCharacters allowBreaks cs start spaces)
        (writeDoubleQuotedCharacters allowBreaks cs start spaces)
  | [], _, _, _ => pure ()
  | c :: cs, hc, _, _ => by
    have hcs : ∀ c ∈ cs, IsCharacter c := fun c h => hc c (List.mem_cons_of_mem _ h)
    have hc := hc c List.mem_cons_self
    have ih := @writeDoubleQuotedCharacters allowBreaks cs hcs
    refine get fun s o o' _ => ite (bind (put (by decide)) fun _ =>
      bind (forM fun b hb => put (octetWidth_escapeCode _ b hb)) fun _ => ih _ _) ?_
    refine ite (bind (writeSpace hc _) fun _ => bind (onlyIf (put (by decide))) fun _ => ih _ _) ?_
    exact bind (write hc) fun _ => ih _ _

theorem writeBlockScalarHints {cs : List Bytes} :
    Coupled C (writeBlockScalarHints cs) (writeBlockScalarHints cs) := by
  refine get fun s o o' hs => bind (onlyIf (writeIndicator ?_ _ _ _)) fun _ =>
    bind (update (fun _ _ => rfl) (fun _ => rfl) fun _ h => h) fun _ => ?_
  · obtain ⟨-, hl, hu⟩ := hs
    have digits : ∀ n < 10, OneByte [octet '0' + n.toUInt8] := by decide
    have hn : s.bestIndent.toNat < 10 := by omega
    exact digits _ hn
  · have ascii : ∀ indicator, (chompHint cs.reverse).1 = some indicator →
        OneByte indicator := by
      intro indicator h
      unfold chompHint at h
      split at h
      · obtain rfl := Option.some.inj h
        decide
      split at h
      · obtain rfl := Option.some.inj h
        decide
      split at h
      · obtain rfl := Option.some.inj h
        decide
      split at h
      · obtain rfl := Option.some.inj h
        decide
      · exact absurd h nofun
    rcases h : (chompHint cs.reverse).1 with _ | indicator
    · exact pure ()
    · exact writeIndicator (ascii _ h) _ _ _

theorem writeBlockScalarHeader {indicator : Bytes} (h : OneByte indicator)
    (cs : List Bytes) :
    Coupled C (writeBlockScalarHeader indicator cs) (writeBlockScalarHeader indicator cs) :=
  bind (writeIndicator h _ _ _) fun _ => bind writeBlockScalarHints fun _ => bind putBreak fun _ =>
    update (fun _ _ => rfl) (fun _ => rfl) fun _ h => h

theorem writeLiteralCharacters : ∀ {cs : List Bytes} (_ : ∀ c ∈ cs, IsCharacter c) (breaks : Bool),
    Coupled C (writeLiteralCharacters cs breaks) (writeLiteralCharacters cs breaks)
  | [], _, _ => pure ()
  | c :: cs, hc, _ => by
    have hcs : ∀ c ∈ cs, IsCharacter c := fun c h => hc c (List.mem_cons_of_mem _ h)
    have hc := hc c List.mem_cons_self
    have ih := @writeLiteralCharacters cs hcs
    refine ite (bind (writeBreak hc) fun _ => bind (setIndention _) fun _ => ih _) ?_
    exact bind (onlyIf writeIndent) fun _ => bind (write hc) fun _ =>
      bind (setIndention _) fun _ => ih _

theorem writeFoldedCharacters : ∀ {cs : List Bytes} (_ : ∀ c ∈ cs, IsCharacter c)
    (breaks leadingSpaces : Bool), Coupled C (writeFoldedCharacters cs breaks leadingSpaces)
      (writeFoldedCharacters cs breaks leadingSpaces)
  | [], _, _, _ => pure ()
  | c :: cs, hc, _, _ => by
    have hcs : ∀ c ∈ cs, IsCharacter c := fun c h => hc c (List.mem_cons_of_mem _ h)
    have hc := hc c List.mem_cons_self
    have ih := @writeFoldedCharacters cs hcs
    refine ite (bind (onlyIf putBreak) fun _ => bind (writeBreak hc) fun _ =>
      bind (setIndention _) fun _ => ih _ _) ?_
    exact bind (onlyIf writeIndent) fun _ => get fun _ _ _ _ => bind (writeSpace hc _) fun _ =>
      bind (setIndention _) fun _ => ih _ _

theorem writeScalar (style : ScalarStyle) (value : Bytes) (allowBreaks : Bool) :
    Coupled C (writeScalar style value allowBreaks) (writeScalar style value allowBreaks) := by
  cases style with
  | any => exact throw _
  | plain =>
    exact get fun _ _ _ _ => bind (onlyIf (put (by decide))) fun _ => charactersOf fun _ hc =>
      bind (writePlainCharacters _ hc _ _) fun _ => endText
  | singleQuoted =>
    exact bind (writeIndicator (by decide) _ _ _) fun _ => charactersOf fun _ hc =>
      bind (writeSingleQuotedCharacters _ hc _ _ _) fun _ =>
        bind (writeIndicator (by decide) _ _ _) fun _ => endText
  | doubleQuoted =>
    exact bind (writeIndicator (by decide) _ _ _) fun _ => charactersOf fun _ hc =>
      bind (writeDoubleQuotedCharacters _ hc _ _) fun _ =>
        bind (writeIndicator (by decide) _ _ _) fun _ => endText
  | literal =>
    exact charactersOf fun _ hc => bind (writeBlockScalarHeader (by decide) _) fun _ =>
      writeLiteralCharacters hc _
  | folded =>
    exact charactersOf fun _ hc => bind (writeBlockScalarHeader (by decide) _) fun _ =>
      writeFoldedCharacters hc _ _

end Writers

section Analysis

theorem analyzeVersionDirective (versionDirective : VersionDirective) :
    Coupled C (analyzeVersionDirective versionDirective : EmitM σ Unit)
      (analyzeVersionDirective versionDirective) :=
  ite (emitterError _) (pure ())

theorem analyzeTagDirective (tagDirective : TagDirective) :
    Coupled C (analyzeTagDirective tagDirective : EmitM σ Unit) (analyzeTagDirective tagDirective) :=
  ite (emitterError _) (ite (emitterError _) (ite (emitterError _) (ite (emitterError _)
    (ite (emitterError _) (pure ())))))

theorem analyzeAnchor (anchor : Bytes) (isAlias : Bool) :
    Coupled C (analyzeAnchor anchor isAlias : EmitM σ Unit) (analyzeAnchor anchor isAlias) :=
  ite (emitterError _) (ite (emitterError _) (update (fun _ _ => rfl) (fun _ => rfl) fun _ h => h))

theorem analyzeTag (tag : Bytes) :
    Coupled C (analyzeTag tag : EmitM σ Unit) (analyzeTag tag) := by
  refine get fun s o o' _ => ite (emitterError _) ?_
  dsimp only [through]
  cases abbreviation s.tagDirectives (cstr tag) with
  | none => exact update (fun _ _ => rfl) (fun _ => rfl) fun _ h => h
  | some d => exact update (fun _ _ => rfl) (fun _ => rfl) fun _ h => h

theorem analyzeNodeAnchor (anchor : Option Bytes) :
    Coupled C (analyzeNodeAnchor anchor : EmitM σ Unit) (analyzeNodeAnchor anchor) := by
  cases anchor with
  | none => exact pure ()
  | some anchor => exact analyzeAnchor _ _

theorem analyzeNodeTag (implicit : Bool) (tag : Option Bytes) :
    Coupled C (analyzeNodeTag implicit tag : EmitM σ Unit) (analyzeNodeTag implicit tag) := by
  cases tag with
  | none => exact pure ()
  | some tag => exact get fun _ _ _ _ => onlyIf (analyzeTag _)

theorem analyzeScalar (value : Bytes) :
    Coupled C (analyzeScalar value : EmitM σ Unit) (analyzeScalar value) :=
  ite (update (fun _ _ => rfl) (fun _ => rfl) fun _ h => h) (charactersOf fun _ _ =>
    update (fun _ _ => rfl) (fun _ => rfl) fun _ h => h)

theorem analyzeEvent (event : Event) :
    Coupled C (analyzeEvent event : EmitM σ Unit) (analyzeEvent event) := by
  refine bind (update (fun _ _ => rfl) (fun _ => rfl) fun _ h => h) fun _ => ?_
  rcases event with ⟨data, _, _⟩
  cases data with
  | «alias» a => exact analyzeAnchor a true
  | scalar a tag value =>
    exact bind (analyzeNodeAnchor a) fun _ => bind (analyzeNodeTag _ _) fun _ => analyzeScalar value
  | sequenceStart a tag => exact bind (analyzeNodeAnchor a) fun _ => analyzeNodeTag _ _
  | mappingStart a tag => exact bind (analyzeNodeAnchor a) fun _ => analyzeNodeTag _ _
  | _ => exact pure ()

end Analysis

section Nodes

theorem setState (state : EmitterState) :
    Coupled C (setState state : EmitM σ Unit) (setState state) :=
  update (fun _ _ => rfl) (fun _ => rfl) fun _ h => h

theorem pushState (state : EmitterState) :
    Coupled C (pushState state : EmitM σ Unit) (pushState state) :=
  update (fun _ _ => rfl) (fun _ => rfl) fun _ h => h

theorem increaseIndent (flow indentless : Bool) :
    Coupled C (increaseIndent flow indentless : EmitM σ Unit) (increaseIndent flow indentless) :=
  update (fun _ _ => rfl) (fun _ => rfl) fun _ h => h

theorem addFlowLevel (d : Int) : Coupled C (addFlowLevel d : EmitM σ Unit) (addFlowLevel d) :=
  update (fun _ _ => rfl) (fun _ => rfl) fun _ h => h

theorem setContexts (root sequence mapping simpleKey : Bool) :
    Coupled C (setContexts root sequence mapping simpleKey : EmitM σ Unit)
      (setContexts root sequence mapping simpleKey) :=
  update (fun _ _ => rfl) (fun _ => rfl) fun _ h => h

theorem setOpenEnded (n : Nat) : Coupled C (setOpenEnded n : EmitM σ Unit) (setOpenEnded n) :=
  update (fun _ _ => rfl) (fun _ => rfl) fun _ h => h

theorem popState : Coupled C (popState : EmitM σ Unit) popState := by
  rw [popState_eq, popState_eq]
  refine get fun s o o' _ => ?_
  dsimp only [through]
  rcases s.states with _ | ⟨state, states⟩
  · exact throw _
  · exact update (fun _ _ => rfl) (fun _ => rfl) fun _ h => h

theorem popIndent : Coupled C (popIndent : EmitM σ Unit) popIndent := by
  rw [popIndent_eq, popIndent_eq]
  refine get fun s o o' _ => ?_
  dsimp only [through]
  rcases s.indents with _ | ⟨indent, indents⟩
  · exact throw _
  · exact update (fun _ _ => rfl) (fun _ => rfl) fun _ h => h

theorem processAnchor : Coupled C processAnchor processAnchor := by
  refine get fun s o o' _ => ?_
  dsimp only [through]
  rcases s.anchorData.anchor with _ | anchor
  · exact pure ()
  · refine bind (writeIndicator ?_ _ _ _) fun _ => writeAnchor _
    cases s.anchorData.isAlias <;> decide

theorem processTag : Coupled C processTag processTag := by
  refine get fun s o o' _ => ?_
  dsimp only [through]
  rcases s.tagData.handle with _ | handle <;> rcases s.tagData.suffix with _ | suffix
  · exact pure ()
  · exact bind (writeIndicator (by decide) _ _ _) fun _ => bind (writeTagContent _ _) fun _ =>
      writeIndicator (by decide) _ _ _
  · exact writeTagHandle _
  · exact bind (writeTagHandle _) fun _ => writeTagContent _ _

theorem selectScalarStyle (plainImplicit quotedImplicit : Bool) (style : ScalarStyle) :
    Coupled C (selectScalarStyle plainImplicit quotedImplicit style : EmitM σ Unit)
      (selectScalarStyle plainImplicit quotedImplicit style) :=
  get fun _ _ _ _ => ite (emitterError _) (update (fun _ _ => rfl) (fun _ => rfl) fun _ h => h)

theorem emitNodeData (event : Event) : Coupled C (emitNodeData event) (emitNodeData event) := by
  rcases event with ⟨data, _, _⟩
  cases data with
  | «alias» a =>
    exact bind processAnchor fun _ => get fun _ _ _ _ => bind (onlyIf (put (by decide))) fun _ =>
      popState
  | scalar a tag value plainImplicit quotedImplicit style =>
    exact bind (selectScalarStyle _ _ _) fun _ => bind processAnchor fun _ => bind processTag fun _ =>
      bind (increaseIndent _ _) fun _ => bind (get fun _ _ _ _ => writeScalar _ _ _) fun _ =>
        bind popIndent fun _ => popState
  | sequenceStart a tag implicit style =>
    exact bind processAnchor fun _ => bind processTag fun _ => get fun _ _ _ _ =>
      ite (setState _) (setState _)
  | mappingStart a tag implicit style =>
    exact bind processAnchor fun _ => bind processTag fun _ => get fun _ _ _ _ =>
      ite (setState _) (setState _)
  | _ => exact emitterError _

theorem emitNode (event : Event) (root sequence mapping simpleKey : Bool) :
    Coupled C (emitNode event root sequence mapping simpleKey)
      (emitNode event root sequence mapping simpleKey) :=
  bind (setContexts _ _ _ _) fun _ => emitNodeData event

end Nodes

section Documents

/-- Behind the stream's start the defaults change neither the encoding nor the indent. -/
theorem configured_streamDefaults (encoding : Encoding) (s : Emitter σ)
    (h : Configured C.encoding s) : Configured C.encoding (streamDefaults s encoding) := by
  obtain ⟨he, hl, hu⟩ := h
  refine ⟨?_, ?_⟩
  · simp only [streamDefaults, he, if_neg C.known]
  · have hi : ¬(s.bestIndent < 2 ∨ 9 < s.bestIndent) := by omega
    simp only [streamDefaults, if_neg hi]
    exact ⟨hl, hu⟩

theorem emitStreamStart (event : Event) : Coupled C (emitStreamStart event) (emitStreamStart event) := by
  refine bind (update (fun _ _ => rfl) (fun _ => rfl) fun _ h => h) fun _ => ?_
  rcases event with ⟨data, _, _⟩
  cases data with
  | streamStart encoding =>
    exact bind (update (fun _ _ => rfl) (fun _ => rfl) (configured_streamDefaults encoding)) fun _ =>
      get fun _ _ _ _ => bind (onlyIf writeBom) fun _ => setState _
  | _ => exact emitterError _

theorem appendTagDirective (allowDuplicates : Bool) (value : TagDirective) :
    Coupled C (appendTagDirective allowDuplicates value : EmitM σ Unit)
      (appendTagDirective allowDuplicates value) :=
  get fun _ _ _ _ => ite (ite (pure ()) (emitterError _))
    (update (fun _ _ => rfl) (fun _ => rfl) fun _ h => h)

theorem checkVersionDirective (versionDirective : Option VersionDirective) :
    Coupled C (checkVersionDirective versionDirective : EmitM σ Unit)
      (checkVersionDirective versionDirective) := by
  cases versionDirective with
  | none => exact pure ()
  | some versionDirective => exact analyzeVersionDirective _

theorem writeDocumentEndMarker : Coupled C writeDocumentEndMarker writeDocumentEndMarker :=
  writeIndicator (by decide) _ _ _

theorem writeVersion (versionDirective : Option VersionDirective) :
    Coupled C (writeVersion versionDirective) (writeVersion versionDirective) := by
  cases versionDirective with
  | none => exact pure ()
  | some versionDirective =>
    refine bind (writeIndicator (by decide) _ _ _) fun _ =>
      bind (writeIndicator ?_ _ _ _) fun _ => writeIndent
    split <;> decide

theorem writeTagDirective (tagDirective : TagDirective) :
    Coupled C (writeTagDirective tagDirective) (writeTagDirective tagDirective) :=
  bind (writeIndicator (by decide) _ _ _) fun _ => bind (writeTagHandle _) fun _ =>
    bind (writeTagContent _ _) fun _ => writeIndent

theorem writeDocumentStartMarker : Coupled C writeDocumentStartMarker writeDocumentStartMarker :=
  bind writeIndent fun _ => bind (writeIndicator (by decide) _ _ _) fun _ =>
    get fun _ _ _ _ => onlyIf writeIndent

theorem startDocument (first : Bool) (versionDirective : Option VersionDirective)
    (tagDirectives : List TagDirective) (implicit : Bool) :
    Coupled C (startDocument first versionDirective tagDirectives implicit)
      (startDocument first versionDirective tagDirectives implicit) := by
  refine bind (checkVersionDirective _) fun _ => bind (forM fun d _ => bind (analyzeTagDirective d)
    fun _ => appendTagDirective false d) fun _ => bind (forM fun d _ => appendTagDirective true d)
    fun _ => get fun s o o' _ => ?_
  exact bind (onlyIf (bind writeDocumentEndMarker fun _ => writeIndent)) fun _ =>
    bind (setOpenEnded 0) fun _ => bind (writeVersion _) fun _ =>
    bind (forM fun d _ => writeTagDirective d) fun _ => bind (onlyIf writeDocumentStartMarker) fun _ =>
    bind (setState _) fun _ => setOpenEnded 0

theorem endStream : Coupled C endStream endStream :=
  get fun _ _ _ _ => bind (onlyIf (bind writeDocumentEndMarker fun _ => bind (setOpenEnded 0)
    fun _ => writeIndent)) fun _ => bind flush fun _ => setState _

theorem emitDocumentStart (event : Event) (first : Bool) :
    Coupled C (emitDocumentStart event first) (emitDocumentStart event first) := by
  rcases event with ⟨data, _, _⟩
  cases data with
  | documentStart versionDirective tagDirectives implicit => exact startDocument _ _ _ _
  | streamEnd => exact endStream
  | _ => exact emitterError _

theorem emitDocumentContent (event : Event) :
    Coupled C (emitDocumentContent event) (emitDocumentContent event) :=
  bind (pushState _) fun _ => emitNode _ _ _ _ _

theorem closeDocument (implicit : Bool) :
    Coupled C (closeDocument implicit) (closeDocument implicit) :=
  ite (update (fun _ _ => rfl) (fun _ => rfl) fun _ h => h)
    (bind writeDocumentEndMarker fun _ => bind (setOpenEnded 0) fun _ => writeIndent)

theorem emitDocumentEnd (event : Event) : Coupled C (emitDocumentEnd event) (emitDocumentEnd event) := by
  rcases event with ⟨data, _, _⟩
  cases data with
  | documentEnd implicit =>
    exact bind writeIndent fun _ => bind (closeDocument _) fun _ => bind flush fun _ =>
      update (fun _ _ => rfl) (fun _ => rfl) fun _ h => h
  | _ => exact emitterError _

end Documents

section Collections

theorem openFlow {bracket : Char} (h : OneByte (ascii [bracket])) :
    Coupled C (openFlow bracket) (openFlow bracket) :=
  bind (writeIndicator h _ _ _) fun _ => bind (increaseIndent _ _) fun _ => addFlowLevel _

theorem closeFlow {bracket : Char} (h : OneByte (ascii [bracket])) (first : Bool) :
    Coupled C (closeFlow bracket first) (closeFlow bracket first) :=
  bind (addFlowLevel _) fun _ => bind popIndent fun _ => get fun _ _ _ _ =>
    bind (onlyIf (bind (writeIndicator (by decide) _ _ _) fun _ => writeIndent)) fun _ =>
      bind (writeIndicator h _ _ _) fun _ => popState

theorem breakLongLine : Coupled C breakLongLine breakLongLine := get fun _ _ _ _ => onlyIf writeIndent

theorem separateEntries (first : Bool) : Coupled C (separateEntries first) (separateEntries first) :=
  bind (onlyIf (writeIndicator (by decide) _ _ _)) fun _ => breakLongLine

theorem emitFlowSequenceItem (event : Event) (first : Bool) :
    Coupled C (emitFlowSequenceItem event first) (emitFlowSequenceItem event first) :=
  bind (onlyIf (openFlow (by decide))) fun _ => ite (closeFlow (by decide) _)
    (bind (separateEntries _) fun _ => bind (pushState _) fun _ => emitNode _ _ _ _ _)

theorem emitFlowMappingKey (event : Event) (first : Bool) :
    Coupled C (emitFlowMappingKey event first) (emitFlowMappingKey event first) :=
  bind (onlyIf (openFlow (by decide))) fun _ =>
    ite (get fun _ _ _ _ => ite (throw _) (closeFlow (by decide) _))
      (bind (separateEntries _) fun _ => get fun _ _ _ _ =>
        ite (bind (pushState _) fun _ => emitNode _ _ _ _ _)
          (bind (writeIndicator (by decide) _ _ _) fun _ => bind (pushState _) fun _ =>
            emitNode _ _ _ _ _))

theorem emitFlowMappingValue (event : Event) (simple : Bool) :
    Coupled C (emitFlowMappingValue event simple) (emitFlowMappingValue event simple) :=
  bind (ite (writeIndicator (by decide) _ _ _)
    (bind breakLongLine fun _ => writeIndicator (by decide) _ _ _)) fun _ =>
    bind (pushState _) fun _ => emitNode _ _ _ _ _

theorem closeBlock : Coupled C (closeBlock : EmitM σ Unit) closeBlock :=
  bind popIndent fun _ => popState

theorem emitBlockSequenceItem (event : Event) (first : Bool) :
    Coupled C (emitBlockSequenceItem event first) (emitBlockSequenceItem event first) :=
  get fun _ _ _ _ => bind (onlyIf (increaseIndent _ _)) fun _ => ite closeBlock
    (bind writeIndent fun _ => bind (writeIndicator (by decide) _ _ _) fun _ =>
      bind (pushState _) fun _ => emitNode _ _ _ _ _)

theorem emitBlockMappingKey (event : Event) (first : Bool) :
    Coupled C (emitBlockMappingKey event first) (emitBlockMappingKey event first) :=
  bind (onlyIf (increaseIndent _ _)) fun _ => ite closeBlock
    (bind writeIndent fun _ => get fun _ _ _ _ =>
      ite (bind (pushState _) fun _ => emitNode _ _ _ _ _)
        (bind (writeIndicator (by decide) _ _ _) fun _ => bind (pushState _) fun _ =>
          emitNode _ _ _ _ _))

theorem emitBlockMappingValue (event : Event) (simple : Bool) :
    Coupled C (emitBlockMappingValue event simple) (emitBlockMappingValue event simple) :=
  bind (ite (writeIndicator (by decide) _ _ _)
    (bind writeIndent fun _ => writeIndicator (by decide) _ _ _)) fun _ =>
    bind (pushState _) fun _ => emitNode _ _ _ _ _

end Collections

section Runs

theorem runState (state : EmitterState) (event : Event) :
    Coupled C (runState state event) (runState state event) := by
  cases state with
  | streamStart => exact emitStreamStart _
  | firstDocumentStart => exact emitDocumentStart _ _
  | documentStart => exact emitDocumentStart _ _
  | documentContent => exact emitDocumentContent _
  | documentEnd => exact emitDocumentEnd _
  | flowSequenceFirstItem => exact emitFlowSequenceItem _ _
  | flowSequenceItem => exact emitFlowSequenceItem _ _
  | flowMappingFirstKey => exact emitFlowMappingKey _ _
  | flowMappingKey => exact emitFlowMappingKey _ _
  | flowMappingSimpleValue => exact emitFlowMappingValue _ _
  | flowMappingValue => exact emitFlowMappingValue _ _
  | blockSequenceFirstItem => exact emitBlockSequenceItem _ _
  | blockSequenceItem => exact emitBlockSequenceItem _ _
  | blockMappingFirstKey => exact emitBlockMappingKey _ _
  | blockMappingKey => exact emitBlockMappingKey _ _
  | blockMappingSimpleValue => exact emitBlockMappingValue _ _
  | blockMappingValue => exact emitBlockMappingValue _ _
  | «end» => exact emitterError _

theorem processEvent (event : Event) : Coupled C (processEvent event) (processEvent event) :=
  bind (analyzeEvent _) fun _ => bind (get fun _ _ _ _ => runState _ _) fun _ =>
    update (fun _ _ => rfl) (fun _ => rfl) fun _ h => h

theorem processEvents : ∀ n, Coupled C (processEvents n) (processEvents n)
  | 0 => pure ()
  | n + 1 => by
    refine get fun s o o' _ => ?_
    dsimp only [through]
    rcases s.events with _ | ⟨event, events⟩
    · exact pure ()
    · exact ite (pure ()) (bind (processEvent _) fun _ => processEvents n)

theorem emit (event : Event) : Coupled C (emit event) (emit event) :=
  bind (update (fun _ _ => rfl) (fun _ => rfl) fun _ h => h) fun _ => get fun _ _ _ _ =>
    processEvents _

end Runs

end Coupled

end Emitter

end LibYaml
