import LibYaml.Scanner.Bookkeeping

/-!
# Fetching tokens

Every function that fetches a token leaves the scanner between two tokens, with the token in the
queue, or fails and leaves the structures around the tokens as they have to be.
-/

namespace LibYaml

namespace Scanner

open Fallible Brackets

variable {ι : Type} {due : Mark → Prop} {w : Mark} {delivered : List Token} {s : Scanner ι}

section Fetch

/-- A run from a sound state that scans a token fails in good order. -/
theorem Stopped.failed {o : Scanner ι} {e : Fault} (h : Sound delivered o) (hs : Stopped o e s) :
    Failed delivered e s :=
  hs.fault.imp_right fun ⟨problem, hp⟩ => ⟨problem, hp, (h.of_kept hs.kept).keyed, fun _ => h.of_kept hs.kept⟩

/-- What does not matter for a token that is not a simple key's ':'. -/
theorem Holds.fetching {α : Type} {x : ScanM ι α} {Q : α → Scanner ι → Prop}
    (h : Holds (Settled delivered) x Q (Failed delivered)) : Holds (Fetching delivered) x Q (Failed delivered) :=
  fun s hs => h s hs.1

theorem allow_settled {allowed : Bool} :
    Holds (Settled delivered) (allowSimpleKey (ι := ι) allowed) (fun _ => Settled delivered) (Failed delivered) :=
  fun _ h => h.of_kept rfl (.refl _)

theorem startBlockCollection_spec {problem : String} {data : TokenData} (hb : bracket data.type = some .U) :
    Holds (Settled delivered) (startBlockCollection (ι := ι) problem data) (fun _ => Settled delivered)
      (Failed delivered) := by
  intro s h
  unfold startBlockCollection
  rw [bind_of_ok (get_apply s)]
  cases hflow : decide (s.flowLevel = 0) with
  | false => exact h
  | true =>
    rw [onlyIf, if_pos rfl]
    cases hallowed : s.simpleKeyAllowed with
    | false => exact h.toSound.failed _
    | true =>
      exact ((rollIndent_here hb s.mark).weaken (fun _ h => h) (fun _ _ h => h.1) fun _ _ h => h) s ⟨h, rfl⟩

/-- What is told of the state does not matter. -/
theorem get_settled {f : Scanner ι → ScanM ι Unit} {Q : Unit → Scanner ι → Prop} {P : Scanner ι → Prop}
    (h : ∀ t, Holds P (f t) Q (Failed delivered)) : Holds P (get >>= f) Q (Failed delivered) :=
  fun s hs => h s s hs

/-- A token that has been scanned joins the queue. -/
theorem Scanned.enqueue {o : Scanner ι} {token : Token} (h : Running (fun _ => False) o.mark delivered o)
    (hs : Scanned o token s) : Settled delivered { s with tokens := s.tokens ++ [token] } := by
  have hrun : Running (fun _ => False) o.mark delivered s :=
    h.of_kept hs.came.kept (hs.came.past.trans hs.came.up)
  have hstart := hs.start
  have htype := hs.type
  refine hrun.enqueue token ?_ ?_ ?_ ?_ (hrun.near.queue ?_)
  · rw [hstart]
    exact .refl _
  · rw [hstart]
    exact hs.came.past
  · rw [hstart]
    exact hrun.up
  · cases ht : token.type <;> rw [ht] at htype <;> first | rfl | cases htype
  · intro hsimple
    rw [hsimple.1] at htype
    cases htype

theorem allow_saved {allowed : Bool} :
    Holds (fun s : Scanner ι => Running (fun _ => False) s.mark delivered s) (allowSimpleKey allowed)
      (fun _ s => Running (fun _ => False) s.mark delivered s) (Failed delivered) :=
  fun _ h => h.of_kept rfl h.up

theorem scanThen_spec {scan : ScanM ι Token} (hscan : ∀ o, Holds (· = o) scan (Scanned o) (Stopped o)) :
    Holds (fun s => Running (fun _ => False) s.mark delivered s) (scan >>= enqueueToken) (fun _ => Settled delivered)
      (Failed delivered) := by
  intro s h
  have hs := hscan s s rfl
  rw [bind_apply]
  cases hr : scan s with
  | error e t =>
    rw [hr] at hs
    exact hs.failed h.toSound
  | ok token t =>
    rw [hr] at hs
    exact hs.enqueue h

theorem fetchNode_spec {scan : ScanM ι Token} (hscan : ∀ o, Holds (· = o) scan (Scanned o) (Stopped o)) :
    Holds (Settled delivered) (fetchNode scan) (fun _ => Settled delivered) (Failed delivered) :=
  saveSimpleKey_spec.bind fun _ => allow_saved.bind fun _ => scanThen_spec hscan

/-- Where a simple key's token goes. -/
theorem Running.fits_key {key : SimpleKey} {keys : List SimpleKey} (h : Running due w delivered s)
    (hk : s.simpleKeys = key :: keys) (hp : key.possible = true) (token : Token) (hstart : token.startMark = key.mark)
    (hfinish : token.endMark = key.mark) :
    let stream := delivered ++ s.tokens
    (s.tokensParsed ≤ key.tokenNumber ∧ key.tokenNumber - s.tokensParsed ≤ s.tokens.length) ∧
      delivered ++ s.tokens.insertIdx (key.tokenNumber - s.tokensParsed) token
        = stream.take key.tokenNumber ++ token :: stream.drop key.tokenNumber ∧
      Fits (stream.take key.tokenNumber) (stream.drop key.tokenNumber) token s.simpleKeys := by
  have hmem : key ∈ s.simpleKeys := hk ▸ List.mem_cons_self
  obtain ⟨hlow, hhigh⟩ := h.numbered key hmem hp
  obtain ⟨hbelow, habove⟩ := h.placed key hmem hp
  have hparsed := h.parsed
  have hnested := h.nested
  unfold nextNumber at hhigh
  rw [hk] at hnested
  refine ⟨⟨hlow, by omega⟩, ?_, ?_, ?_, ?_, ?_⟩
  · rw [hparsed]
    exact insert_eq (by omega) (by omega)
  · rw [hstart]
    exact hbelow
  · rw [hstart]
    exact habove
  · rw [hstart, hfinish]
    exact .refl _
  · rw [hk]
    have hlength : (List.take key.tokenNumber (delivered ++ s.tokens)).length = key.tokenNumber := by
      rw [List.length_take, List.length_append]
      omega
    rw [hlength, hstart]
    refine Candidates.cons (fun _ => ⟨le_rfl, .refl _⟩) fun lower hl hpl => ?_
    obtain ⟨hn, hm⟩ := (List.pairwise_cons.mp hnested).1 lower hl hp hpl
    exact ⟨hn.le, hm⟩

/-- A block is opened where a simple key started. -/
theorem rollIndent_key {key : SimpleKey} {keys : List SimpleKey} (hk : s.simpleKeys = key :: keys)
    (hp : key.possible = true) (h : Running due w delivered s) :
    Holds (· = s) (rollIndent key.mark.column (some key.tokenNumber) .blockMappingStart key.mark)
      (fun _ t => Running due w delivered t ∧ t.mark = s.mark ∧ t.simpleKeys = s.simpleKeys) (Failed delivered) := by
  intro s' hs
  rw [show s' = s from hs]
  cases hroll : (decide (s.flowLevel = 0) && decide (s.indent < (key.mark.column : Int))) with
  | false =>
    unfold rollIndent
    rw [bind_of_ok (get_apply s), hroll]
    exact ⟨h, rfl, rfl⟩
  | true =>
    have hdeeper : s.indent < (key.mark.column : Int) := of_decide_eq_true (Bool.and_eq_true_iff.mp hroll).2
    by_cases hmax : maxInt < key.mark.column
    · unfold rollIndent
      rw [bind_of_ok (get_apply s), hroll, onlyIf, if_pos rfl, bind_of_ok (set_apply s _), if_pos hmax]
      exact Keyed.failed ⟨h.numbered, h.nested⟩
    · obtain ⟨hrange, hnew, hfits⟩ := h.fits_key hk hp ⟨.blockMappingStart, key.mark, key.mark⟩ rfl rfl
      have hsplit := (List.take_append_drop key.tokenNumber (delivered ++ s.tokens)).symm
      have hblocks := h.blocks
      have hnear := h.near
      rw [hsplit] at hnear
      rw [hsplit, brackets_append] at hblocks
      have hrun : rollIndent key.mark.column (some key.tokenNumber) .blockMappingStart key.mark s = .ok ⟨⟩ { s with
          indent := key.mark.column, indents := s.indent :: s.indents
          tokens := s.tokens.insertIdx (key.tokenNumber - s.tokensParsed)
            ⟨.blockMappingStart, key.mark, key.mark⟩ } := by
        unfold rollIndent
        rw [bind_of_ok (get_apply s), hroll, onlyIf, if_pos rfl, bind_of_ok (set_apply s _), if_neg hmax,
          bind_of_ok (modify_apply _ _)]
        exact if_pos hrange
      rw [hrun]
      refine ⟨h.put hsplit hnew hfits ?_ ?_ ?_ (hnear.insert ?_) (.refl _) ?_ h.up, rfl, rfl⟩
      · refine List.pairwise_cons.mpr ⟨fun i hi => ?_, h.columns⟩
        rcases List.mem_cons.mp hi with rfl | hi
        · exact hdeeper
        · exact lt_trans ((List.pairwise_cons.mp h.columns).1 i hi) hdeeper
      · rw [List.getLast?_cons_cons]
        exact h.bottom
      · have hone : brackets ((⟨.blockMappingStart, key.mark, key.mark⟩ : Token)
            :: (delivered ++ s.tokens).drop key.tokenNumber)
              = .U :: brackets ((delivered ++ s.tokens).drop key.tokenNumber) := rfl
        rw [brackets_append, hone]
        exact hblocks.insert
      · exact not_simple_of_bracket (show bracket TokenType.blockMappingStart = some .U from rfl)
      · exact h.keys key (hk ▸ List.mem_cons_self) hp

/-- The end of the stream stands at the start of a line. -/
theorem fetchStreamEnd_spec :
    Holds (Settled delivered) (fetchStreamEnd (ι := ι)) (fun _ => Settled delivered) (Failed delivered) := by
  have hend : Holds (Settled delivered) (modify fun s : Scanner ι =>
      if s.mark.column = 0 then s else { s with mark := ⟨s.mark.index, s.mark.line + 1, 0⟩ })
      (fun _ s => Settled delivered s ∧ True) (Failed delivered) := by
    refine Holds.modify fun s h => ⟨?_, trivial⟩
    split_ifs with hcolumn
    · exact h
    · exact h.of_kept rfl ⟨le_rfl, Nat.le_succ _⟩
  refine hend.bind fun _ => (unrollIndent_keys (fun _ _ => True) le_rfl).bind fun _ => ?_
  refine Holds.bind (fun s h => removeSimpleKey_spec s h.1) fun _ => allow_settled.bind fun _ => ?_
  intro s h
  exact h.enqueue ⟨.streamEnd, s.mark, s.mark⟩ (.refl _) (.refl _) (.refl _) rfl
    (h.near.queue fun hs => TokenType.noConfusion hs.1)

/-- What a part of a token does to the state between two tokens. -/
theorem Walks.settled {x : ScanM ι Unit} (hx : Walks x) :
    Holds (Settled delivered) x (fun _ => Settled delivered) (Failed delivered) := by
  intro s h
  have hw := hx s s.mark s (.start s)
  cases hs : x s with
  | ok u t =>
    rw [hs] at hw
    exact h.of_kept hw.kept hw.up
  | error e t =>
    rw [hs] at hw
    exact hw.failed h.toSound

/-- Before the first token. -/
def Untouched (s : Scanner ι) : Prop := s.kept = (init () : Scanner Unit).kept

theorem Untouched.keyed (h : Untouched s) : Keyed s := by
  obtain ⟨-, -, -, -, -, hkeys, -⟩ := fields_of_kept h
  have hkeys : s.simpleKeys = [] := hkeys
  refine ⟨?_, ?_⟩ <;> rw [hkeys]
  · exact fun _ hk => absurd hk List.not_mem_nil
  · exact List.Pairwise.nil

/-- What holds between two tokens, the first one included. -/
def Between (delivered : List Token) (s : Scanner ι) : Prop :=
  (delivered = [] ∧ Untouched s) ∨ Settled delivered s

/-- How the scanner fails: unless memory has run out everything is in order. -/
def Ended (delivered : List Token) (e : Fault) (s : Scanner ι) : Prop :=
  e = .outOfFuel ∨ ∃ problem, e = .reported problem ∧ Keyed s ∧
    (problem ≠ .memory → Untouched s ∨ Sound delivered s)

theorem Failed.ended {e : Fault} (h : Failed delivered e s) : Ended delivered e s :=
  h.imp_right fun ⟨problem, he, hk, h⟩ => ⟨problem, he, hk, fun hm => .inr (h hm)⟩

variable [Input ι]

theorem skips_eq : ∀ (n : Nat) (s : Scanner ι), ∃ input, skips n s
    = .ok ⟨⟩ { s with mark := ⟨s.mark.index + n, s.mark.line, s.mark.column + n⟩, input := input }
  | 0, s => ⟨s.input, rfl⟩
  | n + 1, s => by
    obtain ⟨input, h⟩ := skips_eq n (passOver (width (Input.view s.input)) s)
    refine ⟨input, ?_⟩
    have hskip : skip s = .ok ⟨⟩ (passOver (width (Input.view s.input)) s) := rfl
    rw [skips, bind_of_ok hskip, h]
    simp only [passOver, Nat.add_assoc, Nat.add_comm 1 n]

/-- An indicator joins the queue. -/
theorem enqueueIndicator_near {n : Nat} {data : TokenData} (hb : bracket data.type = none)
    (h : Running due w delivered s)
    (hnear : ∀ finish, finish.index = s.mark.index + n →
      Near (fun _ => False) (delivered ++ s.tokens ++ [⟨data, s.mark, finish⟩])) :
    ∃ t, enqueueIndicator n data s = .ok ⟨⟩ t ∧ Settled delivered t := by
  obtain ⟨input, hskips⟩ := skips_eq n s
  have hup : s.mark.Before ⟨s.mark.index + n, s.mark.line, s.mark.column + n⟩ := ⟨Nat.le_add_right _ _, le_rfl⟩
  have hrun : Running due w delivered { s with
      mark := ⟨s.mark.index + n, s.mark.line, s.mark.column + n⟩, input := input } :=
    h.of_kept rfl (h.up.trans hup)
  have hq := hrun.enqueue ⟨data, s.mark, _⟩ h.up hup hup hb (hnear _ rfl)
  refine ⟨_, ?_, hq⟩
  unfold enqueueIndicator
  rw [bind_of_ok (show getMark s = .ok s.mark s from rfl), bind_of_ok hskips]
  rfl

theorem enqueueIndicator_spec {n : Nat} {data : TokenData} (hn : 0 < n) (hb : bracket data.type = none) :
    Holds (Running (fun _ => False) w delivered) (enqueueIndicator (ι := ι) n data) (fun _ => Settled delivered)
      (Failed delivered) := by
  intro s h
  obtain ⟨t, ht, hq⟩ := enqueueIndicator_near (n := n) hb h fun finish hf => h.near.queue fun hs => by
    have : s.mark = finish := hs.2
    rw [this] at hf
    omega
  rw [ht]
  exact hq

theorem indicator_settled {n : Nat} {data : TokenData} (hn : 0 < n) (hb : bracket data.type = none) :
    Holds (Settled delivered) (enqueueIndicator (ι := ι) n data) (fun _ => Settled delivered) (Failed delivered) :=
  fun s h => enqueueIndicator_spec hn hb s h.toRunning

theorem fetchFlowCollectionStart_spec {data : TokenData} (hb : bracket data.type = none) :
    Holds (Settled delivered) (fetchFlowCollectionStart (ι := ι) data) (fun _ => Settled delivered)
      (Failed delivered) := by
  intro s h
  have hw : Holds (· = s) (saveSimpleKey (ι := ι)) (fun _ t => ∃ w, Running (fun _ => False) w delivered t)
      (Failed delivered) := fun t ht => by
    rw [show t = s from ht]
    exact (saveSimpleKey_spec.weaken (fun _ h => h) (fun _ t h => ⟨t.mark, h⟩) fun _ _ h => h) s h
  refine (hw.bind fun _ => ?_) s rfl
  rintro t ⟨w, ht⟩
  exact (increaseFlowLevel_spec.bind fun _ => allowSimpleKey_spec.bind fun _ => enqueueIndicator_spec (by decide) hb)
    t ht

theorem fetchFlowCollectionEnd_spec {data : TokenData} (hb : bracket data.type = none) :
    Holds (Settled delivered) (fetchFlowCollectionEnd (ι := ι) data) (fun _ => Settled delivered) (Failed delivered) :=
  removeSimpleKey_spec.bind fun _ => decreaseFlowLevel_spec.bind fun _ => allow_settled.bind fun _ =>
    indicator_settled (by decide) hb

theorem fetchFlowEntry_spec :
    Holds (Settled delivered) (fetchFlowEntry (ι := ι)) (fun _ => Settled delivered) (Failed delivered) :=
  removeSimpleKey_spec.bind fun _ => allow_settled.bind fun _ => indicator_settled (by decide) rfl

theorem fetchDocumentIndicator_spec {data : TokenData} (hb : bracket data.type = none) :
    Holds (Fetching delivered) (fetchDocumentIndicator (ι := ι) data) (fun _ => Settled delivered) (Failed delivered) :=
  (unrollIndent_spec le_rfl).bind fun _ => Holds.fetching <| removeSimpleKey_spec.bind fun _ =>
    allow_settled.bind fun _ => indicator_settled (by decide) hb

theorem fetchBlockEntry_spec :
    Holds (Settled delivered) (fetchBlockEntry (ι := ι)) (fun _ => Settled delivered) (Failed delivered) :=
  (startBlockCollection_spec rfl).bind fun _ => removeSimpleKey_spec.bind fun _ => allow_settled.bind fun _ =>
    indicator_settled (by decide) rfl

theorem fetchKey_spec :
    Holds (Settled delivered) (fetchKey (ι := ι)) (fun _ => Settled delivered) (Failed delivered) :=
  (startBlockCollection_spec rfl).bind fun _ => removeSimpleKey_spec.bind fun _ => get_settled fun _ =>
    allow_settled.bind fun _ => indicator_settled (by decide) rfl

theorem fetchBlockScalar_spec {literal : Bool} :
    Holds (Settled delivered) (fetchBlockScalar (ι := ι) literal) (fun _ => Settled delivered) (Failed delivered) :=
  removeSimpleKey_spec.bind fun _ => allow_settled.bind fun _ s h =>
    scanThen_spec (fun _ => scanBlockScalar_scanned) s h.toRunning

theorem fetchDirective_spec :
    Holds (Fetching delivered) (fetchDirective (ι := ι)) (fun _ => Settled delivered) (Failed delivered) :=
  (unrollIndent_spec le_rfl).bind fun _ => Holds.fetching <| removeSimpleKey_spec.bind fun _ =>
    allow_settled.bind fun _ s h => scanThen_spec (fun _ => scanDirective_scanned) s h.toRunning

/-- The ':' behind a simple key. -/
theorem fetchValue_key {key : SimpleKey} {keys : List SimpleKey} (h : Fetching delivered s)
    (hk : s.simpleKeys = key :: keys) (hp : key.possible = true) :
    Holds (· = s) (do
      insertToken key.tokenNumber ⟨.key, key.mark, key.mark⟩
      rollIndent key.mark.column (some key.tokenNumber) .blockMappingStart key.mark
      setTopSimpleKey { key with possible := false }
      allowSimpleKey false
      enqueueIndicator 1 .value : ScanM ι Unit) (fun _ => Settled delivered) (Failed delivered) := by
  obtain ⟨h, hfresh⟩ := h
  have hmem : key ∈ s.simpleKeys := hk ▸ List.mem_cons_self
  have hreaches := reaches_of_fresh hp (hfresh key hmem hp) (h.keys key hmem hp)
  obtain ⟨hrange, hnew, hfits⟩ := h.fits_key hk hp ⟨.key, key.mark, key.mark⟩ rfl rfl
  have hsplit := (List.take_append_drop key.tokenNumber (delivered ++ s.tokens)).symm
  have hblocks : Opened s.indents.length (brackets ((delivered ++ s.tokens).take key.tokenNumber
      ++ ⟨.key, key.mark, key.mark⟩ :: (delivered ++ s.tokens).drop key.tokenNumber)) := by
    have hone : brackets ((⟨.key, key.mark, key.mark⟩ : Token) :: (delivered ++ s.tokens).drop key.tokenNumber)
        = brackets ((delivered ++ s.tokens).drop key.tokenNumber) := rfl
    rw [brackets_append, hone, ← brackets_append, ← hsplit]
    exact h.blocks
  have hnear := h.near
  rw [hsplit] at hnear
  have hrun : Running (· = key.mark) s.mark delivered { s with
      tokens := s.tokens.insertIdx (key.tokenNumber - s.tokensParsed) ⟨.key, key.mark, key.mark⟩ } :=
    h.put hsplit hnew hfits h.columns h.bottom hblocks hnear.insertKey (.refl _) (h.keys key hmem hp) (.refl _)
  have hinsert : insertToken key.tokenNumber ⟨.key, key.mark, key.mark⟩ s = .ok ⟨⟩ { s with
      tokens := s.tokens.insertIdx (key.tokenNumber - s.tokensParsed) ⟨.key, key.mark, key.mark⟩ } := if_pos hrange
  intro s' hs
  rw [show s' = s from hs, bind_of_ok hinsert]
  have hroll := rollIndent_key (s := { s with
    tokens := s.tokens.insertIdx (key.tokenNumber - s.tokensParsed) ⟨.key, key.mark, key.mark⟩ }) hk hp hrun
  refine (hroll.bind fun _ t => ?_) _ rfl
  rintro ⟨ht, hmark, hkeys⟩
  have hset : setTopSimpleKey { key with possible := false } t
      = .ok ⟨⟩ { t with simpleKeys := { key with possible := false } :: keys } := by
    have : t.simpleKeys = key :: keys := hkeys.trans hk
    simp [setTopSimpleKey, this]
  have hclear := ht.clear (cleared_top (hkeys.trans hk))
  have hallow : Running (· = key.mark) s.mark delivered { t with
      simpleKeys := { key with possible := false } :: keys, simpleKeyAllowed := false } :=
    hclear.of_kept rfl hclear.up
  obtain ⟨u, hu, hq⟩ := enqueueIndicator_near (n := 1) (show bracket TokenData.value.type = none from rfl) hallow
    fun finish _ =>
    hallow.near.value rfl (hmark ▸ hreaches)
  rw [bind_of_ok hset]
  have hstep : (allowSimpleKey false >>= fun _ => enqueueIndicator 1 .value)
      { t with simpleKeys := { key with possible := false } :: keys } = .ok ⟨⟩ u := hu
  rw [hstep]
  exact hq

theorem fetchValue_spec :
    Holds (Fetching delivered) (fetchValue (ι := ι)) (fun _ => Settled delivered) (Failed delivered) := by
  intro s h
  obtain ⟨key, keys, hk⟩ := h.1.toSound.top
  have top : topSimpleKey s = .ok key s := by simp only [topSimpleKey, hk]
  unfold fetchValue
  rw [bind_of_ok top]
  cases hp : key.possible with
  | true => exact fetchValue_key h hk hp s rfl
  | false =>
    exact ((startBlockCollection_spec rfl).bind fun _ => get_settled fun _ => allow_settled.bind fun _ =>
      indicator_settled (by decide) rfl) s h.1

theorem fetchStreamStart_spec :
    Holds (Untouched (ι := ι)) (fetchStreamStart (ι := ι)) (fun _ => Settled []) (Failed []) := by
  intro s h
  obtain ⟨-, h2, h3, h4, h5, h6, -⟩ := fields_of_kept h
  have h2 : s.indents = [] := h2
  have h3 : s.flowLevel = 0 := h3
  have h4 : s.tokens = [] := h4
  have h5 : s.tokensParsed = 0 := h5
  have h6 : s.simpleKeys = [] := h6
  have hno {P : SimpleKey → Prop} : Candidates P (noSimpleKey :: s.simpleKeys) := by
    rw [h6]
    exact Candidates.cons (fun hp => absurd hp Bool.false_ne_true) fun key hk => absurd hk List.not_mem_nil
  have hnone {P : Token → Prop} : ∀ t ∈ [] ++ s.tokens, P t := by
    rw [h4]
    exact fun t ht => absurd ht List.not_mem_nil
  have hstart : Running (fun _ => False) s.mark [] { s with
      indent := -1, simpleKeys := noSimpleKey :: s.simpleKeys, simpleKeyAllowed := true
      streamStartProduced := true } :=
    { started := rfl
      columns := by
        rw [h2]
        exact List.pairwise_singleton _ _
      bottom := by
        rw [h2]
        rfl
      levels := by
        rw [h6, h3]
        rfl
      numbered := hno
      nested := by
        rw [h6]
        exact List.pairwise_singleton _ _
      parsed := h5
      blocks := by
        rw [h2, h4]
        exact Opened.nil
      ordered := by
        refine ⟨?_, hnone⟩
        rw [h4]
        exact List.Pairwise.nil
      placed := hno
      near := hnone
      behind := hnone
      keys := hno
      up := .refl _ }
  exact hstart.enqueue ⟨.streamStart (Input.encoding s.input), s.mark, s.mark⟩ (.refl _) (.refl _) (.refl _) rfl
    (hstart.near.queue fun hs => TokenType.noConfusion hs.1)

/-- One of two ways to go on. -/
theorem holds_look {P : Scanner ι → Prop} {Q : Unit → Scanner ι → Prop} {E : Fault → Scanner ι → Prop} {c : View → Bool}
    {x y : ScanM ι Unit} (hx : Holds P x Q E) (hy : Holds P y Q E) :
    Holds P (look c >>= fun b => if b = true then x else y) Q E :=
  fun s h => Holds.ite (fun _ => hx) (fun _ => hy) s h

theorem fetchToken_spec :
    Holds (Fetching delivered) (fetchToken (ι := ι)) (fun _ => Settled delivered) (Failed delivered) := by
  have htell : Holds (Fetching delivered) (inFlow (ι := ι)) (fun _ => Fetching delivered) (Failed delivered) :=
    fun _ h => h
  have hmark : Holds (Fetching delivered) (getMark (ι := ι)) (fun _ => Fetching delivered) (Failed delivered) :=
    fun _ h => h
  refine htell.bind fun flow => hmark.bind fun mark => ?_
  refine holds_look (Holds.fetching fetchStreamEnd_spec) (holds_look fetchDirective_spec ?_)
  refine holds_look (fetchDocumentIndicator_spec rfl) (holds_look (fetchDocumentIndicator_spec rfl) ?_)
  refine holds_look (Holds.fetching (fetchFlowCollectionStart_spec rfl)) ?_
  refine holds_look (Holds.fetching (fetchFlowCollectionStart_spec rfl)) ?_
  refine holds_look (Holds.fetching (fetchFlowCollectionEnd_spec rfl)) ?_
  refine holds_look (Holds.fetching (fetchFlowCollectionEnd_spec rfl)) ?_
  refine holds_look (Holds.fetching fetchFlowEntry_spec) (holds_look (Holds.fetching fetchBlockEntry_spec) ?_)
  refine holds_look (Holds.fetching fetchKey_spec) (holds_look fetchValue_spec ?_)
  refine holds_look (Holds.fetching (fetchNode_spec fun _ => scanAnchor_scanned)) ?_
  refine holds_look (Holds.fetching (fetchNode_spec fun _ => scanAnchor_scanned)) ?_
  refine holds_look (Holds.fetching (fetchNode_spec fun _ => scanTag_scanned)) ?_
  refine holds_look (Holds.fetching fetchBlockScalar_spec) (holds_look (Holds.fetching fetchBlockScalar_spec) ?_)
  refine holds_look (Holds.fetching (fetchNode_spec fun _ => scanFlowScalar_scanned)) ?_
  refine holds_look (Holds.fetching (fetchNode_spec fun _ => scanFlowScalar_scanned)) ?_
  refine holds_look (Holds.fetching (fetchNode_spec fun _ => scanPlainScalar_scanned)) ?_
  exact fun s h => h.1.toSound.failed _

theorem cache_untouched {n : Nat} : Holds Untouched (cache (ι := ι) n) (fun _ => Untouched) (Ended []) := by
  intro s h
  have hw := Walks.cache (n := n) s s.mark s (.start s)
  cases hs : cache n s with
  | ok u t =>
    rw [hs] at hw
    exact hw.kept.trans h
  | error e t =>
    rw [hs] at hw
    have ht : Untouched t := hw.kept.trans h
    exact hw.fault.imp_right fun ⟨problem, hp⟩ => ⟨problem, hp, ht.keyed, fun _ => .inl ht⟩

/-- Looking further ahead makes no candidate stale. -/
theorem cache_fetching {n : Nat} :
    Holds (Fetching delivered) (cache (ι := ι) n) (fun _ => Fetching delivered) (Failed delivered) := by
  intro s h
  have hw := Walks.settled (Walks.cache (n := n)) s h.1
  unfold cache at hw ⊢
  cases hs : Input.cache n s.input with
  | ok u input =>
    rw [hs] at hw
    exact ⟨hw, h.2⟩
  | error problem input =>
    rw [hs] at hw
    exact hw

/-- How the scanner comes to the place of the next token. -/
def approach : ScanM ι Unit := do
  cache 1
  scanToNextToken
  staleSimpleKeys
  let s ← get
  unrollIndent s.mark.column
  cache 4

theorem fetchNextToken_started (hs : s.streamStartProduced = true) :
    fetchNextToken s = (approach >>= fun _ => fetchToken) s := by
  have hstart : ∀ u t, cache 1 s = .ok u t → t.streamStartProduced = true := by
    intro u t ht
    unfold cache at ht
    cases hi : Input.cache 1 s.input with
    | ok _ input =>
      rw [hi] at ht
      cases ht
      exact hs
    | error problem input =>
      rw [hi] at ht
      cases ht
  have happroach : (approach >>= fun _ => fetchToken) = (cache 1 >>= fun _ => do
      scanToNextToken
      staleSimpleKeys
      let s ← get
      unrollIndent s.mark.column
      cache 4
      fetchToken : ScanM ι Unit) := by
    simp only [approach, bind_assoc]
  rw [happroach]
  cases hc : cache 1 s with
  | error e t => rw [fetchNextToken, bind_of_error hc, bind_of_error hc]
  | ok u t => rw [fetchNextToken, bind_of_ok hc, bind_of_ok hc, bind_of_ok (get_apply t), if_pos (hstart u t hc)]

theorem approach_spec : Holds (Settled delivered) (approach (ι := ι)) (fun _ => Fetching delivered) (Failed delivered) := by
  refine Walks.cache.settled.bind fun _ => Walks.scanToNextToken.settled.bind fun _ =>
    staleSimpleKeys_spec.bind fun _ => get_settled fun t => ?_
  exact (unrollIndent_spec (by omega)).bind fun _ => cache_fetching

theorem fetchNextToken_spec :
    Holds (Between delivered) (fetchNextToken (ι := ι)) (fun _ => Settled delivered) (Ended delivered) := by
  rintro s (⟨rfl, h⟩ | h)
  · refine (cache_untouched.bind fun _ t ht => ?_) s h
    obtain ⟨-, -, -, -, -, -, h7⟩ := fields_of_kept ht
    have h7 : t.streamStartProduced = false := h7
    rw [bind_of_ok (get_apply t), h7, if_neg Bool.false_ne_true]
    exact (fetchStreamStart_spec.weaken (fun _ h => h) (fun _ _ h => h) fun _ _ h => h.ended) t ht
  · rw [fetchNextToken_started h.started]
    exact ((approach_spec.bind fun _ => fetchToken_spec).weaken (fun _ h => h) (fun _ _ h => h) fun _ _ h => h.ended) s h

end Fetch

end Scanner

end LibYaml
