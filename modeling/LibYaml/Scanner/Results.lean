import LibYaml.Scanner.Listing

/-!
# What the calls return

`yaml_parser_scan` returns the tokens that the parser would take, one after another; behind the end of the
stream, or behind a failure, it returns empty tokens for ever.
-/

namespace LibYaml

open Fallible

namespace Scanner

variable {ι α : Type}

/-! ## What fetching leaves alone -/

/-- Whether the end of the stream has been handed over, and the error that has been recorded. -/
def outcome (s : Scanner ι) : Bool × Option Problem := (s.streamEndProduced, s.error)

theorem outcome_of_kept {s t : Scanner ι} (h : t.kept = s.kept) : t.outcome = s.outcome :=
  congrArg (fun k : Scanner Unit => (k.streamEndProduced, k.error)) h

/-- Only `yaml_parser_scan` itself changes the outcome. -/
abbrev Fetches (x : ScanM ι α) : Prop := Keeps outcome (fun _ => True) x

namespace Fetches

theorem walks {x : ScanM ι α} (hx : Walks x) : Fetches x := by
  rintro _ s rfl
  have hw := hx s s.mark s (.start s)
  cases hr : x s with
  | ok a t =>
    rw [hr] at hw
    exact outcome_of_kept hw.kept
  | error e t =>
    rw [hr] at hw
    exact ⟨outcome_of_kept hw.kept, trivial⟩

theorem fail {e : Fault} : Fetches (throw e : ScanM ι α) := .throw trivial

theorem change {f : Scanner ι → Scanner ι} (h : ∀ s, (f s).outcome = s.outcome) : Fetches (modify f : ScanM ι PUnit) :=
  .modify h

theorem enqueueToken {token : Token} : Fetches (enqueueToken token : ScanM ι Unit) := change fun _ => rfl

theorem insertToken {number : Nat} {token : Token} : Fetches (insertToken number token : ScanM ι Unit) := by
  rintro _ s rfl
  unfold Scanner.insertToken
  split_ifs
  · rfl
  · exact ⟨rfl, trivial⟩

theorem topSimpleKey : Fetches (topSimpleKey : ScanM ι SimpleKey) := by
  rintro _ s rfl
  unfold Scanner.topSimpleKey
  cases s.simpleKeys with
  | nil => exact ⟨rfl, trivial⟩
  | cons key keys => rfl

theorem setTopSimpleKey {key : SimpleKey} : Fetches (setTopSimpleKey key : ScanM ι Unit) := change fun _ => rfl

theorem missingColon {key : SimpleKey} : Fetches (missingColon key : ScanM ι Unit) := by
  rintro _ s rfl
  exact ⟨rfl, trivial⟩

theorem removeSimpleKey : Fetches (removeSimpleKey : ScanM ι Unit) :=
  topSimpleKey.bind fun _ => (Keeps.onlyIf missingColon).bind fun _ => setTopSimpleKey

theorem saveSimpleKey : Fetches (saveSimpleKey : ScanM ι Unit) :=
  .getThen fun _ => .onlyIf (removeSimpleKey.bind fun _ => setTopSimpleKey)

theorem allowSimpleKey {b : Bool} : Fetches (allowSimpleKey b : ScanM ι Unit) := change fun _ => rfl

theorem staleSimpleKeys : Fetches (staleSimpleKeys : ScanM ι Unit) := by
  rintro _ s rfl
  simp only [Scanner.staleSimpleKeys, bind_apply, get_apply, set_apply]
  cases (staleKeys s.mark s.simpleKeys).2 with
  | none => rfl
  | some key => exact ⟨rfl, trivial⟩

theorem increaseFlowLevel : Fetches (increaseFlowLevel : ScanM ι Unit) := by
  rintro _ s rfl
  simp only [Scanner.increaseFlowLevel, bind_apply, get_apply, modify_apply]
  split_ifs
  · exact ⟨rfl, trivial⟩
  · rfl

theorem decreaseFlowLevel : Fetches (decreaseFlowLevel : ScanM ι Unit) := by
  rintro _ s rfl
  unfold Scanner.decreaseFlowLevel
  split_ifs
  · rfl
  · cases s.simpleKeys with
    | nil => exact ⟨rfl, trivial⟩
    | cons key keys => rfl

theorem popIndent : Fetches (popIndent : ScanM ι Unit) := by
  rintro _ s rfl
  unfold Scanner.popIndent
  cases s.indents with
  | nil => exact ⟨rfl, trivial⟩
  | cons indent indents => rfl

theorem rollIndent {column : Nat} {number : Option Nat} {data : TokenData} {mark : Mark} :
    Fetches (rollIndent column number data mark : ScanM ι Unit) := by
  rintro _ s rfl
  unfold Scanner.rollIndent
  rw [bind_of_ok (get_apply s)]
  refine Holds.ite (P := (· = s)) (fun _ => ?_) (fun _ => .pure fun t ht => ht ▸ rfl) s rfl
  refine Holds.bind (Q := fun _ t => t.outcome = s.outcome) (.set fun _ _ => rfl) fun _ =>
    .ite (fun _ => .throw fun _ ht => ⟨ht, trivial⟩) fun _ =>
      Holds.bind (Q := fun _ t => t.outcome = s.outcome) (.modify fun _ ht => ht) fun _ => ?_
  cases number with
  | none => exact enqueueToken _
  | some number => exact insertToken _

theorem unrollIndent {column : Int} : Fetches (unrollIndent column : ScanM ι Unit) :=
  .getThen fun _ => .onlyIf (.loop trivial (fun _ => .getThen fun _ => .ite
    (enqueueToken.bind fun _ => popIndent.bind fun _ => .pure) .pure) _ ())

theorem startBlockCollection {problem : String} {data : TokenData} :
    Fetches (startBlockCollection problem data : ScanM ι Unit) :=
  .getThen fun _ => .onlyIf ((Keeps.onlyIf (walks Walks.fail)).bind fun _ => rollIndent)

theorem scanThen {scan : ScanM ι Token} (h : ∀ o, Holds (· = o) scan (Scanned o) (Stopped o)) : Fetches scan := by
  rintro _ s rfl
  have hs := h s s rfl
  cases hr : scan s with
  | ok token t =>
    rw [hr] at hs
    exact outcome_of_kept hs.came.kept
  | error e t =>
    rw [hr] at hs
    exact ⟨outcome_of_kept hs.kept, trivial⟩

theorem fetchNode {scan : ScanM ι Token} (h : ∀ o, Holds (· = o) scan (Scanned o) (Stopped o)) : Fetches (fetchNode scan) :=
  saveSimpleKey.bind fun _ => allowSimpleKey.bind fun _ => (scanThen h).bind fun _ => enqueueToken

variable [Input ι]

theorem fetchStreamStart : Fetches (fetchStreamStart : ScanM ι Unit) := by
  rintro _ s rfl
  rfl

omit [Input ι] in
theorem fetchStreamEnd : Fetches (fetchStreamEnd : ScanM ι Unit) :=
  (change fun s => by split_ifs <;> rfl).bind fun _ => unrollIndent.bind fun _ => removeSimpleKey.bind fun _ =>
    allowSimpleKey.bind fun _ => .getThen fun _ => enqueueToken

theorem enqueueIndicator {n : Nat} {data : TokenData} : Fetches (enqueueIndicator n data : ScanM ι Unit) :=
  (walks Walks.getMark).bind fun _ => (walks (Walks.skips n)).bind fun _ => (walks Walks.getMark).bind fun _ => enqueueToken

theorem fetchDocumentIndicator {data : TokenData} : Fetches (fetchDocumentIndicator data : ScanM ι Unit) :=
  unrollIndent.bind fun _ => removeSimpleKey.bind fun _ => allowSimpleKey.bind fun _ => enqueueIndicator

theorem fetchFlowCollectionStart {data : TokenData} : Fetches (fetchFlowCollectionStart data : ScanM ι Unit) :=
  saveSimpleKey.bind fun _ => increaseFlowLevel.bind fun _ => allowSimpleKey.bind fun _ => enqueueIndicator

theorem fetchFlowCollectionEnd {data : TokenData} : Fetches (fetchFlowCollectionEnd data : ScanM ι Unit) :=
  removeSimpleKey.bind fun _ => decreaseFlowLevel.bind fun _ => allowSimpleKey.bind fun _ => enqueueIndicator

theorem allowedIndicator {n : Nat} {data : TokenData} :
    Fetches (get >>= fun s => Scanner.allowSimpleKey (s.flowLevel = 0) >>= fun _ => Scanner.enqueueIndicator n data :
      ScanM ι Unit) :=
  .getThen fun _ => allowSimpleKey.bind fun _ => enqueueIndicator

theorem fetchValue : Fetches (fetchValue : ScanM ι Unit) := by
  refine topSimpleKey.bind fun key => .ite ?_ ?_
  · exact insertToken.bind fun _ => rollIndent.bind fun _ => setTopSimpleKey.bind fun _ => allowSimpleKey.bind fun _ =>
      enqueueIndicator
  · exact startBlockCollection.bind fun _ => allowedIndicator

theorem fetchBlockScalar {literal : Bool} : Fetches (fetchBlockScalar literal : ScanM ι Unit) :=
  removeSimpleKey.bind fun _ => allowSimpleKey.bind fun _ => (scanThen fun _ => scanBlockScalar_scanned).bind fun _ =>
    enqueueToken

theorem fetchToken : Fetches (fetchToken : ScanM ι Unit) := by
  have hlook {c : View → Bool} {x y : ScanM ι Unit} (hx : Fetches x) (hy : Fetches y) :
      Fetches (look c >>= fun b => if b = true then x else y) := (walks Walks.look).bind fun _ => .ite hx hy
  refine (walks Walks.inFlow).bind fun flow => (walks Walks.getMark).bind fun mark => hlook fetchStreamEnd ?_
  refine hlook (unrollIndent.bind fun _ => removeSimpleKey.bind fun _ => allowSimpleKey.bind fun _ =>
    (scanThen fun _ => scanDirective_scanned).bind fun _ => enqueueToken) ?_
  refine hlook fetchDocumentIndicator (hlook fetchDocumentIndicator ?_)
  refine hlook fetchFlowCollectionStart (hlook fetchFlowCollectionStart ?_)
  refine hlook fetchFlowCollectionEnd (hlook fetchFlowCollectionEnd ?_)
  refine hlook (removeSimpleKey.bind fun _ => allowSimpleKey.bind fun _ => enqueueIndicator) ?_
  refine hlook (startBlockCollection.bind fun _ => removeSimpleKey.bind fun _ => allowSimpleKey.bind fun _ =>
    enqueueIndicator) ?_
  refine hlook (startBlockCollection.bind fun _ => removeSimpleKey.bind fun _ => allowedIndicator) (hlook fetchValue ?_)
  refine hlook (fetchNode fun _ => scanAnchor_scanned) (hlook (fetchNode fun _ => scanAnchor_scanned) ?_)
  refine hlook (fetchNode fun _ => scanTag_scanned) (hlook fetchBlockScalar (hlook fetchBlockScalar ?_))
  refine hlook (fetchNode fun _ => scanFlowScalar_scanned) (hlook (fetchNode fun _ => scanFlowScalar_scanned) ?_)
  exact hlook (fetchNode fun _ => scanPlainScalar_scanned) (walks Walks.fail)

theorem fetchNextToken : Fetches (fetchNextToken : ScanM ι Unit) := by
  refine (walks Walks.cache).bind fun _ => .getThen fun s => .ite ?_ fetchStreamStart
  exact (walks Walks.scanToNextToken).bind fun _ => staleSimpleKeys.bind fun _ => .getThen fun _ => unrollIndent.bind fun _ =>
    (walks Walks.cache).bind fun _ => fetchToken

theorem fetchMoreTokens : Fetches (fetchMoreTokens : ScanM ι Unit) := by
  refine .getThen fun _ => Keeps.bind (.loop trivial (fun _ => .getThen fun _ => .ite ?_ ?_) _ ()) fun _ => change fun _ => rfl
  · exact fetchNextToken.bind fun _ => .pure
  · exact staleSimpleKeys.bind fun _ => .getThen fun _ => .ite (fetchNextToken.bind fun _ => .pure) .pure

end Fetches

/-! ## Calls and tokens -/

section Calls

variable [Input ι] {s t : Scanner ι} {token : Token} {list : TokenList}

theorem peek_outcome : Keeps outcome (fun _ => True) (TokenSource.peek : ScanM ι Token) := by
  rintro _ s rfl
  rw [peek_eq]
  refine Keeps.bind (Keeps.onlyIf Fetches.fetchMoreTokens) (fun _ => ?_) _ s rfl
  rintro _ u rfl
  unfold headToken
  cases u.tokens with
  | nil => exact ⟨rfl, trivial⟩
  | cons token rest => rfl

/-- Nothing has ended yet. -/
def Open (s : Scanner ι) : Prop := s.outcome = (false, none)

omit [Input ι] in
theorem Open.not_stopped (h : Open s) : ¬(s.streamEndProduced = true ∨ s.error.isSome = true) := by
  have hended : s.streamEndProduced = false := congrArg (·.1) h
  have herror : s.error = none := congrArg (·.2) h
  rw [hended, herror]
  simp

/-- A call takes the token that the parser would look at and pass. -/
theorem scan_of_peek (h : Open s) (hp : TokenSource.peek s = .ok token t) : scan s = .ok token (TokenSource.skip t) := by
  have hopen : t.outcome = (false, none) := (peek_outcome _).ok h hp
  have hended : t.streamEndProduced = false := congrArg (·.1) hopen
  rw [peek_eq] at hp
  obtain ⟨⟨⟩, u, hu, hp⟩ := bind_ok hp
  unfold headToken at hp
  unfold scan
  rw [if_neg h.not_stopped]
  unfold scanToken
  rw [bind_of_ok (get_apply s), bind_of_ok hu]
  cases htokens : u.tokens with
  | nil =>
    rw [htokens] at hp
    cases hp
  | cons head rest =>
    rw [htokens] at hp
    cases hp
    have hdequeue : dequeueToken t = .ok token { t with tokens := rest } := by
      unfold dequeueToken
      rw [htokens]
    rw [bind_of_ok hdequeue, bind_of_ok (modify_apply _ _)]
    refine congrArg (EStateM.Result.ok token) ?_
    change ({ t with
      tokens := rest, tokenAvailable := false, tokensParsed := t.tokensParsed + 1
      streamEndProduced := t.streamEndProduced || decide (token.type = .streamEnd) } : Scanner ι) = { t with
        tokenAvailable := false, tokensParsed := t.tokensParsed + 1
        streamEndProduced := t.tokens.head?.any fun token => decide (token.type = .streamEnd), tokens := t.tokens.tail }
    rw [htokens, hended]
    rfl

/-- A call fails where the parser would. -/
theorem scan_of_failed {problem : Problem} (h : Open s) (hp : TokenSource.peek s = .error (.reported problem) t) :
    scan s = .error (.reported problem) { t with error := some problem } := by
  rw [peek_eq, bind_apply] at hp
  unfold scan
  rw [if_neg h.not_stopped]
  unfold scanToken
  rw [bind_of_ok (get_apply s), bind_apply]
  cases hf : onlyIf (!s.tokenAvailable) fetchMoreTokens s with
  | ok u v =>
    rw [hf] at hp
    change headToken v = _ at hp
    unfold headToken at hp
    cases htokens : v.tokens <;> rw [htokens] at hp <;> cases hp
  | error e v =>
    rw [hf] at hp
    cases hp
    rfl

/-- Behind the end of the stream nothing is scanned any more. -/
theorem scan_of_ended (h : s.streamEndProduced = true) : scan s = .ok emptyToken s := by
  unfold scan
  rw [if_pos (.inl h)]

theorem calls_of_stopped (h : scan s = .ok emptyToken s) : ∀ n, (calls n s).1 = List.replicate n (.ok emptyToken)
  | 0 => rfl
  | n + 1 => by
    unfold calls
    rw [h, List.replicate_succ, ← calls_of_stopped h n]

/-- What the calls return before there is nothing more: the tokens, and the failure behind them if the stream
has not come to its end. -/
def returned (list : TokenList) : List (Except Fault Token) :=
  list.tokens.map .ok ++ if list.tokens.getLast?.any (·.type = .streamEnd) then [] else [.error (.reported list.failure)]

theorem returned_cons {tokens : List Token} {problem : Problem} (h : token.type ≠ .streamEnd) :
    returned ⟨token :: tokens, problem⟩ = .ok token :: returned ⟨tokens, problem⟩ := by
  unfold returned
  cases tokens with
  | nil => simp [h]
  | cons next tokens => simp

/-- The calls return the tokens that the parser would take, one after another. -/
theorem calls_of_lists (hl : Lists s list) :
    Open s → ∀ n, (calls n s).1 = (returned list ++ List.replicate n (Except.ok emptyToken)).take n := by
  induction hl with
  | @failed s t problem h =>
    intro ho n
    cases n with
    | zero => rfl
    | succ n =>
      unfold calls
      rw [scan_of_failed ho h]
      dsimp only
      rw [calls_of_stopped (scan_of_halted (by rfl))]
      simp [returned]
  | @ended s t token problem h he =>
    intro ho n
    cases n with
    | zero => rfl
    | succ n =>
      have hskip : (TokenSource.skip t : Scanner ι).streamEndProduced = true := by
        change t.tokens.head?.any (·.type = .streamEnd) = true
        rw [skip_tokens h]
        simp [he]
      unfold calls
      rw [scan_of_peek ho h]
      dsimp only
      rw [calls_of_stopped (scan_of_ended hskip)]
      simp [returned, he]
  | @more s t token tokens problem h he hl ih =>
    intro ho n
    cases n with
    | zero => rfl
    | succ n =>
      have hskip : Open (TokenSource.skip t : Scanner ι) := by
        have hopen : t.outcome = (false, none) := (peek_outcome _).ok ho h
        change (t.tokens.head?.any (·.type = .streamEnd), t.error) = (false, none)
        rw [skip_tokens h, show t.error = none from congrArg (·.2) hopen]
        simp [he]
      unfold calls
      rw [scan_of_peek ho h, returned_cons he]
      dsimp only
      rw [ih hskip n, List.cons_append, List.take_succ_cons, List.take_append, List.take_append, List.take_replicate,
        List.take_replicate]
      congr 3
      omega

end Calls

/-! ## Two inputs -/

section Beside

variable {κ : Type} [Input ι] [Input κ] {R : Simulation ι κ} {s : Scanner ι} {t : Scanner κ} {list : TokenList}

theorem headToken_beside : Sim (Beside R) (headToken : ScanM ι Token) (headToken : ScanM κ Token) (fun _ => Beside R)
    (fun e _ _ => e = .silent) := by
  intro s t h
  have htokens : t.tokens = s.tokens := by rw [h.onto]; rfl
  unfold headToken
  rw [htokens]
  cases s.tokens with
  | nil => exact ⟨rfl, rfl⟩
  | cons token rest => exact ⟨rfl, h⟩

theorem peek_beside : Sim (Beside R) (TokenSource.peek : ScanM ι Token) (TokenSource.peek : ScanM κ Token)
    (fun _ => Beside R) fun _ _ _ => True := by
  intro s t h
  have havailable : t.tokenAvailable = s.tokenAvailable := by rw [h.onto]; rfl
  have hfetch : Sim (Beside R) (onlyIf (!s.tokenAvailable) fetchMoreTokens : ScanM ι PUnit)
      (onlyIf (!s.tokenAvailable) fetchMoreTokens : ScanM κ PUnit) (fun _ => Beside R) fun _ _ _ => True :=
    Fallible.Sim.ite (fun _ => fetchMoreTokens_beside.weaken (fun _ _ h => h) (fun _ _ _ h => h.1) fun _ _ _ _ => trivial)
      fun _ => Fallible.Sim.pure fun _ _ h => h
  rw [peek_eq, peek_eq, havailable]
  exact hfetch.bind (fun _ => headToken_beside.weaken (fun _ _ h => h) (fun _ _ _ h => h) fun _ _ _ _ => trivial) s t h

theorem onto_skip (h : t = s.onto t.input) :
    (TokenSource.skip t : Scanner κ) = (TokenSource.skip s : Scanner ι).onto t.input := by
  rw [h]
  rfl

theorem skip_beside (h : Beside R s t) : Beside R (TokenSource.skip s) (TokenSource.skip t) :=
  ⟨onto_skip h.onto, h.rel, h.behind⟩

/-- Two scanners whose inputs show the same characters hand over the same tokens. -/
theorem lists_beside (hl : Lists s list) : ∀ {t : Scanner κ}, Beside R s t → Lists t list := by
  induction hl with
  | failed h =>
    intro t hb
    obtain ⟨t', ht, -⟩ := peek_beside.error hb h
    exact .failed ht
  | ended h he =>
    intro t hb
    obtain ⟨t', ht, -⟩ := peek_beside.ok hb h
    exact .ended ht he
  | more h he _ ih =>
    intro t hb
    obtain ⟨t', ht, hb'⟩ := peek_beside.ok hb h
    exact .more ht he (ih (skip_beside hb'))

end Beside

end Scanner

end LibYaml
