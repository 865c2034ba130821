import LibYaml.Scanner.Calls

/-!
# The end of the stream

A STREAM-END token is fetched where the input has come to its end, and nowhere else.  Outside flow
collections all blocks have been closed before it, and nothing but the same token comes behind it.
-/

namespace LibYaml

open Fallible Brackets

namespace Scanner

variable {ι α β : Type} {P : Token → Prop} {s t u : Scanner ι}

/-! ## What is queued -/

/-- Only tokens with `P` are in the queue. -/
def Only (P : Token → Prop) (s : Scanner ι) : Prop := ∀ token ∈ s.tokens, P token

/-- Only tokens with `P` are put into the queue. -/
def Adds (P : Token → Prop) (x : ScanM ι α) : Prop := Holds (Only P) x (fun _ => Only P) fun _ _ => True

namespace Adds

variable {x : ScanM ι α} {f : α → ScanM ι β}

theorem pure {a : α} : Adds P (pure a : ScanM ι α) := Holds.pure fun _ h => h

theorem bind (hx : Adds P x) (hf : ∀ a, Adds P (f a)) : Adds P (x >>= f) := Holds.bind hx hf

theorem onlyIf {c : Bool} {x : ScanM ι PUnit} (hx : Adds P x) : Adds P (onlyIf c x) := Holds.ite (fun _ => hx) fun _ => pure

theorem fail {e : Fault} : Adds P (throw e : ScanM ι α) := Holds.throw fun _ _ => trivial

/-- What leaves the queue as it is. -/
theorem of_kept (h : ∀ s, match x s with | .ok _ t => t.tokens = s.tokens | .error _ _ => True) : Adds P x := by
  intro s hs
  have hx := h s
  cases hr : x s with
  | ok a t =>
    rw [hr] at hx
    intro token ht
    rw [hx] at ht
    exact hs token ht
  | error e t => trivial

theorem getThen {f : Scanner ι → ScanM ι β} (h : ∀ s, Adds P (f s)) : Adds P (MonadState.get >>= f) := fun s hs => h s s hs

theorem change {f : Scanner ι → Scanner ι} (h : ∀ s, (f s).tokens = s.tokens) :
    Adds P (modify f : ScanM ι PUnit) :=
  of_kept h

theorem walks {x : ScanM ι α} (hx : Walks x) : Adds P x := by
  refine of_kept fun s => ?_
  have hw := hx s s.mark s (.start s)
  cases hr : x s with
  | ok a t =>
    rw [hr] at hw
    exact (fields_of_kept hw.kept).2.2.2.1
  | error e t => trivial

theorem enqueue {token : Token} (h : P token) : Adds P (enqueueToken token : ScanM ι Unit) := by
  intro s hs t ht
  rcases List.mem_append.mp ht with ht | ht
  · exact hs t ht
  · rwa [List.mem_singleton.mp ht]

theorem insert {number : Nat} {token : Token} (h : P token) : Adds P (insertToken number token : ScanM ι Unit) := by
  intro s hs
  unfold insertToken
  split_ifs with hc
  · intro t ht
    rcases List.eq_or_mem_of_mem_insertIdx ht with rfl | ht
    · exact h
    · exact hs t ht
  · trivial

theorem topSimpleKey : Adds P (topSimpleKey : ScanM ι SimpleKey) := by
  refine of_kept fun s => ?_
  unfold Scanner.topSimpleKey
  cases s.simpleKeys with
  | nil => trivial
  | cons key keys => rfl

theorem setTopSimpleKey {key : SimpleKey} : Adds P (setTopSimpleKey key : ScanM ι Unit) := change fun _ => rfl

theorem missingColon {key : SimpleKey} : Adds P (missingColon key : ScanM ι Unit) := fun _ _ => trivial

theorem removeSimpleKey : Adds P (removeSimpleKey : ScanM ι Unit) :=
  bind topSimpleKey fun _ => bind (onlyIf missingColon) fun _ => setTopSimpleKey

theorem saveSimpleKey : Adds P (saveSimpleKey : ScanM ι Unit) :=
  getThen fun _ => onlyIf (bind removeSimpleKey fun _ => setTopSimpleKey)

theorem allowSimpleKey {b : Bool} : Adds P (allowSimpleKey b : ScanM ι Unit) := change fun _ => rfl

theorem staleSimpleKeys : Adds P (staleSimpleKeys : ScanM ι Unit) := by
  refine of_kept fun s => ?_
  simp only [Scanner.staleSimpleKeys, bind_apply, get_apply, set_apply]
  cases (staleKeys s.mark s.simpleKeys).2 with
  | none => rfl
  | some key => trivial

theorem increaseFlowLevel : Adds P (increaseFlowLevel : ScanM ι Unit) := by
  refine of_kept fun s => ?_
  simp only [Scanner.increaseFlowLevel, bind_apply, get_apply, modify_apply]
  split_ifs
  · trivial
  · rfl

theorem decreaseFlowLevel : Adds P (decreaseFlowLevel : ScanM ι Unit) := by
  refine of_kept fun s => ?_
  unfold Scanner.decreaseFlowLevel
  split_ifs
  · rfl
  · cases s.simpleKeys with
    | nil => trivial
    | cons key keys => rfl

theorem popIndent : Adds P (popIndent : ScanM ι Unit) := by
  refine of_kept fun s => ?_
  unfold Scanner.popIndent
  cases s.indents with
  | nil => trivial
  | cons indent indents => rfl

theorem rollIndent {column : Nat} {number : Option Nat} {data : TokenData} {mark : Mark} (h : P ⟨data, mark, mark⟩) :
    Adds P (rollIndent column number data mark : ScanM ι Unit) := by
  intro s hs
  unfold Scanner.rollIndent
  rw [bind_of_ok (get_apply s)]
  refine onlyIf (fun s' hs' => ?_) s hs
  rw [bind_of_ok (set_apply s' _)]
  split_ifs
  · trivial
  · refine Holds.bind (P := Only P) (Q := fun _ => Only P) ?_ (fun _ => ?_) _ hs
    · exact change fun _ => rfl
    · cases number with
      | none => exact enqueue h
      | some number => exact insert h

theorem unrollIndent {column : Int} (h : ∀ mark, P ⟨.blockEnd, mark, mark⟩) :
    Adds P (unrollIndent column : ScanM ι Unit) := by
  refine getThen fun s => onlyIf (Holds.loop (P := fun _ => Only P) (fun _ _ _ => trivial) (fun _ => ?_) _ ())
  refine Holds.getThen fun s hs => Holds.ite (fun _ => ?_) fun _ => Holds.pure fun t ht => ?_
  · refine Holds.each (P := Only P) ?_ hs
    exact Holds.bind (enqueue (h s.mark)) fun _ => Holds.bind popIndent fun _ => Holds.pure fun _ ht => ht
  · exact ht ▸ hs

theorem startBlockCollection {problem : String} {data : TokenData} (h : ∀ mark, P ⟨data, mark, mark⟩) :
    Adds P (startBlockCollection problem data : ScanM ι Unit) :=
  getThen fun _ => onlyIf (bind (onlyIf (walks Walks.fail)) fun _ => rollIndent (h _))

/-- A token that is scanned joins the queue. -/
theorem scanThen {scan : ScanM ι Token} (hscan : ∀ o, Holds (· = o) scan (Scanned o) (Stopped o))
    (h : ∀ token : Token, isScanned token.type = true → P token) : Adds P (scan >>= enqueueToken) := by
  intro s hs
  have hsp := hscan s s rfl
  cases hr : scan s with
  | error e t =>
    rw [bind_of_error hr]
    trivial
  | ok token t =>
    rw [hr] at hsp
    rw [bind_of_ok hr]
    refine enqueue (h token hsp.type) t fun u hu => hs u ?_
    rwa [(fields_of_kept hsp.came.kept).2.2.2.1] at hu

theorem fetchNode {scan : ScanM ι Token} (hscan : ∀ o, Holds (· = o) scan (Scanned o) (Stopped o))
    (h : ∀ token : Token, isScanned token.type = true → P token) : Adds P (fetchNode scan) :=
  bind saveSimpleKey fun _ => bind allowSimpleKey fun _ => scanThen hscan h

section Input

variable [Input ι]

theorem skips (n : Nat) : Adds P (skips n : ScanM ι Unit) := walks (Walks.skips n)

theorem cache {n : Nat} : Adds P (cache n : ScanM ι Unit) := walks Walks.cache

theorem enqueueIndicator {n : Nat} {data : TokenData} (h : ∀ start finish, P ⟨data, start, finish⟩) :
    Adds P (enqueueIndicator n data : ScanM ι Unit) :=
  bind (walks Walks.getMark) fun _ => bind (skips n) fun _ => bind (walks Walks.getMark) fun _ => enqueue (h _ _)

end Input

end Adds

/-! ## The end of the stream -/

def Ending (token : Token) : Prop := token.type = .streamEnd

theorem not_ending {token : Token} (h : isScanned token.type = true) : ¬Ending token := by
  intro he
  rw [Ending] at he
  rw [he] at h
  exact Bool.false_ne_true h

section Input

variable [Input ι]

/-- No other character ends the stream. -/
theorem fetchToken_adds : Holds (fun s : Scanner ι => Only (¬Ending ·) s ∧ isZ (Input.view s.input) = false) fetchToken
    (fun _ => Only (¬Ending ·)) fun _ _ => True := by
  have hlook {c : View → Bool} {x y : ScanM ι Unit} (hx : Adds (¬Ending ·) x) (hy : Adds (¬Ending ·) y) :
      Adds (¬Ending ·) (look c >>= fun b => if b = true then x else y) := holds_look hx hy
  have hno {data : TokenData} (hd : data.type ≠ .streamEnd) (start finish : Mark) : ¬Ending ⟨data, start, finish⟩ := hd
  have hclosed : Adds (¬Ending ·) (unrollIndent (-1) : ScanM ι Unit) := .unrollIndent fun mark => hno (by decide) mark mark
  have hscanned (token : Token) (h : isScanned token.type = true) : ¬Ending token := not_ending h
  have hbegun {data : TokenData} (hd : data.type ≠ .streamEnd) :
      Adds (¬Ending ·) (fetchFlowCollectionStart data : ScanM ι Unit) :=
    Adds.saveSimpleKey.bind fun _ => Adds.increaseFlowLevel.bind fun _ => Adds.allowSimpleKey.bind fun _ =>
      .enqueueIndicator (hno hd)
  have hended {data : TokenData} (hd : data.type ≠ .streamEnd) :
      Adds (¬Ending ·) (fetchFlowCollectionEnd data : ScanM ι Unit) :=
    Adds.removeSimpleKey.bind fun _ => Adds.decreaseFlowLevel.bind fun _ => Adds.allowSimpleKey.bind fun _ =>
      .enqueueIndicator (hno hd)
  have hdocument {data : TokenData} (hd : data.type ≠ .streamEnd) :
      Adds (¬Ending ·) (fetchDocumentIndicator data : ScanM ι Unit) :=
    hclosed.bind fun _ => Adds.removeSimpleKey.bind fun _ => Adds.allowSimpleKey.bind fun _ => .enqueueIndicator (hno hd)
  have hstart {problem : String} {data : TokenData} (hd : data.type ≠ .streamEnd) :
      Adds (¬Ending ·) (startBlockCollection problem data : ScanM ι Unit) :=
    .startBlockCollection fun mark => hno hd mark mark
  have hallowed {data : TokenData} (hd : data.type ≠ .streamEnd) : Adds (¬Ending ·)
      (get >>= fun s => allowSimpleKey (s.flowLevel = 0) >>= fun _ => enqueueIndicator 1 data : ScanM ι Unit) :=
    .getThen fun _ => Adds.allowSimpleKey.bind fun _ => .enqueueIndicator (hno hd)
  have hvalue : Adds (¬Ending ·) (fetchValue : ScanM ι Unit) := by
    refine Adds.topSimpleKey.bind fun key => ?_
    cases key.possible with
    | true =>
      refine Adds.bind (.insert (hno (by decide) _ _)) fun _ => (Adds.rollIndent (hno (by decide) _ _)).bind fun _ => ?_
      exact Adds.setTopSimpleKey.bind fun _ => Adds.allowSimpleKey.bind fun _ => .enqueueIndicator (hno (by decide))
    | false => exact (hstart (by decide)).bind fun _ => hallowed (by decide)
  have hblock {literal : Bool} : Adds (¬Ending ·) (fetchBlockScalar literal : ScanM ι Unit) :=
    Adds.removeSimpleKey.bind fun _ => Adds.allowSimpleKey.bind fun _ => .scanThen (fun _ => scanBlockScalar_scanned) hscanned
  have hdirective : Adds (¬Ending ·) (fetchDirective : ScanM ι Unit) :=
    hclosed.bind fun _ => Adds.removeSimpleKey.bind fun _ => Adds.allowSimpleKey.bind fun _ =>
      .scanThen (fun _ => scanDirective_scanned) hscanned
  rintro s ⟨hs, hz⟩
  unfold fetchToken
  rw [bind_of_ok (show inFlow s = .ok _ s from rfl), bind_of_ok (show getMark s = .ok _ s from rfl),
    bind_of_ok (show look isZ s = .ok (isZ (Input.view s.input)) s from rfl), hz, if_neg Bool.false_ne_true]
  refine hlook hdirective (hlook (hdocument (by decide)) (hlook (hdocument (by decide)) ?_)) s hs
  refine hlook (hbegun (by decide)) (hlook (hbegun (by decide)) (hlook (hended (by decide)) (hlook (hended (by decide)) ?_)))
  refine hlook (Adds.removeSimpleKey.bind fun _ => Adds.allowSimpleKey.bind fun _ => .enqueueIndicator (hno (by decide))) ?_
  refine hlook ((hstart (by decide)).bind fun _ => Adds.removeSimpleKey.bind fun _ => Adds.allowSimpleKey.bind fun _ =>
    .enqueueIndicator (hno (by decide))) ?_
  refine hlook ((hstart (by decide)).bind fun _ => Adds.removeSimpleKey.bind fun _ => hallowed (by decide)) (hlook hvalue ?_)
  refine hlook (.fetchNode (fun _ => scanAnchor_scanned) hscanned) (hlook (.fetchNode (fun _ => scanAnchor_scanned) hscanned) ?_)
  refine hlook (.fetchNode (fun _ => scanTag_scanned) hscanned) (hlook hblock (hlook hblock ?_))
  refine hlook (.fetchNode (fun _ => scanFlowScalar_scanned) hscanned) ?_
  refine hlook (.fetchNode (fun _ => scanFlowScalar_scanned) hscanned) ?_
  exact hlook (.fetchNode (fun _ => scanPlainScalar_scanned) hscanned) (.walks Walks.fail)

end Input

end Scanner

end LibYaml
