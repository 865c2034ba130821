import LibYaml.Scanner.Bookkeeping
import LibYaml.Scanner.Scanning

/-!
# Fetching tokens on both sides

Two scanners whose inputs show the same characters fetch the same tokens.  What the fetchers do to
the keys, the blocks and the queue does not depend on the input at all; the rest is scanning.  Each
token but the last moves the scanner on, past every key that has been saved, so the loops of the
scanner end on both sides.
-/

namespace LibYaml

open Fallible

namespace Mark

/-- `w` lies further down than `m`, or further right in the same line. -/
def Passed (m w : Mark) : Prop := m.line < w.line ∨ m.line = w.line ∧ m.column < w.column

theorem Passed.trans {m w v : Mark} (h : m.Passed w) (h' : w.Passed v) : m.Passed v := by
  unfold Passed at *
  omega

end Mark

namespace Scanner

variable {ι κ α β : Type}

/-! ## What does not depend on the input -/

/-- From `o` to `s` the scanner has not moved, and no key is new.  At a node (`K`) one may be that
starts here, and the flow level and the indentation are what they were. -/
structure Stays (K : Prop) (o s : Scanner ι) : Prop where
  mark : s.mark = o.mark
  input : s.input = o.input
  started : s.streamStartProduced = o.streamStartProduced
  node : K → s.flowLevel = o.flowLevel ∧ s.indent = o.indent
  keys : ∀ key ∈ s.simpleKeys, key.possible = true → key ∈ o.simpleKeys ∨ K ∧ key.mark = o.mark

theorem Stays.refl {K : Prop} (s : Scanner ι) : Stays K s s :=
  ⟨rfl, rfl, rfl, fun _ => ⟨rfl, rfl⟩, fun _ hk _ => .inl hk⟩

theorem Stays.trans {K : Prop} {o s t : Scanner ι} (h : Stays K o s) (h' : Stays K s t) : Stays K o t := by
  refine ⟨h'.mark.trans h.mark, h'.input.trans h.input, h'.started.trans h.started,
    fun hk => ⟨(h'.node hk).1.trans (h.node hk).1, (h'.node hk).2.trans (h.node hk).2⟩, fun key hkey hp => ?_⟩
  rcases h'.keys key hkey hp with hkey | ⟨hk, hm⟩
  · exact h.keys key hkey hp
  · exact .inr ⟨hk, hm.trans h.mark⟩

/-- From `s` the two runs do the same, whatever the inputs. -/
def BlindAt (K : Prop) (x : ScanM ι α) (y : ScanM κ α) (s : Scanner ι) (j : κ) : Prop :=
  match x s, y (s.onto j) with
  | .ok a s', .ok b t' => a = b ∧ t' = s'.onto j ∧ Stays K s s'
  | .error e s', .error f t' => e = f ∧ e ≠ .outOfFuel ∧ t' = s'.onto j ∧ s'.mark = s.mark ∧ s'.input = s.input
  | _, _ => False

def Blind (K : Prop) (x : ScanM ι α) (y : ScanM κ α) : Prop := ∀ s j, BlindAt K x y s j

theorem BlindAt.bind {K : Prop} {x : ScanM ι α} {y : ScanM κ α} {f : α → ScanM ι β} {g : α → ScanM κ β}
    {s : Scanner ι} {j : κ} (h : BlindAt K x y s j)
    (hf : ∀ a s', x s = .ok a s' → BlindAt K (f a) (g a) s' j) : BlindAt K (x >>= f) (y >>= g) s j := by
  unfold BlindAt at h ⊢
  rw [bind_apply, bind_apply]
  cases hs : x s <;> cases ht : y (s.onto j) <;> rw [hs, ht] at h <;> try exact h.elim
  · obtain ⟨rfl, rfl, hstays⟩ := h
    rename_i a s'
    have h' := hf a s' hs
    unfold BlindAt at h'
    dsimp only
    cases hs' : f a s' <;> cases ht' : g a (s'.onto j) <;> rw [hs', ht'] at h' <;> try exact h'.elim
    · exact ⟨h'.1, h'.2.1, hstays.trans h'.2.2⟩
    · obtain ⟨he, hfuel, hj, hm, hi⟩ := h'
      exact ⟨he, hfuel, hj, hm.trans hstays.mark, hi.trans hstays.input⟩
  · exact h

namespace Blind

variable {K : Prop} {x : ScanM ι α} {y : ScanM κ α}

theorem pure {a : α} : Blind K (Pure.pure a : ScanM ι α) (Pure.pure a : ScanM κ α) :=
  fun s _ => ⟨rfl, rfl, .refl s⟩

theorem bind {f : α → ScanM ι β} {g : α → ScanM κ β} (hx : Blind K x y) (hf : ∀ a, Blind K (f a) (g a)) :
    Blind K (x >>= f) (y >>= g) :=
  fun s j => (hx s j).bind fun a s' _ => hf a s' j

theorem refuse {e : Fault} (he : e ≠ .outOfFuel) : Blind K (throw e : ScanM ι α) (throw e : ScanM κ α) :=
  fun _ _ => ⟨rfl, he, rfl, rfl, rfl⟩

theorem ite {c : Prop} [Decidable c] {x' : ScanM ι α} {y' : ScanM κ α} (hx : Blind K x y) (hy : Blind K x' y') :
    Blind K (if c then x else x') (if c then y else y') := by
  split
  · exact hx
  · exact hy

theorem onlyIf {c : Bool} {x : ScanM ι Unit} {y : ScanM κ Unit} (h : Blind K x y) :
    Blind K (onlyIf c x) (onlyIf c y) :=
  ite h pure

/-- What is told of the state does not depend on the input. -/
theorem told {f : Scanner ι → ScanM ι β} {g : Scanner κ → ScanM κ β} (h : ∀ s j, Blind K (f s) (g (s.onto j))) :
    Blind K (get >>= f) (get >>= g) :=
  fun s j => h s j s j

theorem change {f : Scanner ι → Scanner ι} {g : Scanner κ → Scanner κ} (hg : ∀ s j, g (s.onto j) = (f s).onto j)
    (hf : ∀ s, Stays K s (f s)) : Blind K (modify f) (modify g) :=
  fun s j => ⟨rfl, hg s j, hf s⟩

/-- A loop that leaves less from round to round. -/
theorem loop {body : α → ScanM ι (Round α β)} {body' : α → ScanM κ (Round α β)} (size : Scanner ι → Nat)
    (h : ∀ a, Blind K (body a) (body' a))
    (hsize : ∀ a s a' s', body a s = .ok (.again a') s' → size s' < size s) : ∀ (n : Nat) (a : α) (s : Scanner ι),
    size s < n → ∀ j, BlindAt K (Fallible.loop .outOfFuel body n a) (Fallible.loop .outOfFuel body' n a) s j
  | 0, _, _, hn, _ => absurd hn (Nat.not_lt_zero _)
  | n + 1, a, s, hn, j => by
    refine (h a s j).bind fun r s' hr => ?_
    cases r with
    | again a' =>
      have := hsize a s a' s' hr
      exact loop size h hsize n a' s' (by omega) j
    | leave b => exact pure s' j

theorem fail {context : Option String} {mark : Mark} {problem : String} :
    Blind K (scannerError context mark problem : ScanM ι α) (scannerError context mark problem : ScanM κ α) :=
  fun _ _ => ⟨rfl, Fault.noConfusion, rfl, rfl, rfl⟩

theorem allowSimpleKey {b : Bool} : Blind K (allowSimpleKey (ι := ι) b) (allowSimpleKey (ι := κ) b) :=
  change (fun _ _ => rfl) fun _ => ⟨rfl, rfl, rfl, fun _ => ⟨rfl, rfl⟩, fun _ hk _ => .inl hk⟩

theorem enqueueToken {token : Token} : Blind K (enqueueToken (ι := ι) token) (enqueueToken (ι := κ) token) :=
  change (fun _ _ => rfl) fun _ => ⟨rfl, rfl, rfl, fun _ => ⟨rfl, rfl⟩, fun _ hk _ => .inl hk⟩

theorem topSimpleKey : Blind K (topSimpleKey (ι := ι)) (topSimpleKey (ι := κ)) := by
  intro s j
  unfold BlindAt
  have hkeys : (s.onto j).simpleKeys = s.simpleKeys := rfl
  unfold Scanner.topSimpleKey
  rw [hkeys]
  cases s.simpleKeys with
  | nil => exact ⟨rfl, Fault.noConfusion, rfl, rfl, rfl⟩
  | cons key keys => exact ⟨rfl, rfl, .refl s⟩

/-- A key that is no candidate takes the place of another. -/
theorem setTopSimpleKey {key : SimpleKey} (hp : key.possible = false) :
    Blind K (setTopSimpleKey (ι := ι) key) (setTopSimpleKey (ι := κ) key) := by
  refine change (fun _ _ => rfl) fun s => ⟨rfl, rfl, rfl, fun _ => ⟨rfl, rfl⟩, fun key' hk hp' => .inl ?_⟩
  rcases List.mem_cons.mp hk with rfl | hk
  · rw [hp] at hp'
    cases hp'
  · exact List.mem_of_mem_tail hk

theorem removeSimpleKey : Blind K (removeSimpleKey (ι := ι)) (removeSimpleKey (ι := κ)) :=
  topSimpleKey.bind fun _ => (onlyIf fail).bind fun _ => setTopSimpleKey rfl

theorem staleSimpleKeys : Blind K (staleSimpleKeys (ι := ι)) (staleSimpleKeys (ι := κ)) := by
  intro s j
  unfold BlindAt
  have hclear : Stays K s { s with simpleKeys := (staleKeys s.mark s.simpleKeys).1 } :=
    ⟨rfl, rfl, rfl, fun _ => ⟨rfl, rfl⟩, fun _ hk hp => .inl ((staleKeys_cleared s.mark s.simpleKeys).mem hk hp)⟩
  have hmark : (s.onto j).mark = s.mark := rfl
  have hkeys : (s.onto j).simpleKeys = s.simpleKeys := rfl
  simp only [Scanner.staleSimpleKeys, bind_apply, get_apply, set_apply, hmark, hkeys]
  cases (staleKeys s.mark s.simpleKeys).2 with
  | none => exact ⟨trivial, rfl, hclear⟩
  | some key => exact ⟨rfl, Fault.noConfusion, rfl, rfl, rfl⟩

/-- The key that is saved starts where the scanner is. -/
theorem saveSimpleKey : Blind True (saveSimpleKey (ι := ι)) (saveSimpleKey (ι := κ)) := by
  intro s j
  unfold BlindAt
  have hsave (required : Bool) (number : Nat) : Stays True s { s with
      simpleKeys := ⟨true, required, number, s.mark⟩ :: s.simpleKeys.tail } := by
    refine ⟨rfl, rfl, rfl, fun _ => ⟨rfl, rfl⟩, fun key hk _ => ?_⟩
    rcases List.mem_cons.mp hk with rfl | hk
    · exact .inr ⟨trivial, rfl⟩
    · exact .inl (List.mem_of_mem_tail hk)
  have hallowed : (s.onto j).simpleKeyAllowed = s.simpleKeyAllowed := rfl
  have hkeys : (s.onto j).simpleKeys = s.simpleKeys := rfl
  simp only [Scanner.saveSimpleKey, bind_apply, get_apply, hallowed]
  cases s.simpleKeyAllowed with
  | false => exact ⟨trivial, rfl, .refl s⟩
  | true =>
    simp only [Fallible.onlyIf, if_true, bind_apply]
    cases hk : s.simpleKeys with
    | nil =>
      simp only [Scanner.removeSimpleKey, bind_apply, Scanner.topSimpleKey, hk, hkeys]
      exact ⟨trivial, Fault.noConfusion, trivial, trivial, trivial⟩
    | cons key keys =>
      rw [removeSimpleKey_eq hk, removeSimpleKey_eq (hkeys.trans hk)]
      cases key.possible && key.required with
      | true => exact ⟨rfl, Fault.noConfusion, rfl, rfl, rfl⟩
      | false =>
        refine ⟨trivial, rfl, ?_⟩
        have := hsave (s.flowLevel = 0 && s.indent = s.mark.column) (s.tokensParsed + s.tokens.length)
        rw [hk] at this
        exact this

theorem insertToken {number : Nat} {token : Token} :
    Blind K (insertToken (ι := ι) number token) (insertToken (ι := κ) number token) := by
  intro s j
  unfold BlindAt
  have hparsed : (s.onto j).tokensParsed = s.tokensParsed := rfl
  have htokens : (s.onto j).tokens = s.tokens := rfl
  unfold Scanner.insertToken
  rw [hparsed, htokens]
  split_ifs
  · exact ⟨rfl, rfl, rfl, rfl, rfl, fun _ => ⟨rfl, rfl⟩, fun _ hk _ => .inl hk⟩
  · exact ⟨rfl, Fault.noConfusion, rfl, rfl, rfl⟩

theorem popIndent : Blind False (popIndent (ι := ι)) (popIndent (ι := κ)) := by
  intro s j
  unfold BlindAt
  have hindents : (s.onto j).indents = s.indents := rfl
  unfold Scanner.popIndent
  rw [hindents]
  cases s.indents with
  | nil => exact ⟨rfl, Fault.noConfusion, rfl, rfl, rfl⟩
  | cons indent below => exact ⟨rfl, rfl, rfl, rfl, rfl, False.elim, fun _ hk _ => .inl hk⟩

theorem increaseFlowLevel : Blind False (increaseFlowLevel (ι := ι)) (increaseFlowLevel (ι := κ)) := by
  intro s j
  unfold BlindAt
  have hflow : (s.onto j).flowLevel = s.flowLevel := rfl
  simp only [Scanner.increaseFlowLevel, bind_apply, modify_apply, get_apply, hflow]
  split_ifs
  · exact ⟨rfl, Fault.noConfusion, rfl, rfl, rfl⟩
  · refine ⟨trivial, rfl, rfl, rfl, rfl, False.elim, fun key hk hp => .inl ?_⟩
    rcases List.mem_cons.mp hk with rfl | hk
    · cases hp
    · exact hk

theorem decreaseFlowLevel : Blind False (decreaseFlowLevel (ι := ι)) (decreaseFlowLevel (ι := κ)) := by
  intro s j
  unfold BlindAt
  have hflow : (s.onto j).flowLevel = s.flowLevel := rfl
  have hkeys : (s.onto j).simpleKeys = s.simpleKeys := rfl
  unfold Scanner.decreaseFlowLevel
  rw [hflow, hkeys]
  split_ifs
  · exact ⟨rfl, rfl, .refl s⟩
  · cases hk : s.simpleKeys with
    | nil => exact ⟨rfl, Fault.noConfusion, rfl, rfl, rfl⟩
    | cons key keys =>
      refine ⟨rfl, rfl, rfl, rfl, rfl, False.elim, fun key' hk' _ => .inl ?_⟩
      rw [hk]
      exact List.mem_cons_of_mem _ hk'

theorem rollIndent {column : Nat} {number : Option Nat} {data : TokenData} {mark : Mark} :
    Blind False (rollIndent (ι := ι) column number data mark) (rollIndent (ι := κ) column number data mark) := by
  have hstays (indents : List Int) (indent : Int) (s : Scanner ι) :
      Stays False s { s with indents := indents, indent := indent } :=
    ⟨rfl, rfl, rfl, False.elim, fun _ hk _ => .inl hk⟩
  have hopen {x : ScanM ι Unit} {y : ScanM κ Unit} (hx : Blind False x y) : Blind False (do
      modify fun s : Scanner ι => { s with indents := s.indent :: s.indents }
      if maxInt < column then throw (.reported .memory)
      else do
        modify fun s => { s with indent := column }
        x : ScanM ι Unit) (do
      modify fun s : Scanner κ => { s with indents := s.indent :: s.indents }
      if maxInt < column then throw (.reported .memory)
      else do
        modify fun s => { s with indent := column }
        y : ScanM κ Unit) := by
    refine (change (fun _ _ => rfl) fun s => hstays _ _ s).bind fun _ => ite (refuse Fault.noConfusion) ?_
    exact (change (fun _ _ => rfl) fun s => hstays _ _ s).bind fun _ => hx
  intro s j
  unfold Scanner.rollIndent
  cases hroll : (decide (s.flowLevel = 0) && decide (s.indent < (column : Int))) with
  | false =>
    have hroll' : (decide ((s.onto j).flowLevel = 0) && decide ((s.onto j).indent < (column : Int))) = false := hroll
    unfold BlindAt
    rw [bind_of_ok (get_apply s), bind_of_ok (get_apply (s.onto j)), hroll, hroll']
    exact ⟨rfl, rfl, .refl s⟩
  | true =>
    have hroll' : (decide ((s.onto j).flowLevel = 0) && decide ((s.onto j).indent < (column : Int))) = true := hroll
    unfold BlindAt
    rw [bind_of_ok (get_apply s), bind_of_ok (get_apply (s.onto j)), hroll, hroll']
    cases number with
    | none => exact hopen enqueueToken s j
    | some number => exact hopen insertToken s j

/-- Every block that is closed leaves one less. -/
theorem unrollIndent {column : Int} : Blind False (unrollIndent (ι := ι) column) (unrollIndent (ι := κ) column) := by
  intro s j
  have hround : ∀ _ : Unit, Blind False (do
      let s ← get
      if column < s.indent then do
        Scanner.enqueueToken ⟨.blockEnd, s.mark, s.mark⟩
        Scanner.popIndent
        return .again ()
      else return .leave () : ScanM ι (Round Unit Unit)) (do
      let s ← get
      if column < s.indent then do
        Scanner.enqueueToken ⟨.blockEnd, s.mark, s.mark⟩
        Scanner.popIndent
        return .again ()
      else return .leave () : ScanM κ (Round Unit Unit)) :=
    fun _ => told fun s j => ite (enqueueToken.bind fun _ => popIndent.bind fun _ => pure) pure
  have hloop := loop (fun s : Scanner ι => s.indents.length) hround ?_
    (s.indents.length + 2) () s (by omega) j
  · unfold BlindAt Scanner.unrollIndent at *
    rw [bind_of_ok (get_apply s), bind_of_ok (get_apply (s.onto j))]
    have hflow : decide ((s.onto j).flowLevel = 0) = decide (s.flowLevel = 0) := rfl
    rw [hflow]
    cases decide (s.flowLevel = 0) with
    | false => exact ⟨rfl, rfl, .refl s⟩
    | true => exact hloop
  · rintro ⟨⟩ s ⟨⟩ s' h
    rw [bind_of_ok (get_apply s)] at h
    split_ifs at h
    · cases hi : s.indents with
      | nil =>
        simp only [bind_apply, Scanner.enqueueToken, modify_apply, Scanner.popIndent, hi] at h
        cases h
      | cons i below =>
        simp only [bind_apply, Scanner.enqueueToken, modify_apply, Scanner.popIndent, hi, pure_apply] at h
        cases h
        exact Nat.lt_succ_self _
    · cases h

theorem startBlockCollection {problem : String} {data : TokenData} :
    Blind False (startBlockCollection (ι := ι) problem data) (startBlockCollection (ι := κ) problem data) :=
  told fun _ _ => onlyIf ((onlyIf fail).bind fun _ => rollIndent)

theorem getMark : Blind K (getMark (ι := ι)) (getMark (ι := κ)) := fun s _ => ⟨rfl, rfl, .refl s⟩

theorem inFlow : Blind K (inFlow (ι := ι)) (inFlow (ι := κ)) := fun s _ => ⟨rfl, rfl, .refl s⟩

end Blind

/-! ## Scanners side by side -/

/-- Every candidate lies in front of the scanner. -/
def Behind (s : Scanner ι) : Prop := Candidates (·.mark.Passed s.mark) s.simpleKeys

/-- Every candidate lies in front of the scanner, or where it is. -/
def Around (s : Scanner ι) : Prop :=
  Candidates (fun key => key.mark.Passed s.mark ∨ key.mark = s.mark) s.simpleKeys

/-- Every candidate lies in an earlier line. -/
def Above (s : Scanner ι) : Prop := Candidates (·.mark.line < s.mark.line) s.simpleKeys

theorem Behind.around {s : Scanner ι} (h : Behind s) : Around s := fun key hk hp => .inl (h key hk hp)

theorem Behind.stays {s s' : Scanner ι} (h : Behind s) (hs : Stays False s s') : Behind s' := by
  intro key hk hp
  rw [hs.mark]
  exact h key ((hs.keys key hk hp).resolve_right fun h => h.1) hp

theorem Around.stays {K : Prop} {s s' : Scanner ι} (h : Around s) (hs : Stays K s s') : Around s' := by
  intro key hk hp
  rw [hs.mark]
  rcases hs.keys key hk hp with hk | ⟨-, hm⟩
  · exact h key hk hp
  · exact .inr hm

theorem Above.stays {s s' : Scanner ι} (h : Above s) (hs : Stays False s s') : Above s' := by
  intro key hk hp
  rw [hs.mark]
  exact h key ((hs.keys key hk hp).resolve_right fun h => h.1) hp

/-- Between two tokens, with what is known of the next. -/
abbrev Stands (A : Scanner ι → Prop) (s : Scanner ι) : Prop := Behind s ∧ A s

theorem Stands.around {A : Scanner ι → Prop} {s : Scanner ι} (h : Stands A s) : Around s ∧ A s := ⟨h.1.around, h.2⟩

section Since

variable [Input ι] [Input κ] {s s' : Scanner ι}

theorem Since.keys (h : Since s s') : s'.simpleKeys = s.simpleKeys := by
  obtain ⟨-, -, -, -, -, hkeys, -⟩ := fields_of_kept h.kept
  exact hkeys

/-- What has been passed stays so. -/
theorem Behind.since (h : Behind s) (hs : Since s s') : Behind s' := by
  intro key hk hp
  rw [hs.keys] at hk
  have hpassed := h key hk hp
  have := hs.place
  have := hs.index
  unfold Mark.Passed at *
  omega

/-- A step passes what lies where it starts. -/
theorem Around.since (h : Around s) (hs : Since s s') (hi : s.mark.index < s'.mark.index) : Behind s' := by
  intro key hk hp
  rw [hs.keys] at hk
  have := hs.place
  rcases h key hk hp with hpassed | hm
  · unfold Mark.Passed at *
    omega
  · unfold Mark.Passed
    rw [hm]
    omega

/-- The two scanners stand at the same place, `i` characters behind `o` or further, with `P` and with
the next `n` characters in their buffers. -/
structure Here (R : Simulation ι κ) (o : Scanner ι × Scanner κ) (P : Scanner ι → Prop) (n i : Nat) (s : Scanner ι)
    (t : Scanner κ) : Prop where
  onto : t = s.onto t.input
  rel : R.Rel s.mark n s.input t.input
  ahead : P s
  index : o.1.mark.index + i ≤ s.mark.index
  started : s.streamStartProduced = o.1.streamStartProduced
  left : s.mark.index + Input.size s.input ≤ o.1.mark.index + Input.size o.1.input
  right : s.mark.index + Input.size t.input ≤ o.1.mark.index + Input.size o.2.input

/-- How fetching fails. -/
structure Fails (R : Simulation ι κ) (e : Fault) (s : Scanner ι) (t : Scanner κ) : Prop where
  fault : e ≠ .outOfFuel
  onto : t = s.onto t.input
  broken : R.Broken s.mark s.input t.input

variable {R : Simulation ι κ} {o : Scanner ι × Scanner κ} {P P' Q : Scanner ι → Prop} {n m i k : Nat}

namespace Here

theorem weaken {t : Scanner κ} (h : Here R o P n i s t) (hP : P s → P' s) {n' i' : Nat} (hn : n' ≤ n) (hi : i' ≤ i) :
    Here R o P' n' i' s t :=
  ⟨h.onto, R.mono hn h.rel, hP h.ahead, by have := h.index; omega, h.started, h.left, h.right⟩

/-- What does not depend on the input. -/
theorem blind {K : Prop} {x : ScanM ι α} {y : ScanM κ α} (hx : Blind K x y) (hP : ∀ s s', Stays K s s' → P s → P' s') :
    Sim (Here R o P n i) x y (fun _ => Here R o P' n i) (Fails R) := by
  intro s t h
  have hs := hx s t.input
  unfold BlindAt at hs
  rw [← h.onto] at hs
  cases hr : x s <;> cases hr' : y t <;> rw [hr, hr'] at hs <;> try exact hs.elim
  · obtain ⟨ha, rfl, hstays⟩ := hs
    refine ⟨ha, rfl, ?_, hP _ _ hstays h.ahead, ?_, hstays.started.trans h.started, ?_, ?_⟩
    · rw [hstays.mark, hstays.input]
      exact h.rel
    · rw [hstays.mark]
      exact h.index
    · rw [hstays.mark, hstays.input]
      exact h.left
    · rw [hstays.mark]
      exact h.right
  · obtain ⟨he, hfuel, rfl, hm, hi⟩ := hs
    refine ⟨he, hfuel, rfl, ?_⟩
    rw [hm, hi]
    exact R.broken h.rel

/-- What is scanned. -/
theorem scan {x : ScanM ι α} {y : ScanM κ α} {d : Nat} {A B : Scanner ι → Prop}
    (hx : ∀ o i, Sim (Ready R o A n i) x y (fun _ => Ready R o B k (i + d)) (Lost R o)) (hA : ∀ s, P s → A s)
    (hP : ∀ s s', P s → Since s s' → s.mark.index + d ≤ s'.mark.index → B s' → P' s') :
    Sim (Here R o P n i) x y (fun _ => Here R o P' k (i + d)) (Fails R) := by
  intro s t h
  have hm : t.mark = s.mark := by rw [h.onto]; rfl
  have hs := hx (s, t) s.mark.index s t ⟨h.onto, h.rel, hA s h.ahead, le_rfl, .refl s, .refl t⟩
  cases hr : x s <;> cases hr' : y t <;> rw [hr, hr'] at hs <;> try exact hs.elim
  · obtain ⟨ha, hs⟩ := hs
    rename_i s' b t'
    have hm' : t'.mark = s'.mark := by rw [hs.onto]; rfl
    have hl := hs.left.size
    have hr := hs.right.size
    have := hs.index
    have := h.index
    have := h.left
    have := h.right
    simp only [hm, hm'] at hl hr
    obtain ⟨-, -, -, -, -, -, hstarted⟩ := fields_of_kept hs.left.kept
    exact ⟨ha, hs.onto, hs.rel, hP s s' h.ahead hs.left hs.index hs.ahead, by omega, hstarted.trans h.started,
      by omega, by omega⟩
  · obtain ⟨he, hs⟩ := hs
    obtain ⟨problem, hp⟩ := hs.reported
    exact ⟨he, hp ▸ Fault.noConfusion, hs.onto, hs.broken⟩

/-- What is told of the state is the same on both sides. -/
theorem told {f : Scanner ι → ScanM ι β} {g : Scanner κ → ScanM κ β} {Q : β → Scanner ι → Scanner κ → Prop}
    {E : Fault → Scanner ι → Scanner κ → Prop}
    (h : ∀ o' j, P o' → Sim (Here R o (fun s => P s ∧ s = o') n i) (f o') (g (o'.onto j)) Q E) :
    Sim (Here R o P n i) (get >>= f) (get >>= g) Q E := by
  intro s t hst
  have hs := h s t.input hst.ahead s t (hst.weaken (fun h => ⟨h, rfl⟩) le_rfl le_rfl)
  rw [← hst.onto] at hs
  exact hs

theorem flow {f : Bool → ScanM ι β} {g : Bool → ScanM κ β} {Q : β → Scanner ι → Scanner κ → Prop}
    {E : Fault → Scanner ι → Scanner κ → Prop}
    (h : ∀ b, Sim (Here R o (fun s => P s ∧ decide (s.flowLevel ≠ 0) = b) n i) (f b) (g b) Q E) :
    Sim (Here R o P n i) (inFlow >>= f) (inFlow >>= g) Q E := by
  intro s t hst
  have hm : t.flowLevel = s.flowLevel := by rw [hst.onto]; rfl
  have := h (decide (s.flowLevel ≠ 0)) s t (hst.weaken (fun h => ⟨h, rfl⟩) le_rfl le_rfl)
  rwa [bind_apply, bind_apply, Scanner.inFlow, Scanner.inFlow, hm]

theorem mark {f : Mark → ScanM ι β} {g : Mark → ScanM κ β} {Q : β → Scanner ι → Scanner κ → Prop}
    {E : Fault → Scanner ι → Scanner κ → Prop}
    (h : ∀ w, Sim (Here R o (fun s => P s ∧ s.mark = w) n i) (f w) (g w) Q E) :
    Sim (Here R o P n i) (getMark >>= f) (getMark >>= g) Q E := by
  intro s t hst
  have hm : t.mark = s.mark := by rw [hst.onto]; rfl
  have := h s.mark s t (hst.weaken (fun h => ⟨h, rfl⟩) le_rfl le_rfl)
  rwa [bind_apply, bind_apply, Scanner.getMark, Scanner.getMark, hm]

theorem ifLook {c : View → Bool} {x y : ScanM ι β} {x' y' : ScanM κ β} {Q : β → Scanner ι → Scanner κ → Prop}
    {E : Fault → Scanner ι → Scanner κ → Prop} (hc : Local n c)
    (hx : Sim (Here R o (fun s => P s ∧ Shows (c · = true) s) n i) x x' Q E)
    (hy : Sim (Here R o (fun s => P s ∧ Shows (c · = false) s) n i) y y' Q E) :
    Sim (Here R o P n i) (look c >>= fun b => if b = true then x else y)
      (look c >>= fun b => if b = true then x' else y') Q E := by
  intro s t h
  have he := hc _ _ (R.agree h.rel)
  rw [bind_apply, bind_apply, look, look, ← he]
  cases hs : c (Input.view s.input) with
  | true => exact hx s t (h.weaken (fun h => ⟨h, hs⟩) le_rfl le_rfl)
  | false => exact hy s t (h.weaken (fun h => ⟨h, hs⟩) le_rfl le_rfl)

/-- A token joins the queue. -/
theorem enqueue {token : Token} (hP : ∀ s s', Stays False s s' → P s → P' s') :
    Sim (Here R o P n i) (enqueueToken token) (enqueueToken token)
      (fun _ => Here R o (fun s => P' s ∧ token ∈ s.tokens) n i) (Fails R) := by
  intro s t h
  have hq := blind (P := P) (@Blind.enqueueToken ι κ False token) hP s t h
  refine ⟨rfl, ?_⟩
  have hq := hq.2
  exact hq.weaken (fun h => ⟨h, List.mem_append_right _ (List.mem_singleton.mpr rfl)⟩) le_rfl le_rfl

end Here

theorem Shows.stays {K : Prop} {p : View → Prop} (h : Shows p s) (hs : Stays K s s') : Shows p s' := by
  unfold Shows
  rw [hs.input]
  exact h

/-! ## Fetching a token -/

/-- `fetchBlockScalar` with the scalar scanned by `scan`. -/
def fetchBlockScalarWith (scan : ScanM ι Token) : ScanM ι Unit := do
  removeSimpleKey
  allowSimpleKey true
  let token ← scan
  enqueueToken token

/-- `fetchToken` with plain scalars scanned by `plain` and block scalars by `block`. -/
def fetchTokenWith (plain : ScanM ι Token) (block : Bool → ScanM ι Token) : ScanM ι Unit := do
  let flow ← inFlow
  let mark ← getMark
  let first : Bool := mark.column = 0
  if ← look isZ then fetchStreamEnd
  else if ← look (fun p => first && check p '%') then fetchDirective
  else if ← look (fun p => first && isDocumentStart p) then fetchDocumentIndicator .documentStart
  else if ← look (fun p => first && isDocumentEnd p) then fetchDocumentIndicator .documentEnd
  else if ← look (check · '[') then fetchFlowCollectionStart .flowSequenceStart
  else if ← look (check · '{') then fetchFlowCollectionStart .flowMappingStart
  else if ← look (check · ']') then fetchFlowCollectionEnd .flowSequenceEnd
  else if ← look (check · '}') then fetchFlowCollectionEnd .flowMappingEnd
  else if ← look (check · ',') then fetchFlowEntry
  else if ← look (fun p => check p '-' && isBlankzAt p 1) then fetchBlockEntry
  else if ← look (fun p => check p '?' && (flow || isBlankzAt p 1)) then fetchKey
  else if ← look (fun p => check p ':' && (flow || isBlankzAt p 1)) then fetchValue
  else if ← look (check · '*') then fetchAnchor .alias
  else if ← look (check · '&') then fetchAnchor .anchor
  else if ← look (check · '!') then fetchTag
  else if ← look (fun p => check p '|' && !flow) then fetchBlockScalarWith (block true)
  else if ← look (fun p => check p '>' && !flow) then fetchBlockScalarWith (block false)
  else if ← look (check · '\'') then fetchFlowScalar true
  else if ← look (check · '"') then fetchFlowScalar false
  else if ← look (startsPlainScalar flow) then fetchNode plain
  else
    scannerError (some "while scanning for the next token") mark
      "found character that cannot start any token"

theorem fetchToken_eq : fetchToken (ι := ι) = fetchTokenWith scanPlainScalar scanBlockScalar := rfl

/-- What has been fetched: a token that has been passed, or the end of the stream. -/
def Fetched (R : Simulation ι κ) (o : Scanner ι × Scanner κ) (i : Nat) (s : Scanner ι) (t : Scanner κ) : Prop :=
  Here R o (fun s => Behind s ∧ s.tokens ≠ []) 0 (i + 1) s t
    ∨ Here R o (fun s => Above s ∧ ∃ token ∈ s.tokens, token.type = .streamEnd) 0 i s t

section Fetch

theorem scanned_here {x : ScanM ι Token} {y : ScanM κ Token} {A : Scanner ι → Prop}
    (hx : ∀ o i, Sim (Ready R o A n i) x y (fun _ => Ready R o (Ahead 0) k (i + 1)) (Lost R o)) :
    Sim (Here R o (fun s => Around s ∧ A s) n i) (x >>= enqueueToken) (y >>= enqueueToken)
      (fun _ => Fetched R o i) (Fails R) := by
  have hscan : Sim (Here R o (fun s => Around s ∧ A s) n i) x y (fun _ => Here R o Behind k (i + 1)) (Fails R) :=
    Here.scan hx (fun _ h => h.2) fun s s' h hs hi _ => h.1.since hs hi
  refine hscan.bind fun token => ?_
  refine (Here.enqueue fun _ _ hs h => h.stays hs).weaken (fun _ _ h => h) (fun _ _ _ h => ?_) fun _ _ _ h => h
  exact .inl (h.weaken (fun h => ⟨h.1, List.ne_nil_of_mem h.2⟩) (Nat.zero_le _) le_rfl)

theorem fetchNode_here {x : ScanM ι Token} {y : ScanM κ Token} {A : Scanner ι → Prop}
    (hx : ∀ o i, Sim (Ready R o A n i) x y (fun _ => Ready R o (Ahead 0) k (i + 1)) (Lost R o))
    (hA : ∀ s s' : Scanner ι, Stays True s s' → A s → A s') :
    Sim (Here R o (Stands A) n i) (fetchNode x) (fetchNode y) (fun _ => Fetched R o i) (Fails R) := by
  have hstays (s s' : Scanner ι) (hs : Stays True s s') (h : Around s ∧ A s) : Around s' ∧ A s' :=
    ⟨h.1.stays hs, hA s s' hs h.2⟩
  refine (Here.blind .saveSimpleKey fun s s' hs h => hstays s s' hs ⟨h.1.around, h.2⟩).bind fun _ => ?_
  exact (Here.blind .allowSimpleKey hstays).bind fun _ => scanned_here hx

theorem enqueueIndicator_here {c : Nat} {data : TokenData} (hc : 0 < c) :
    Sim (Here R o (fun s => Around s ∧ Shows (Solid c) s) (k + c) i) (enqueueIndicator c data) (enqueueIndicator c data)
      (fun _ => Fetched R o i) (Fails R) := by
  refine (Here.blind (K := False) .getMark fun s s' hs h =>
    (⟨h.1.stays hs, h.2.stays hs⟩ : _ ∧ Shows (Solid c) s')).bind
    fun start => ?_
  have hskips : Sim (Here R o (fun s => Around s ∧ Shows (Solid c) s) (k + c) i) (skips c) (skips c)
      (fun _ => Here R o Behind k (i + c)) (Fails R) :=
    Here.scan (fun o i => (Sim.skips (k := 0)).weaken (fun _ _ h => h) (fun _ _ _ h => h) fun _ _ _ h => h)
      (fun _ h => by simpa using h.2) fun s s' h hs hi _ => h.1.since hs (by omega)
  refine hskips.bind fun _ => (Here.blind .getMark fun s s' hs h => h.stays hs).bind fun finish => ?_
  refine (Here.enqueue fun _ _ hs h => h.stays hs).weaken (fun _ _ h => h) (fun _ _ _ h => ?_) fun _ _ _ h => h
  exact .inl (h.weaken (fun h => ⟨h.1, List.ne_nil_of_mem h.2⟩) (Nat.zero_le _) (by omega))

theorem Stands.stays {p : View → Prop} (hs : Stays False s s') (h : Stands (Shows p) s) : Stands (Shows p) s' :=
  ⟨h.1.stays hs, h.2.stays hs⟩

theorem around_stays {K : Prop} {p : View → Prop} (hs : Stays K s s') (h : Around s ∧ Shows p s) :
    Around s' ∧ Shows p s' :=
  ⟨h.1.stays hs, h.2.stays hs⟩

theorem indicator_here {c : Nat} {data : TokenData} {x : ScanM ι Unit} {y : ScanM κ Unit} (hc : 0 < c)
    (hx : Blind False x y) : Sim (Here R o (Stands (Shows (Solid c))) (k + c) i) (x >>= fun _ => enqueueIndicator c data)
      (y >>= fun _ => enqueueIndicator c data) (fun _ => Fetched R o i) (Fails R) :=
  (Here.blind hx fun _ _ hs h => (Stands.stays hs h).around).bind fun _ => enqueueIndicator_here hc

theorem fetchFlowCollectionStart_here {data : TokenData} : Sim (Here R o (Stands (Shows (Solid 1))) 4 i)
    (fetchFlowCollectionStart data) (fetchFlowCollectionStart data) (fun _ => Fetched R o i) (Fails R) := by
  refine (Here.blind .saveSimpleKey fun _ _ hs h => around_stays hs h.around).bind fun _ => ?_
  refine (Here.blind .increaseFlowLevel fun _ _ => around_stays).bind fun _ => ?_
  exact (Here.blind .allowSimpleKey fun _ _ => around_stays (K := False)).bind fun _ =>
    enqueueIndicator_here (k := 3) (by decide)

theorem fetchFlowCollectionEnd_here {data : TokenData} : Sim (Here R o (Stands (Shows (Solid 1))) 4 i)
    (fetchFlowCollectionEnd data) (fetchFlowCollectionEnd data) (fun _ => Fetched R o i) (Fails R) := by
  refine (Here.blind (K := False) .removeSimpleKey fun _ _ => Stands.stays).bind fun _ => ?_
  refine (Here.blind .decreaseFlowLevel fun _ _ => Stands.stays).bind fun _ => ?_
  exact indicator_here (k := 3) (by decide) .allowSimpleKey

theorem fetchFlowEntry_here : Sim (Here R o (Stands (Shows (Solid 1))) 4 i) fetchFlowEntry fetchFlowEntry
    (fun _ => Fetched R o i) (Fails R) :=
  (Here.blind (K := False) .removeSimpleKey fun _ _ => Stands.stays).bind fun _ =>
    indicator_here (k := 3) (by decide) .allowSimpleKey

theorem fetchDocumentIndicator_here {data : TokenData} : Sim (Here R o (Stands (Shows (Solid 3))) 4 i)
    (fetchDocumentIndicator data) (fetchDocumentIndicator data) (fun _ => Fetched R o i) (Fails R) := by
  refine (Here.blind .unrollIndent fun _ _ => Stands.stays).bind fun _ => ?_
  refine (Here.blind (K := False) .removeSimpleKey fun _ _ => Stands.stays).bind fun _ => ?_
  exact indicator_here (k := 1) (by decide) .allowSimpleKey

theorem fetchBlockEntry_here : Sim (Here R o (Stands (Shows (Solid 1))) 4 i) fetchBlockEntry fetchBlockEntry
    (fun _ => Fetched R o i) (Fails R) := by
  refine (Here.blind .startBlockCollection fun _ _ => Stands.stays).bind fun _ => ?_
  refine (Here.blind (K := False) .removeSimpleKey fun _ _ => Stands.stays).bind fun _ => ?_
  exact indicator_here (k := 3) (by decide) .allowSimpleKey

/-- What allows a simple key depends on the flow level. -/
theorem allowed_here : Sim (Here R o (Stands (Shows (Solid 1))) 4 i)
    (get >>= fun s => allowSimpleKey (s.flowLevel = 0) >>= fun _ => enqueueIndicator 1 data)
    (get >>= fun s => allowSimpleKey (s.flowLevel = 0) >>= fun _ => enqueueIndicator 1 data)
    (fun _ => Fetched R o i) (Fails R) :=
  Here.told fun _ _ _ => (indicator_here (k := 3) (by decide) .allowSimpleKey).weaken
    (fun _ _ h => h.weaken And.left le_rfl le_rfl) (fun _ _ _ h => h) fun _ _ _ h => h

theorem fetchKey_here : Sim (Here R o (Stands (Shows (Solid 1))) 4 i) fetchKey fetchKey
    (fun _ => Fetched R o i) (Fails R) := by
  refine (Here.blind .startBlockCollection fun _ _ => Stands.stays).bind fun _ => ?_
  exact (Here.blind (K := False) .removeSimpleKey fun _ _ => Stands.stays).bind fun _ => allowed_here

theorem fetchValue_here : Sim (Here R o (Stands (Shows (Solid 1))) 4 i) fetchValue fetchValue
    (fun _ => Fetched R o i) (Fails R) := by
  refine (Here.blind (K := False) .topSimpleKey fun _ _ => Stands.stays).bind fun key => ?_
  cases key.possible with
  | true =>
    refine (Here.blind (K := False) .insertToken fun _ _ => Stands.stays).bind fun _ => ?_
    refine (Here.blind .rollIndent fun _ _ => Stands.stays).bind fun _ => ?_
    refine (Here.blind (K := False) (.setTopSimpleKey rfl) fun _ _ => Stands.stays).bind fun _ => ?_
    exact indicator_here (k := 3) (by decide) .allowSimpleKey
  | false => exact (Here.blind .startBlockCollection fun _ _ => Stands.stays).bind fun _ => allowed_here

theorem fetchBlockScalarWith_here {A : Scanner ι → Prop} {x : ScanM ι Token} {y : ScanM κ Token}
    (hx : ∀ o i, Sim (Ready R o A n i) x y (fun _ => Ready R o (Ahead 0) k (i + 1)) (Lost R o))
    (hA : ∀ s s' : Scanner ι, Stays True s s' → A s → A s') :
    Sim (Here R o (Stands A) n i) (fetchBlockScalarWith x) (fetchBlockScalarWith y) (fun _ => Fetched R o i)
      (Fails R) := by
  have hstays (s s' : Scanner ι) (hs : Stays True s s') (h : Around s ∧ A s) : Around s' ∧ A s' :=
    ⟨h.1.stays hs, hA s s' hs h.2⟩
  refine (Here.blind .removeSimpleKey fun s s' hs h => hstays s s' hs h.around).bind fun _ => ?_
  exact (Here.blind .allowSimpleKey hstays).bind fun _ => scanned_here hx

theorem fetchDirective_here : Sim (Here R o (Stands (Shows (Solid 1))) 4 i)
    fetchDirective fetchDirective (fun _ => Fetched R o i) (Fails R) := by
  refine (Here.blind .unrollIndent fun _ _ => Stands.stays).bind fun _ => ?_
  refine (Here.blind (K := False) .removeSimpleKey fun _ _ => Stands.stays).bind fun _ => ?_
  refine (Here.blind (K := False) .allowSimpleKey fun _ _ hs h => (Stands.stays hs h).around).bind fun _ => ?_
  exact scanned_here fun _ _ => Sim.scanDirective

/-- The end of the stream lies in a line of its own. -/
theorem fetchStreamEnd_here : Sim (Here R o Behind n i) fetchStreamEnd fetchStreamEnd (fun _ => Fetched R o i)
    (Fails R) := by
  have hend : Sim (Here R o Behind n i)
      (modify fun s => if s.mark.column = 0 then s else { s with mark := ⟨s.mark.index, s.mark.line + 1, 0⟩ })
      (modify fun s => if s.mark.column = 0 then s else { s with mark := ⟨s.mark.index, s.mark.line + 1, 0⟩ })
      (fun _ => Here R o Above n i) (Fails R) := by
    intro s t h
    have hm : t.mark = s.mark := by rw [h.onto]; rfl
    refine ⟨rfl, ?_⟩
    dsimp only
    rw [hm]
    split_ifs with hcolumn
    · refine h.weaken (fun h key hk hp => ?_) le_rfl le_rfl
      have := h key hk hp
      unfold Mark.Passed at this
      omega
    · refine ⟨?_, R.ended h.rel, fun key hk hp => ?_, h.index, h.started, h.left, h.right⟩
      · rw [h.onto]
        rfl
      · have := h.ahead key hk hp
        unfold Mark.Passed at this
        show key.mark.line < s.mark.line + 1
        omega
  refine hend.bind fun _ => (Here.blind .unrollIndent fun _ _ hs h => h.stays hs).bind fun _ => ?_
  refine (Here.blind .removeSimpleKey fun _ _ hs h => h.stays hs).bind fun _ => ?_
  refine (Here.blind .allowSimpleKey fun _ _ hs h => h.stays hs).bind fun _ => Here.told fun o' j _ => ?_
  have habove (s s' : Scanner ι) (hs : Stays False s s') (h : Above s ∧ s = o') : Above s' := h.1.stays hs
  refine (Here.enqueue habove).weaken (fun _ _ h => h) (fun _ _ _ h => ?_) fun _ _ _ h => h
  exact .inr (h.weaken (fun h => ⟨h.1, _, h.2, rfl⟩) (Nat.zero_le _) le_rfl)

/-- The place of the next token, with what is known of the characters there. -/
structure Rest (I : Int → Prop) (flow : Bool) (w : Mark) (p : View → Prop) (s : Scanner ι) : Prop where
  behind : Behind s
  indent : I s.indent
  flow : decide (s.flowLevel ≠ 0) = flow
  mark : s.mark = w
  view : Shows p s

variable {I : Int → Prop} {flow : Bool} {w : Mark} {p q : View → Prop} {Q : β → Scanner ι → Scanner κ → Prop}
  {E : Fault → Scanner ι → Scanner κ → Prop} {c : View → Bool}

theorem Rest.ifLook {x y : ScanM ι β} {x' y' : ScanM κ β} (hc : Local n c) (hq : ∀ v, c v = true → q v)
    (hx : Sim (Here R o (Stands fun s => Shows q s ∧ I s.indent) n i) x x' Q E)
    (hy : Sim (Here R o (Rest I flow w fun v => p v ∧ c v = false) n i) y y' Q E) :
    Sim (Here R o (Rest I flow w p) n i) (look c >>= fun b => if b = true then x else y)
      (look c >>= fun b => if b = true then x' else y') Q E := by
  refine Here.ifLook hc (Fallible.Sim.of hx fun s t h =>
    h.weaken (fun h => ⟨h.1.behind, hq _ h.2, h.1.indent⟩) le_rfl le_rfl) ?_
  exact Fallible.Sim.of hy fun s t h =>
    h.weaken (fun h => ⟨h.1.behind, h.1.indent, h.1.flow, h.1.mark, h.1.view, h.2⟩) le_rfl le_rfl

/-- Less may be known. -/
theorem Rest.known {x : ScanM ι β} {y : ScanM κ β} (hp : ∀ v, p v → q v)
    (h : Sim (Here R o (Rest I flow w q) n i) x y Q E) : Sim (Here R o (Rest I flow w p) n i) x y Q E :=
  Fallible.Sim.of h fun _ _ h => h.weaken (fun h => ⟨h.behind, h.indent, h.flow, h.mark, hp _ h.view⟩) le_rfl le_rfl

theorem blankz_of_octet {v : View} (h : v 0 ∉ octet ' ' :: octet '\t' :: breakOctets) : isBlankz v = false := by
  have hb := inline_of_octet (v := v) fun hb => h (List.mem_cons_of_mem _ (List.mem_cons_of_mem _ hb))
  have h1 : check v ' ' = false := beq_eq_false_iff_ne.mpr fun he => h (he ▸ List.mem_cons_self)
  have h2 : check v '\t' = false :=
    beq_eq_false_iff_ne.mpr fun he => h (he ▸ List.mem_cons_of_mem _ List.mem_cons_self)
  have hz : isZ v = false := beq_eq_false_iff_ne.mpr hb.1
  change (check v ' ' || check v '\t' || (isBreak v || isZ v)) = false
  rw [h1, h2, hb.2, hz]
  rfl

/-- What has been excluded before a plain scalar is considered. -/
structure Excluded (flow : Bool) (w : Mark) (v : View) : Prop where
  indicator : w.column = 0 → isDocumentIndicator v = false
  brackets : [',', '[', ']', '{', '}'].any (check v ·) = false
  colon : (check v ':' && (flow || isBlankzAt v 1)) = false

/-- A plain scalar starts with its text. -/
theorem Rest.startsPlain (h : Rest I flow w (Excluded flow w) s) (hs : startsPlainScalar flow (Input.view s.input) = true) :
    Sim.StartsPlain s := by
  obtain ⟨hdocument, hbrackets, hcolon⟩ := h.view
  have hflow := h.flow
  generalize hv : Input.view s.input = v at *
  have hplain : isBlankz v = false ∧ check v '#' = false := by
    rw [startsPlainScalar, Bool.or_eq_true, Bool.or_eq_true] at hs
    rcases hs with (hs | hs) | hs
    · have hs : isIndicator v = false := by simpa using hs
      rw [isIndicator, Bool.or_eq_false_iff] at hs
      refine ⟨hs.1, ?_⟩
      have := List.any_eq_false.mp hs.2 '#' (by decide)
      simpa using this
    · have h0 : v 0 = octet '-' := by
        have := (Bool.and_eq_true_iff.mp hs).1
        simpa [check, checkAt] using this
      refine ⟨blankz_of_octet (by rw [h0]; decide), ?_⟩
      change (v 0 == octet '#') = false
      rw [h0]
      decide
    · have h0 : v 0 = octet '?' ∨ v 0 = octet ':' := by
        have := (Bool.and_eq_true_iff.mp (Bool.and_eq_true_iff.mp hs).1).2
        simpa [check, checkAt] using this
      rcases h0 with h0 | h0
      all_goals
        refine ⟨blankz_of_octet (by rw [h0]; decide), ?_⟩
        change (v 0 == octet '#') = false
        rw [h0]
        decide
  refine ⟨?_, ?_, fun h0 => ?_⟩
  · rw [Sim.StartsText, Shows, hv, hflow]
    refine ⟨hplain.1, ?_, ?_⟩
    · cases flow with
      | false => rfl
      | true =>
        rw [Bool.true_or, Bool.and_true] at hcolon
        rw [isStrayColon, hcolon]
        rfl
    · rw [endsPlainText, hbrackets, Bool.and_false, Bool.or_false]
      cases hc : check v ':' with
      | false => rfl
      | true =>
        rw [hc, Bool.true_and, Bool.or_eq_false_iff] at hcolon
        exact hcolon.2
  · rw [Shows, hv]
    exact hplain.2
  · rw [Shows, hv]
    exact hdocument (h.mark ▸ h0)

theorem solid_of_check {v : View} {a : Char} (h : check v a = true) (ha : octet a ∉ breakOctets) : Solid 1 v :=
  (check_inline h ha).solid

theorem solid_three {v : View} {a : Char} (ha : IsInline (octet a))
    (h : (checkAt v a 0 && checkAt v a 1 && checkAt v a 2 && isBlankzAt v 3) = true) : Solid 3 v := by
  simp only [Bool.and_eq_true, checkAt, beq_iff_eq] at h
  obtain ⟨⟨⟨h0, h1⟩, h2⟩, -⟩ := h
  refine solid_ascii fun j hj => ?_
  obtain rfl | rfl | rfl : j = 0 ∨ j = 1 ∨ j = 2 := by omega
  · rwa [h0]
  · rwa [h1]
  · rwa [h2]

theorem startsPlain_stays (hs : Stays True s s') (h : Sim.StartsPlain s ∧ I s.indent) :
    Sim.StartsPlain s' ∧ I s'.indent := by
  obtain ⟨hflow, hindent⟩ := hs.node trivial
  obtain ⟨h, hI⟩ := h
  refine ⟨⟨?_, h.comment.stays hs, fun h0 => (h.indicator (hs.mark ▸ h0)).stays hs⟩, by rwa [hindent]⟩
  have := Shows.stays h.text hs
  rw [Sim.StartsText, hflow]
  exact this

theorem local_startsPlain : Local 4 (startsPlainScalar flow) := by
  have hindicator : Local 4 fun v => !isIndicator v :=
    Local.not (Local.or Local.isBlankz (Local.any _ fun _ => Local.check))
  have hdash : Local 4 fun v => check v '-' && !isBlankAt v 1 :=
    Local.behind (d := fun v => !isBlank v) (Local.not Local.isBlank) (by decide)
  have hblankz {a : Char} (ha : octet a < 0x80 ∧ octet a ≠ 0) : Local 4 fun v => check v a && !isBlankzAt v 1 :=
    Local.behind (d := fun v => !isBlankz v) (Local.not Local.isBlankz) ha
  have hother : Local 4 fun v => !flow && (check v '?' || check v ':') && !isBlankzAt v 1 := by
    intro v w h
    have hq := hblankz (a := '?') (by decide) v w h
    have hc := hblankz (a := ':') (by decide) v w h
    simp only [Bool.and_assoc, Bool.and_or_distrib_right, hq, hc]
  exact Local.or (Local.or hindicator hdash) hother

/-- Where the scalars are scanned alike, so is every token. -/
theorem fetchTokenWith_here {plain : ScanM κ Token} {block : Bool → ScanM κ Token}
    (hplain : ∀ o i, Sim (Ready R o (fun s => Sim.StartsPlain s ∧ I s.indent) 4 i) scanPlainScalar plain
      (fun _ => Ready R o (Ahead 0) 1 (i + 1)) (Lost R o))
    (hblock : ∀ literal o i, Sim (Ready R o (fun s => Shows (Solid 1) s ∧ I s.indent) 4 i) (scanBlockScalar literal)
      (block literal) (fun _ => Ready R o (Ahead 0) 1 (i + 1)) (Lost R o)) :
    Sim (Here R o (fun s => Behind s ∧ I s.indent) 4 i) fetchToken (fetchTokenWith plain block)
      (fun _ => Fetched R o i) (Fails R) := by
  have known {q : View → Prop} {x : ScanM ι Unit} {y : ScanM κ Unit}
      (h : Sim (Here R o (Stands (Shows q)) 4 i) x y (fun _ => Fetched R o i) (Fails R)) :
      Sim (Here R o (Stands fun s => Shows q s ∧ I s.indent) 4 i) x y (fun _ => Fetched R o i) (Fails R) :=
    Fallible.Sim.of h fun _ _ h => h.weaken (fun h => ⟨h.1, h.2.1⟩) le_rfl le_rfl
  have scalar (s s' : Scanner ι) (hs : Stays True s s') (h : Shows (Solid 1) s ∧ I s.indent) :
      Shows (Solid 1) s' ∧ I s'.indent := by
    rw [(hs.node trivial).2]
    exact ⟨h.1.stays hs, h.2⟩
  rw [fetchToken_eq]
  refine Here.flow fun flow => Here.mark fun w => ?_
  refine Fallible.Sim.of (A := Here R o (Rest I flow w fun _ => True) 4 i) ?_
    fun s t h => h.weaken (fun h => ⟨h.1.1.1, h.1.1.2, h.1.2, h.2, trivial⟩) le_rfl le_rfl
  refine Rest.ifLook (q := fun _ => True) Local.isZ (fun _ _ => trivial)
    (known (Fallible.Sim.of fetchStreamEnd_here fun s t h => h.weaken And.left le_rfl le_rfl)) ?_
  refine Rest.ifLook (q := Solid 1) (Local.and Local.const Local.check)
    (fun v h => solid_of_check (a := '%') (Bool.and_eq_true_iff.mp h).2 (by decide)) (known fetchDirective_here) ?_
  refine Rest.ifLook (q := Solid 3) (Local.and Local.const (Local.indicator (by decide)))
    (fun v h => solid_three (a := '-') (by decide) (Bool.and_eq_true_iff.mp h).2) (known fetchDocumentIndicator_here) ?_
  refine Rest.ifLook (q := Solid 3) (Local.and Local.const (Local.indicator (by decide)))
    (fun v h => solid_three (a := '.') (by decide) (Bool.and_eq_true_iff.mp h).2) (known fetchDocumentIndicator_here) ?_
  refine Rest.known (q := fun v => w.column = 0 → isDocumentIndicator v = false) (fun v h h0 => ?_) ?_
  · have hstart := h.1.2
    have hend := h.2
    simp only [h0, decide_true, Bool.true_and] at hstart hend
    rw [isDocumentIndicator, Bool.and_or_distrib_right]
    rw [isDocumentStart] at hstart
    rw [isDocumentEnd] at hend
    rw [hstart, hend]
    rfl
  refine Rest.ifLook (q := Solid 1) Local.check (fun v h => solid_of_check h (by decide))
    (known fetchFlowCollectionStart_here) ?_
  refine Rest.ifLook (q := Solid 1) Local.check (fun v h => solid_of_check h (by decide))
    (known fetchFlowCollectionStart_here) ?_
  refine Rest.ifLook (q := Solid 1) Local.check (fun v h => solid_of_check h (by decide))
    (known fetchFlowCollectionEnd_here) ?_
  refine Rest.ifLook (q := Solid 1) Local.check (fun v h => solid_of_check h (by decide))
    (known fetchFlowCollectionEnd_here) ?_
  refine Rest.ifLook (q := Solid 1) Local.check (fun v h => solid_of_check h (by decide)) (known fetchFlowEntry_here) ?_
  refine Rest.known (q := fun v => (w.column = 0 → isDocumentIndicator v = false)
    ∧ [',', '[', ']', '{', '}'].any (check v ·) = false) (fun v h => ?_) ?_
  · obtain ⟨⟨⟨⟨⟨h, h1⟩, h2⟩, h3⟩, h4⟩, h5⟩ := h
    refine ⟨h, ?_⟩
    simp only [List.any_cons, List.any_nil, h1, h2, h3, h4, h5, Bool.or_false]
  have hblank {a : Char} (ha : octet a < 0x80 ∧ octet a ≠ 0) :
      Local 4 fun v => check v a && (flow || isBlankzAt v 1) :=
    Local.behind (d := fun v => flow || isBlankz v) (Local.or Local.const Local.isBlankz) ha
  refine Rest.ifLook (q := Solid 1) (Local.blankzBehind (by decide))
    (fun v h => solid_of_check (a := '-') (Bool.and_eq_true_iff.mp h).1 (by decide)) (known fetchBlockEntry_here) ?_
  refine Rest.ifLook (q := Solid 1) (hblank (by decide))
    (fun v h => solid_of_check (a := '?') (Bool.and_eq_true_iff.mp h).1 (by decide)) (known fetchKey_here) ?_
  refine Rest.ifLook (q := Solid 1) (hblank (by decide))
    (fun v h => solid_of_check (a := ':') (Bool.and_eq_true_iff.mp h).1 (by decide)) (known fetchValue_here) ?_
  refine Rest.known (q := Excluded flow w) (fun v h => ⟨h.1.1.1.1, h.1.1.1.2, h.2⟩) ?_
  refine Rest.ifLook (q := Solid 1) Local.check (fun v h => solid_of_check h (by decide))
    (known (fetchNode_here (fun _ _ => Sim.scanAnchor) fun _ _ hs h => Shows.stays h hs)) ?_
  refine Rest.ifLook (q := Solid 1) Local.check (fun v h => solid_of_check h (by decide))
    (known (fetchNode_here (fun _ _ => Sim.scanAnchor) fun _ _ hs h => Shows.stays h hs)) ?_
  refine Rest.ifLook (q := (check · '!' = true)) Local.check (fun v h => h)
    (known (fetchNode_here (fun _ _ => Sim.scanTag) fun _ _ hs h => Shows.stays h hs)) ?_
  refine Rest.ifLook (q := Solid 1) (Local.and Local.check Local.const)
    (fun v h => solid_of_check (a := '|') (Bool.and_eq_true_iff.mp h).1 (by decide)) (fetchBlockScalarWith_here (hblock _) scalar) ?_
  refine Rest.ifLook (q := Solid 1) (Local.and Local.check Local.const)
    (fun v h => solid_of_check (a := '>') (Bool.and_eq_true_iff.mp h).1 (by decide)) (fetchBlockScalarWith_here (hblock _) scalar) ?_
  refine Rest.ifLook (q := Solid 1) Local.check (fun v h => solid_of_check h (by decide))
    (known (fetchNode_here (fun _ _ => Sim.scanFlowScalar) fun _ _ hs h => Shows.stays h hs)) ?_
  refine Rest.ifLook (q := Solid 1) Local.check (fun v h => solid_of_check h (by decide))
    (known (fetchNode_here (fun _ _ => Sim.scanFlowScalar) fun _ _ hs h => Shows.stays h hs)) ?_
  refine Rest.known (q := Excluded flow w) (fun v h => h.1.1.1.1.1.1.1) ?_
  refine Here.ifLook local_startsPlain (Fallible.Sim.of (fetchNode_here hplain fun _ _ => startsPlain_stays) fun s t h =>
    h.weaken (fun h => ⟨h.1.behind, h.1.startsPlain h.2, h.1.indent⟩) le_rfl le_rfl) fun s t h => ?_
  have hm : t.mark = s.mark := by rw [h.onto]; rfl
  exact ⟨by rw [hm], Fault.noConfusion, h.onto, R.broken h.rel⟩

theorem fetchToken_here : Sim (Here R o Behind 4 i) fetchToken fetchToken (fun _ => Fetched R o i) (Fails R) := by
  refine Fallible.Sim.of (A := Here R o (fun s => Behind s ∧ True) 4 i) (fetchTokenWith_here (I := fun _ => True)
    (fun _ _ => ?_) fun _ _ _ => ?_) fun _ _ h => h.weaken (fun h => ⟨h, trivial⟩) le_rfl le_rfl
  · exact Fallible.Sim.of Sim.scanPlainScalar fun _ _ h => h.weaken And.left le_rfl le_rfl
  · exact Fallible.Sim.of Sim.scanBlockScalar fun _ _ h => h.weaken And.left le_rfl le_rfl

end Fetch

end Since

end Scanner

end LibYaml
