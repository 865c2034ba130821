import LibYaml.Scanner.Beside
import LibYaml.Scanner.Runs

/-!
# Runs side by side

Two scanners whose inputs show the same characters return the same tokens, or fail in the same way.
None of the loops runs out of rounds: a token is fetched again only for a key that may still get its
':', and behind the end of the stream none may.
-/

namespace LibYaml

open Fallible

namespace Scanner

variable {ι κ : Type}

/-- Behind the end of the stream no candidate is left. -/
theorem Above.none {s : Scanner ι} {m : Mark} (hm : m = s.mark) (h : Above s)
    (hf : Candidates (SimpleKey.isStale m · = false) s.simpleKeys) : Candidates (fun _ => False) s.simpleKeys := by
  intro key hk hp
  have hline := h key hk hp
  have hfresh := hf key hk hp
  rw [hm, SimpleKey.isStale, hp, Bool.true_and, Bool.or_eq_false_iff, decide_eq_false_iff_not] at hfresh
  exact hfresh.1 hline

/-- 1 as long as the stream has not been started. -/
def pending (s : Scanner ι) : Nat := if s.streamStartProduced then 0 else 1

theorem pending_le (s : Scanner ι) : pending s ≤ 1 := by
  unfold pending
  split <;> omega

variable [Input ι] [Input κ] {R : Simulation ι κ} {o : Scanner ι × Scanner κ} {n i k : Nat}
  {s s' : Scanner ι} {t : Scanner κ}

/-- Between two tokens the two scanners stand at the same place. -/
structure Beside (R : Simulation ι κ) (s : Scanner ι) (t : Scanner κ) : Prop where
  onto : t = s.onto t.input
  rel : R.Rel s.mark 0 s.input t.input
  behind : Behind s

theorem Beside.here (h : Beside R s t) : Here R (s, t) Behind 0 0 s t := by
  have hm : t.mark = s.mark := by rw [h.onto]; rfl
  exact ⟨h.onto, h.rel, h.behind, le_rfl, rfl, le_rfl, hm ▸ le_rfl⟩

theorem Here.beside {P : Scanner ι → Prop} (h : Here R o P n i s t) (hP : P s → Behind s) : Beside R s t :=
  ⟨h.onto, R.mono (Nat.zero_le _) h.rel, hP h.ahead⟩

/-! ## The next token -/

/-- `CACHE` keeps what lies behind the scanner there. -/
theorem cache_here {m : Nat} (hm : m ≤ 8) : Sim (Here R o Behind n i) (cache m) (cache m)
    (fun _ => Here R o Behind m i) (Fails R) :=
  Here.scan (d := 0) (A := Ahead 0) (B := Ahead 0) (fun _ _ => Sim.cacheWith hm fun _ _ h _ => h) (fun _ _ => trivial)
    fun _ _ h hs _ _ => h.since hs

theorem approach_here : Sim (Here R o Behind n i) approach approach (fun _ => Here R o Behind 4 i) (Fails R) := by
  have hnext : Sim (Here R o Behind 1 i) scanToNextToken scanToNextToken (fun _ => Here R o Behind 1 i) (Fails R) :=
    Here.scan (d := 0) (A := Ahead 0) (fun _ _ => Sim.scanToNextToken) (fun _ _ => trivial)
      fun _ _ h hs _ _ => h.since hs
  refine (cache_here (by decide)).bind fun _ => hnext.bind fun _ => ?_
  refine (Here.blind .staleSimpleKeys fun _ _ hs h => h.stays hs).bind fun _ => Here.told fun s j _ => ?_
  refine Fallible.Sim.of (A := Here R o Behind 1 i) ?_ fun _ _ h => h.weaken And.left le_rfl le_rfl
  exact (Here.blind .unrollIndent fun _ _ hs h => h.stays hs).bind fun _ => cache_here (by decide)

/-- A token further than `o`: what it may have been is the start of the stream, something that has been
passed, or the end of the stream. -/
structure Further (R : Simulation ι κ) (o : Scanner ι × Scanner κ) (s : Scanner ι) (t : Scanner κ) : Prop where
  onto : t = s.onto t.input
  rel : R.Rel s.mark 0 s.input t.input
  tokens : s.tokens ≠ []
  started : s.streamStartProduced = true
  left : s.mark.index + Input.size s.input ≤ o.1.mark.index + Input.size o.1.input
  right : s.mark.index + Input.size t.input ≤ o.1.mark.index + Input.size o.2.input
  moved : Behind s ∧ o.1.mark.index + 1 ≤ s.mark.index + pending o.1
    ∨ Above s ∧ o.1.mark.index ≤ s.mark.index ∧ ∃ token ∈ s.tokens, token.type = .streamEnd

theorem Fetched.further (h : Fetched R o 0 s t) (hs : o.1.streamStartProduced = true) : Further R o s t := by
  have hp : pending o.1 = 0 := if_pos hs
  rcases h with h | h
  · exact ⟨h.onto, h.rel, h.ahead.2, h.started.trans hs, h.left, h.right, .inl ⟨h.ahead.1, by have := h.index; omega⟩⟩
  · obtain ⟨habove, token, hm, htype⟩ := h.ahead
    exact ⟨h.onto, h.rel, List.ne_nil_of_mem hm, h.started.trans hs, h.left, h.right,
      .inr ⟨habove, h.index, token, hm, htype⟩⟩

theorem fetchStreamStart_further (ho : o.1.streamStartProduced = false) :
    Sim (Here R o Behind 1 0) fetchStreamStart fetchStreamStart (fun _ => Further R o) (Fails R) := by
  intro s t h
  have hm : t.mark = s.mark := by rw [h.onto]; rfl
  have htokens : t.tokens = s.tokens := by rw [h.onto]; rfl
  have hencoding := R.encoding h.rel
  have hp : pending o.1 = 1 := if_neg (by rw [ho]; exact Bool.false_ne_true)
  refine ⟨rfl, ?_, R.mono (Nat.zero_le _) h.rel, ?_, rfl, h.left, h.right, .inl ⟨fun key hk hposs => ?_, ?_⟩⟩
  · rw [← hencoding, hm, h.onto]
    rfl
  · exact List.append_ne_nil_of_right_ne_nil _ (List.cons_ne_nil _ _)
  · rcases List.mem_cons.mp hk with rfl | hk
    · cases hposs
    · exact h.ahead key hk hposs
  · have := h.index
    rw [hp]
    exact Nat.add_le_add_right this 1

theorem fetchNextToken_further : Sim (Here R o Behind 0 0) fetchNextToken fetchNextToken (fun _ => Further R o)
    (Fails R) := by
  cases ho : o.1.streamStartProduced with
  | true =>
    intro s t h
    have hs : s.streamStartProduced = true := h.started.trans ho
    have ht : t.streamStartProduced = true := by rw [h.onto]; exact hs
    rw [fetchNextToken_started hs, fetchNextToken_started ht]
    exact (Fallible.Sim.weaken (approach_here.bind fun _ => fetchToken_here) (fun _ _ h => h)
      (fun _ _ _ h => Fetched.further h ho) fun _ _ _ h => h) s t h
  | false =>
    refine (cache_here (by decide)).bind fun _ s t h => ?_
    have hs : s.streamStartProduced = false := h.started.trans ho
    have ht : t.streamStartProduced = false := by rw [h.onto]; exact hs
    rw [bind_of_ok (get_apply s), bind_of_ok (get_apply t), hs, ht]
    exact fetchStreamStart_further ho s t h

/-! ## More tokens -/

/-- After `k` rounds each of them has moved the scanners on, but for the first and the last. -/
structure Turn (R : Simulation ι κ) (o : Scanner ι × Scanner κ) (k : Nat) (s : Scanner ι) (t : Scanner κ) : Prop where
  onto : t = s.onto t.input
  rel : R.Rel s.mark 0 s.input t.input
  left : s.mark.index + Input.size s.input ≤ o.1.mark.index + Input.size o.1.input
  right : s.mark.index + Input.size t.input ≤ o.1.mark.index + Input.size o.2.input
  moved : Behind s ∧ k + pending s + o.1.mark.index ≤ s.mark.index + 1
    ∨ Above s ∧ s.tokens ≠ [] ∧ k + o.1.mark.index ≤ s.mark.index + 2

theorem Turn.next (h : Turn R o k s t) (hb : Behind s ∧ k + pending s + o.1.mark.index ≤ s.mark.index + 1)
    {t' : Scanner κ} (h' : Further R (s, t) s' t') : Turn R o (k + 1) s' t' := by
  have hm : t.mark = s.mark := by rw [h.onto]; rfl
  have hp : pending s' = 0 := if_pos h'.started
  have := h.left
  have := h.right
  have hl := h'.left
  have hr := h'.right
  simp only at hl hr
  refine ⟨h'.onto, h'.rel, by omega, by omega, ?_⟩
  rcases h'.moved with ⟨hbehind, hi⟩ | ⟨habove, hi, -⟩ <;> simp only at hi
  · exact .inl ⟨hbehind, by omega⟩
  · exact .inr ⟨habove, h'.tokens, by omega⟩

theorem Turn.bound (h : Turn R o k s t) : k < Input.size o.1.input + 4 ∧ k < Input.size o.2.input + 4 := by
  have := h.left
  have := h.right
  rcases h.moved with ⟨-, hi⟩ | ⟨-, -, hi⟩
  · exact ⟨by omega, by omega⟩
  · exact ⟨by omega, by omega⟩

theorem Turn.beside (h : Turn R o k s t) (hb : Behind s) : Beside R s t := ⟨h.onto, h.rel, hb⟩

/-- After the stale candidates have been given up. -/
theorem Turn.stale (h : Turn R o k s t) : Sim (fun s' t' => s' = s ∧ t' = t) staleSimpleKeys staleSimpleKeys
    (fun _ s' t' => Turn R o k s' t' ∧ s'.tokens = s.tokens
      ∧ Candidates (SimpleKey.isStale s'.mark · = false) s'.simpleKeys) (Fails R) := by
  intro s' t' hst
  rw [hst.1, hst.2]
  have hs := Blind.staleSimpleKeys (K := False) (κ := κ) s t.input
  unfold BlindAt at hs
  rw [← h.onto] at hs
  cases hr : staleSimpleKeys s <;> cases hr' : staleSimpleKeys t <;> rw [hr, hr'] at hs <;> try exact hs.elim
  · obtain ⟨ha, rfl, hstays⟩ := hs
    obtain ⟨heq, hfresh⟩ := staleSimpleKeys_ok hr
    refine ⟨ha, ⟨rfl, ?_, ?_, ?_, ?_⟩, ?_, ?_⟩
    · rw [hstays.mark, hstays.input]
      exact h.rel
    · rw [hstays.mark, hstays.input]
      exact h.left
    · rw [hstays.mark]
      exact h.right
    · have hp : pending (ι := ι) _ = pending s := congrArg (if · then 0 else 1) hstays.started
      rw [hp, hstays.mark]
      refine h.moved.imp (fun hb => ⟨hb.1.stays hstays, hb.2⟩) fun hb => ⟨hb.1.stays hstays, ?_, hb.2.2⟩
      rw [heq]
      exact hb.2.1
    · rw [heq]
    · rw [hstays.mark]
      exact hfresh
  · obtain ⟨he, hfuel, rfl, hm, hi⟩ := hs
    refine ⟨he, hfuel, rfl, ?_⟩
    rw [hm, hi]
    exact R.broken h.rel

theorem Turn.again (h : Turn R o k s t) (hb : Behind s ∧ k + pending s + o.1.mark.index ≤ s.mark.index + 1) :
    Sim (fun s' t' => s' = s ∧ t' = t) (do
      fetchNextToken
      return .again () : ScanM ι (Round Unit Unit)) (do
      fetchNextToken
      return .again () : ScanM κ (Round Unit Unit))
      (Round.elim (fun _ => Turn R o (k + 1)) fun _ s t => Beside R s t ∧ s.tokens ≠ []) (Fails R) := by
  refine Fallible.Sim.bind (Q := fun _ => Turn R o (k + 1)) ?_ fun _ => Fallible.Sim.pure fun _ _ h => h
  refine (fetchNextToken_further (R := R) (o := (s, t))).weaken ?_ (fun _ _ _ h' => h.next hb h') fun _ _ _ h => h
  rintro _ _ ⟨rfl, rfl⟩
  exact (h.beside hb.1).here

theorem moreTokens_turn : Sim (Turn R o k) moreTokens moreTokens
    (Round.elim (fun _ => Turn R o (k + 1)) fun _ s t => Beside R s t ∧ s.tokens ≠ []) (Fails R) := by
  intro s t h
  have htokens : t.tokens = s.tokens := by rw [h.onto]; rfl
  unfold moreTokens
  rw [bind_of_ok (get_apply s), bind_of_ok (get_apply t), htokens]
  cases hempty : s.tokens.isEmpty with
  | true =>
    refine h.again (h.moved.resolve_right fun hb => hb.2.1 ?_) s t ⟨rfl, rfl⟩
    exact List.isEmpty_iff.mp hempty
  | false =>
    have hne : s.tokens ≠ [] := fun hnil => by
      rw [hnil] at hempty
      cases hempty
    refine (h.stale.bind fun _ s' t' h' => ?_) s t ⟨rfl, rfl⟩
    obtain ⟨hturn, htokens', hfresh⟩ := h'
    have hneed : needMoreTokens t' = needMoreTokens s' := by rw [hturn.onto]; rfl
    rw [bind_of_ok (get_apply s'), bind_of_ok (get_apply t'), hneed]
    cases hn : needMoreTokens s' with
    | true =>
      refine hturn.again (hturn.moved.resolve_right fun hb => ?_) s' t' ⟨rfl, rfl⟩
      obtain ⟨key, hk, hp⟩ := List.any_eq_true.mp hn
      exact hb.1.none rfl hfresh key hk (Bool.and_eq_true_iff.mp hp).1
    | false =>
      refine ⟨rfl, hturn.beside ?_, htokens' ▸ hne⟩
      rcases hturn.moved with hb | hb
      · exact hb.1
      · exact (hb.1.none rfl hfresh).mono fun _ h => h.elim

theorem fetchMoreTokens_beside : Sim (Beside R) fetchMoreTokens fetchMoreTokens
    (fun _ s t => Beside R s t ∧ s.tokens ≠ []) (Fails R) := by
  intro s t h
  have hm : t.mark = s.mark := by rw [h.onto]; rfl
  rw [fetchMoreTokens_eq, fetchMoreTokens_eq, bind_of_ok (get_apply s), bind_of_ok (get_apply t)]
  have hloop := Fallible.Sim.loop (e := .outOfFuel) (P := fun k (_ : Unit) => Turn R (s, t) k)
    (Q := fun (_ : Unit) s t => Beside R s t ∧ s.tokens ≠ []) (E := Fails R) (fun _ _ _ _ h => h.bound)
    (fun _ _ => moreTokens_turn) 0 ()
  have hfirst : Turn R (s, t) 0 s t :=
    ⟨h.onto, h.rel, le_rfl, hm ▸ le_rfl, .inl ⟨h.behind, by have := pending_le s; simp only; omega⟩⟩
  refine (hloop.bind fun _ => ?_) s t hfirst
  intro s' t' h'
  refine ⟨rfl, ⟨?_, h'.1.rel, h'.1.behind⟩, h'.2⟩
  rw [h'.1.onto]
  rfl

/-! ## The calls -/

/-- What does not depend on the input and moves nothing. -/
theorem Beside.blind {α : Type} {x : ScanM ι α} {y : ScanM κ α} (hx : Blind False x y) :
    Sim (Beside R) x y (fun _ => Beside R) (Fails R) :=
  Fallible.Sim.each fun s t h => by
    refine (Here.blind (R := R) (o := (s, t)) (n := 0) (i := 0) hx fun _ _ hs h => Behind.stays h hs).weaken ?_
      (fun _ _ _ h => h.beside fun h => h) fun _ _ _ h => h
    rintro _ _ ⟨rfl, rfl⟩
    exact h.here

theorem scanToken_beside : Sim (Beside R) scanToken scanToken (fun _ => Beside R) (Fails R) := by
  have hdequeue : Blind False (dequeueToken (ι := ι)) (dequeueToken (ι := κ)) := by
    intro s j
    have htokens : (s.onto j).tokens = s.tokens := rfl
    unfold BlindAt dequeueToken
    rw [htokens]
    cases s.tokens with
    | nil => exact ⟨rfl, Fault.noConfusion, rfl, rfl, rfl⟩
    | cons token rest => exact ⟨rfl, rfl, rfl, rfl, rfl, False.elim, fun _ hk _ => .inl hk⟩
  have htake : Sim (Beside R) (do
      let token ← dequeueToken
      modify fun s => { s with
        tokenAvailable := false
        tokensParsed := s.tokensParsed + 1
        streamEndProduced := s.streamEndProduced || token.type = .streamEnd }
      return token : ScanM ι Token) (do
      let token ← dequeueToken
      modify fun s => { s with
        tokenAvailable := false
        tokensParsed := s.tokensParsed + 1
        streamEndProduced := s.streamEndProduced || token.type = .streamEnd }
      return token : ScanM κ Token) (fun _ => Beside R) (Fails R) := by
    refine (Beside.blind hdequeue).bind fun token => Fallible.Sim.bind (Q := fun _ => Beside R) ?_
      fun _ => Fallible.Sim.pure fun _ _ h => h
    refine Beside.blind (.change (fun _ _ => rfl) fun s => ?_)
    exact ⟨rfl, rfl, rfl, False.elim, fun _ hk _ => .inl hk⟩
  intro s t h
  have havailable : t.tokenAvailable = s.tokenAvailable := by rw [h.onto]; rfl
  unfold scanToken
  rw [bind_of_ok (get_apply s), bind_of_ok (get_apply t), havailable]
  refine (Fallible.Sim.bind (Q := fun _ => Beside R) ?_ fun _ => htake) s t h
  cases s.tokenAvailable with
  | true => exact Fallible.Sim.pure fun _ _ h => h
  | false => exact fetchMoreTokens_beside.into fun _ _ _ h => h.1

/-- How a call fails on both sides: it says so, and nothing more is scanned. -/
structure Ends (R : Simulation ι κ) (e : Fault) (s : Scanner ι) (t : Scanner κ) : Prop where
  fault : e ≠ .outOfFuel
  onto : t = s.onto t.input
  broken : R.Broken s.mark s.input t.input
  error : ∀ problem, e = .reported problem → s.error = some problem

/-- Both scanners return the same token, or fail in the same way. -/
theorem scan_beside : Sim (Beside R) scan scan (fun _ => Beside R) (Ends R) := by
  intro s t h
  have hended : t.streamEndProduced = s.streamEndProduced := by rw [h.onto]; rfl
  have herror : t.error = s.error := by rw [h.onto]; rfl
  unfold scan
  rw [hended, herror]
  split_ifs
  · exact ⟨rfl, h⟩
  · have hs := scanToken_beside s t h
    cases hr : scanToken s <;> cases hr' : scanToken t <;> rw [hr, hr'] at hs <;> try exact hs.elim
    · exact hs
    · obtain ⟨rfl, hs⟩ := hs
      rename_i e s' t'
      cases e with
      | reported problem =>
        refine ⟨rfl, Fault.noConfusion, ?_, hs.broken, fun _ hp => ?_⟩
        · rw [hs.onto]
          rfl
        · cases hp
          rfl
      | silent => exact ⟨rfl, hs.fault, hs.onto, hs.broken, fun _ hp => Fault.noConfusion hp⟩
      | undefined => exact ⟨rfl, hs.fault, hs.onto, hs.broken, fun _ hp => Fault.noConfusion hp⟩
      | outOfFuel => exact absurd rfl hs.fault

/-! ## A run beside itself -/

section Itself

variable {R : Simulation ι ι} {input : ι} {delivered : List Token} {s t : Scanner ι}

omit [Input ι] in
theorem Above.behind (h : Above s) : Behind s := h.mono fun _ h => .inl h

theorem Further.beside {o : Scanner ι × Scanner ι} (h : Further R o s t) :
    Beside R s t :=
  ⟨h.onto, h.rel, h.moved.elim And.left fun h => h.1.behind⟩

theorem Reached.beside (h : Reached input delivered s)
    (h0 : Beside R (init input) (init input)) : Beside R s s := by
  induction h with
  | start => exact h0
  | scan _ hs _ ih =>
    obtain ⟨t', ht, hb⟩ := scan_beside.ok ih hs
    rw [hs] at ht
    cases ht
    exact hb
  | peek _ hs ih =>
    obtain ⟨t', ht, hb, -⟩ := fetchMoreTokens_beside.ok ih hs
    rw [hs] at ht
    cases ht
    exact hb
  | skip _ _ _ ih => exact ⟨rfl, ih.rel, ih.behind⟩

theorem Inside.beside (h : Inside s t) (h0 : Beside R s s) : Beside R t t := by
  induction h with
  | start => exact h0
  | stale _ hs ih =>
    obtain ⟨t', ht, hb⟩ := (Beside.blind .staleSimpleKeys).ok ih hs
    rw [hs] at ht
    cases ht
    exact hb
  | fetch _ hf ih =>
    obtain ⟨t', ht, hb⟩ := fetchNextToken_further.ok ih.here hf
    rw [hf] at ht
    cases ht
    exact hb.beside

end Itself

end Scanner

end LibYaml
