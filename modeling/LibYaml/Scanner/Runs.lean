import LibYaml.Scanner.Fetching
import LibYaml.Scanner.Text

/-!
# Runs of the scanner

A caller may take tokens with `scan`, or look at the next one and skip it, as the parser does.
Between two of its calls the scanner is at rest: what it has handed over stays as it is, and no
candidate among the keys points at the next token if that is said to be available.
-/

namespace LibYaml

namespace Scanner

open Fallible Brackets

variable {ι : Type} {delivered : List Token} {s t : Scanner ι}

/-! ## Between two calls -/

/-- The head of the queue will stay there. -/
structure Deliverable (s : Scanner ι) : Prop where
  tokens : s.tokens ≠ []
  free : Candidates (·.tokenNumber ≠ s.tokensParsed) s.simpleKeys

/-- What holds between two calls. -/
structure Resting (delivered : List Token) (s : Scanner ι) : Prop where
  between : Between delivered s
  available : s.tokenAvailable = true → Deliverable s

theorem Between.settled (h : Between delivered s) (ht : s.tokens ≠ []) : Settled delivered s := by
  refine h.resolve_left fun ⟨_, h⟩ => ht ?_
  obtain ⟨-, -, -, htokens, -⟩ := fields_of_kept h
  exact htokens

theorem Between.parsed (h : Between delivered s) : s.tokensParsed = delivered.length := by
  rcases h with ⟨rfl, h⟩ | h
  · obtain ⟨-, -, -, -, hparsed, -⟩ := fields_of_kept h
    exact hparsed
  · exact h.parsed

theorem needMoreTokens_free (h : needMoreTokens s = false) : Candidates (·.tokenNumber ≠ s.tokensParsed) s.simpleKeys := by
  intro key hk hp hn
  have := List.any_eq_false.mp h key hk
  simp [hp, hn] at this

/-- The head of the queue leaves it. -/
theorem Settled.deliver {token : Token} {rest : List Token} (h : Settled delivered s) (ended : Bool)
    (ht : s.tokens = token :: rest) (hf : Candidates (·.tokenNumber ≠ s.tokensParsed) s.simpleKeys) :
    Settled (delivered ++ [token]) { s with
      tokens := rest, tokenAvailable := false, tokensParsed := s.tokensParsed + 1, streamEndProduced := ended } := by
  have heq : delivered ++ [token] ++ rest = delivered ++ s.tokens := by
    rw [ht, List.append_assoc, List.singleton_append]
  have hnext : s.tokensParsed + 1 + rest.length = nextNumber s := by
    rw [nextNumber, ht, List.length_cons]
    omega
  have hnumbered : Candidates (fun key => s.tokensParsed + 1 ≤ key.tokenNumber ∧ key.tokenNumber < nextNumber s)
      s.simpleKeys := by
    intro key hk hp
    have := (h.numbered key hk hp).1
    have := hf key hk hp
    exact ⟨by omega, h.queued key hk hp⟩
  have hparsed := h.parsed
  have hblocks := h.blocks
  have hordered := h.ordered
  have hplaced := h.placed
  have hnear := h.near
  have hbehind := h.behind
  rw [← heq] at hblocks hordered hplaced hnear hbehind
  exact
    { started := h.started
      columns := h.columns
      bottom := h.bottom
      levels := h.levels
      numbered := hnumbered.mono fun key hk => ⟨hk.1, (hk.2.trans_eq hnext.symm).le⟩
      nested := h.nested
      parsed := by
        rw [List.length_append, List.length_singleton, ← hparsed]
      blocks := hblocks
      ordered := hordered
      placed := hplaced
      near := hnear
      behind := hbehind
      keys := h.keys
      up := h.up
      queued := hnumbered.mono fun key hk => hk.2.trans_eq hnext.symm }

theorem resting_init (input : ι) : Resting [] (init input) :=
  ⟨.inl ⟨rfl, rfl⟩, fun h => absurd h Bool.false_ne_true⟩

theorem Between.ordered (h : Between delivered s) : Ordered delivered := by
  rcases h with ⟨rfl, -⟩ | h
  · exact ⟨.nil, fun _ ht => absurd ht List.not_mem_nil⟩
  · exact ⟨h.ordered.sorted.sublist (List.sublist_append_left _ _),
      fun t ht => h.ordered.extents t (List.mem_append_left _ ht)⟩

theorem Between.keyed (h : Between delivered s) : Keyed s := by
  rcases h with ⟨-, h⟩ | h
  · exact h.keyed
  · exact h.keyed

/-- Between two tokens a candidate points at a token in the queue. -/
theorem Between.queued (h : Between delivered s) :
    Candidates (fun key => s.tokensParsed ≤ key.tokenNumber ∧ key.tokenNumber < nextNumber s) s.simpleKeys := by
  rcases h with ⟨-, h⟩ | h
  · obtain ⟨-, -, -, -, -, hkeys, -⟩ := fields_of_kept h
    have hkeys : s.simpleKeys = [] := hkeys
    rw [hkeys]
    exact fun _ hk => absurd hk List.not_mem_nil
  · exact fun key hk hp => ⟨(h.numbered key hk hp).1, h.queued key hk hp⟩

theorem Ended.defined {e : Fault} (h : Ended delivered e s) : e ≠ .undefined := by
  rintro rfl
  rcases h with h | ⟨_, h, -⟩ <;> cases h

/-- Where a call fails the candidates are still in order. -/
theorem Ended.keyed {e : Fault} (h : Ended delivered e s) (he : e ≠ .outOfFuel) : Keyed s := by
  obtain ⟨_, -, h, -⟩ := h.resolve_left he
  exact h

theorem Nested.numbers {keys : List SimpleKey} (h : Nested keys) : keys.Pairwise fun upper lower =>
    upper.possible = true → lower.possible = true → lower.tokenNumber < upper.tokenNumber :=
  h.imp fun h hp hp' => (h hp hp').1

variable [Input ι]

/-- A round of `fetchMoreTokens`. -/
def moreTokens : ScanM ι (Round Unit Unit) := do
  let s ← get
  if s.tokens.isEmpty then do
    fetchNextToken
    return .again ()
  else do
    staleSimpleKeys
    let s ← get
    if needMoreTokens s then do
      fetchNextToken
      return .again ()
    else return .leave ()

theorem fetchMoreTokens_eq : fetchMoreTokens (ι := ι) = (do
    let s ← get
    loop .outOfFuel (fun _ => moreTokens) (Input.size s.input + 4) ()
    modify fun s => { s with tokenAvailable := true }) := rfl

theorem moreTokens_spec : Holds (Between delivered) (moreTokens (ι := ι))
    (Round.elim (fun _ => Between delivered) fun _ s => Settled delivered s ∧ Deliverable s) (Ended delivered) := by
  have hagain : Holds (Between delivered) (do
      fetchNextToken
      return .again () : ScanM ι (Round Unit Unit))
      (Round.elim (fun _ => Between delivered) fun _ s => Settled delivered s ∧ Deliverable s) (Ended delivered) :=
    fetchNextToken_spec.bind fun _ => Holds.pure fun _ h => .inr h
  intro s h
  unfold moreTokens
  rw [bind_of_ok (get_apply s)]
  cases hempty : s.tokens.isEmpty with
  | true => exact hagain s h
  | false =>
    have hne : s.tokens ≠ [] := fun hnil => by
      rw [hnil] at hempty
      cases hempty
    have htokens : Holds (fun t : Scanner ι => t = s) (staleSimpleKeys (ι := ι))
        (fun _ t => Fetching delivered t ∧ t.tokens ≠ []) (Ended delivered) := by
      intro t ht
      rw [show t = s from ht]
      have hstale := staleSimpleKeys_spec s (h.settled hne)
      cases hs : staleSimpleKeys s with
      | ok u t =>
        rw [hs] at hstale
        refine ⟨hstale, ?_⟩
        rw [(staleSimpleKeys_ok hs).1]
        exact hne
      | error e t =>
        rw [hs] at hstale
        exact hstale.ended
    refine (htokens.bind fun _ t ht => ?_) s rfl
    rw [bind_of_ok (get_apply t)]
    cases hneed : needMoreTokens t with
    | true => exact hagain t (.inr ht.1.1)
    | false => exact ⟨ht.1.1, ht.2, needMoreTokens_free hneed⟩

theorem fetchMoreTokens_spec : Holds (Between delivered) (fetchMoreTokens (ι := ι))
    (fun _ s => Settled delivered s ∧ Deliverable s) (Ended delivered) := by
  intro s h
  rw [fetchMoreTokens_eq, bind_of_ok (get_apply s)]
  refine ((Holds.loop (P := fun _ => Between delivered) (Q := fun _ s => Settled delivered s ∧ Deliverable s)
    (fun _ _ _ => .inl rfl) (fun _ => moreTokens_spec) _ ()).bind fun _ => Holds.modify fun t ht => ?_) s h
  exact ⟨{ ht.1 with }, ht.2.tokens, ht.2.free⟩

/-- After the call `delivered` tokens have been handed over, and the scanner is at rest. -/
theorem scanToken_spec : Holds (Resting delivered) (scanToken (ι := ι))
    (fun token s => Resting (delivered ++ [token]) s) (Ended delivered) := by
  have hfetch : Holds (Resting delivered) (do
      let s ← get
      onlyIf (!s.tokenAvailable) fetchMoreTokens : ScanM ι Unit)
      (fun _ s => Settled delivered s ∧ Deliverable s) (Ended delivered) := by
    intro s h
    rw [bind_of_ok (get_apply s)]
    cases ha : s.tokenAvailable with
    | true => exact ⟨h.between.settled (h.available ha).tokens, h.available ha⟩
    | false => exact fetchMoreTokens_spec s h.between
  have htake : Holds (fun s : Scanner ι => Settled delivered s ∧ Deliverable s) (do
      let token ← dequeueToken
      modify fun s => { s with
        tokenAvailable := false
        tokensParsed := s.tokensParsed + 1
        streamEndProduced := s.streamEndProduced || token.type = .streamEnd }
      return token : ScanM ι Token)
      (fun token s => Resting (delivered ++ [token]) s) (Ended delivered) := by
    rintro s ⟨h, htokens, hfree⟩
    cases ht : s.tokens with
    | nil => exact absurd ht htokens
    | cons token rest =>
      have htake : dequeueToken s = .ok token { s with tokens := rest } := by
        unfold dequeueToken
        rw [ht]
      rw [bind_of_ok htake]
      exact ⟨.inr (h.deliver _ ht hfree), fun ha => absurd ha Bool.false_ne_true⟩
  exact hfetch.bind fun _ => htake

/-! ## The tokens of a run -/

/-- The tokens that `n` calls of `yaml_parser_scan` return; behind the last one, or an error, there are
none. -/
def tokensOf : Nat → Scanner ι → List Token
  | 0, _ => []
  | n + 1, s =>
    match scan s with
    | .ok token t => if token.type = .noToken then [] else token :: tokensOf n t
    | .error _ _ => []

/-- What a call returns is a token of the stream, unless it is none. -/
theorem scan_token {token : Token} (h : Resting delivered s) (hs : scan s = .ok token t)
    (ht : token.type ≠ .noToken) : Resting (delivered ++ [token]) t := by
  unfold scan at hs
  split at hs
  · cases hs
    exact absurd rfl ht
  · have hspec := scanToken_spec s h
    cases hr : scanToken s with
    | ok token' t' =>
      rw [hr] at hs hspec
      cases hs
      exact hspec
    | error e t' =>
      rw [hr] at hs
      cases e <;> cases hs

theorem tokensOf_resting : ∀ (n : Nat) {delivered : List Token} {s : Scanner ι}, Resting delivered s →
    ∃ t : Scanner ι, Resting (delivered ++ tokensOf n s) t
  | 0, delivered, s, h => ⟨s, by rwa [tokensOf, List.append_nil]⟩
  | n + 1, delivered, s, h => by
    unfold tokensOf
    cases hs : scan s with
    | error e t => exact ⟨s, by rwa [List.append_nil]⟩
    | ok token t =>
      dsimp only
      by_cases ht : token.type = .noToken
      · exact ⟨s, by rwa [if_pos ht, List.append_nil]⟩
      · obtain ⟨u, hu⟩ := tokensOf_resting n (scan_token h hs ht)
        refine ⟨u, ?_⟩
        rw [if_neg ht, List.append_cons]
        exact hu

/-- The tokens of a stream start in order, and none starts behind its end. -/
theorem tokens_ordered (input : ι) (n : Nat) :
    (tokensOf n (init input)).Pairwise
        (fun t u => t.startMark.index ≤ u.startMark.index ∧ t.startMark.line ≤ u.startMark.line)
      ∧ ∀ t ∈ tokensOf n (init input),
        t.startMark.index ≤ t.endMark.index ∧ t.startMark.line ≤ t.endMark.line := by
  obtain ⟨s, hs⟩ := tokensOf_resting n (resting_init input)
  have hordered : Ordered (tokensOf n (init input)) := hs.between.ordered
  exact ⟨hordered.sorted.imp fun h => ⟨h.index, h.line⟩,
    fun t ht => ⟨(hordered.extents t ht).index, (hordered.extents t ht).line⟩⟩

/-! ## The states of a run -/

/-- The states between the calls of a run: the caller takes tokens with `yaml_parser_scan`, or looks at
the next one and skips it. -/
inductive Reached (input : ι) : List Token → Scanner ι → Prop
  | start : Reached input [] (init input)
  | scan {delivered : List Token} {s t : Scanner ι} {token : Token} (h : Reached input delivered s)
      (hs : scan s = .ok token t) (ht : token.type ≠ .noToken) : Reached input (delivered ++ [token]) t
  | peek {delivered : List Token} {s t : Scanner ι} (h : Reached input delivered s)
      (hs : fetchMoreTokens s = .ok ⟨⟩ t) : Reached input delivered t
  | skip {delivered rest : List Token} {s : Scanner ι} {token : Token} (h : Reached input delivered s)
      (ha : s.tokenAvailable = true) (ht : s.tokens = token :: rest) :
      Reached input (delivered ++ [token]) (TokenSource.skip s)

/-- The states inside a call that starts with `s`: the one before each token that is fetched. -/
inductive Inside (s : Scanner ι) : Scanner ι → Prop
  | start : Inside s s
  | stale {t u : Scanner ι} (h : Inside s t) (hs : staleSimpleKeys t = .ok ⟨⟩ u) : Inside s u
  | fetch {t u : Scanner ι} (h : Inside s t) (hf : fetchNextToken t = .ok ⟨⟩ u) : Inside s u

theorem Reached.resting {input : ι} (h : Reached input delivered s) : Resting delivered s := by
  induction h with
  | start => exact resting_init input
  | scan _ hs ht ih => exact scan_token ih hs ht
  | peek _ hs ih =>
    have := fetchMoreTokens_spec.ok ih.between hs
    exact ⟨.inr this.1, fun _ => this.2⟩
  | @skip delivered rest s token _ ha ht ih =>
    have hsettled := (ih.between.settled (ih.available ha).tokens).deliver
      (s.tokens.head?.any (·.type = .streamEnd)) ht (ih.available ha).free
    have heq : TokenSource.skip s = { s with
        tokens := rest, tokenAvailable := false, tokensParsed := s.tokensParsed + 1
        streamEndProduced := s.tokens.head?.any (·.type = .streamEnd) } := by
      change ({ s with
        tokenAvailable := false, tokensParsed := s.tokensParsed + 1
        streamEndProduced := s.tokens.head?.any (·.type = .streamEnd), tokens := s.tokens.tail } : Scanner ι) = _
      rw [ht]
      rfl
    rw [heq]
    exact ⟨.inr hsettled, fun ha => absurd ha Bool.false_ne_true⟩

theorem Inside.between (h : Inside s t) (hs : Between delivered s) : Between delivered t := by
  induction h with
  | start => exact hs
  | @stale t u _ hu ih =>
    rcases ih with ⟨hd, hun⟩ | h
    · obtain ⟨-, -, -, -, -, hkeys, -⟩ := fields_of_kept hun
      have hkeys : t.simpleKeys = [] := hkeys
      simp only [staleSimpleKeys, bind_apply, get_apply, set_apply, hkeys, staleKeys] at hu
      cases hu
      refine .inl ⟨hd, ?_⟩
      rw [← hkeys]
      exact hun
    · exact .inr (staleSimpleKeys_spec.ok h hu).1
  | fetch _ hf ih => exact .inr (fetchNextToken_spec.ok ih hf)

/-- The candidates among the keys point into the queue, those of deeper levels behind those of outer
ones, none at a token that has been handed over; no token is put in beside the queue; and the ':' of
a simple key follows in its line and soon. -/
theorem simple_keys_sound {input : ι} (h : Reached input delivered s) (hi : Inside s t) :
    (∀ key ∈ t.simpleKeys, key.possible = true →
        t.tokensParsed ≤ key.tokenNumber ∧ key.tokenNumber < t.tokensParsed + t.tokens.length)
      ∧ (t.simpleKeys.Pairwise fun upper lower => upper.possible = true → lower.possible = true →
          lower.tokenNumber < upper.tokenNumber)
      ∧ (∀ token u, scan s = .ok token u → token.type ≠ .noToken →
          ∀ key ∈ u.simpleKeys, key.possible = true → s.tokensParsed < key.tokenNumber)
      ∧ (∀ u key keys, t.streamStartProduced = true → approach t = .ok ⟨⟩ u → u.simpleKeys = key :: keys →
          key.possible = true → key.mark.line = u.mark.line ∧ u.mark.index ≤ key.mark.index + 1024)
      ∧ (∀ token ∈ delivered ++ t.tokens, isSimple token → ∃ value ∈ delivered ++ t.tokens, value.type = .value ∧
          token.startMark.line = value.startMark.line ∧ value.startMark.index ≤ token.startMark.index + 1024)
      ∧ ∀ fault u, fetchNextToken t = .error fault u → fault ≠ .undefined ∧ (fault ≠ .outOfFuel →
          (∀ key ∈ u.simpleKeys, key.possible = true →
            u.tokensParsed ≤ key.tokenNumber ∧ key.tokenNumber ≤ u.tokensParsed + u.tokens.length)
          ∧ u.simpleKeys.Pairwise fun upper lower => upper.possible = true → lower.possible = true →
            lower.tokenNumber < upper.tokenNumber) := by
  have hs := h.resting.between
  have ht := hi.between hs
  refine ⟨ht.queued, ht.keyed.nested.numbers, ?_, ?_, ?_, ?_⟩
  · intro token u hu htype key hk hp
    have hr := scan_token h.resting hu htype
    have hnumber := (hr.between.queued key hk hp).1
    rw [hr.between.parsed, List.length_append, List.length_singleton, ← hs.parsed] at hnumber
    exact hnumber
  · intro u key keys hstarted hu hk hp
    have hsettled := ht.resolve_left fun ⟨_, h⟩ => by
      obtain ⟨-, -, -, -, -, -, hnot⟩ := fields_of_kept h
      rw [hstarted] at hnot
      cases hnot
    obtain ⟨hu, hfresh⟩ := approach_spec.ok hsettled hu
    have hmem : key ∈ u.simpleKeys := hk ▸ List.mem_cons_self
    exact reaches_of_fresh hp (hfresh key hmem hp) (hu.keys key hmem hp)
  · intro token htoken hsimple
    rcases ht with ⟨hd, h⟩ | h
    · obtain ⟨-, -, -, htokens, -⟩ := fields_of_kept h
      have htokens : t.tokens = [] := htokens
      rw [hd, htokens] at htoken
      cases htoken
    · exact (h.near token htoken hsimple).resolve_left id
  · intro fault u hu
    have hended := fetchNextToken_spec.error ht hu
    exact ⟨hended.defined, fun hf => ⟨(hended.keyed hf).numbered, (hended.keyed hf).nested.numbers⟩⟩

/-- In "a: b" the 'a' is a candidate until the ':' has been found. -/
theorem simple_keys_sound_colon : ∃ s t : Scanner Bytes, (∃ delivered, Reached ("a: b".toList.map octet) delivered s)
    ∧ Inside s t ∧ t.simpleKeys.map (·.possible) = [true]
    ∧ ∀ key ∈ t.simpleKeys, key.possible = true →
      t.tokensParsed ≤ key.tokenNumber ∧ key.tokenNumber < t.tokensParsed + t.tokens.length := by
  have hrun : passes (fun token s => decide (token.type ≠ .noToken)
      && passes (fun _ t => decide (t.simpleKeys.map (·.possible) = [true])) (fetchNextToken s))
      (scan (init ("a: b".toList.map octet))) = true := by decide +kernel
  obtain ⟨token, s, hs, hc⟩ := exists_ok hrun
  rw [Bool.and_eq_true, decide_eq_true_iff] at hc
  obtain ⟨htype, hc⟩ := hc
  obtain ⟨⟨⟩, t, ht, hc⟩ := exists_ok hc
  have hr := Reached.start.scan hs htype
  have hi := Inside.start.fetch ht
  exact ⟨s, t, ⟨_, hr⟩, hi, of_decide_eq_true hc, (simple_keys_sound hr hi).1⟩

end Scanner

end LibYaml
