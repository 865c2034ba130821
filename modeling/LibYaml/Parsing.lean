import LibYaml.Parser.Progress
import LibYaml.Scanner.Results
import LibYaml.Reader.Refining

/-!
# From bytes to events

The parser over the scanner over the reader delivers the events of the tokens that the scanner finds in
the input, and comes to an end of the stream or to a failure after so many calls as there are tokens,
times three.
-/

namespace LibYaml

open Fallible EventGrammar LibYaml.Parser

section Parsing

variable {σ : Type} [ReadHandler σ] {S : Source σ} {setting : Encoding} {memory : View} {handler : σ} {list : TokenList}
  {fuel : Nat}

/-- `yaml_parser_parse` from the first byte on. -/
def parsing (handler : σ) (setting : Encoding) (memory : View) : Parser (Scanner (Reader σ)) :=
  Parser.init (Scanner.init (Reader.init handler setting memory))

/-- The tokens of an input are a list. -/
theorem exists_lists (setting : Encoding) (memory : View) (h : S.After [] handler) :
    ∃ list, Lists (Scanner.init (Reader.init handler setting memory)) list :=
  Scanner.exists_lists (T := Reader.terminal S setting) ⟨rfl, Reader.standing_init h⟩

variable (hl : Lists (Scanner.init (Reader.init handler setting memory)) list) (hf : list.tokens.length < fuel)

include hl hf

theorem parsing_along :
    Along (Scanner.account (Reader σ) list.tokens) fuel (parsing handler setting memory) (Parser.init list) :=
  along_init hl ⟨[], Scanner.resting_init _, rfl⟩ hf

/-- No call reads outside a stack or looks for something for ever. -/
theorem parsing_reported {n : Nat} {f : Fault} (hm : .error f ∈ (calls fuel n (parsing handler setting memory)).1) :
    ∃ problem, f = .reported problem := by
  rw [(calls_along Scanner.steady n (parsing_along hl hf)).1] at hm
  exact (calls_spec n _ (running_init hf)).2 f hm

/-- A run is over before it has used up its tokens. -/
theorem parsing_concluded {n : Nat} (hn : 3 * list.tokens.length < n) :
    Concluded (calls fuel n (parsing handler setting memory)).1 := by
  by_contra hc
  have halong := parsing_along hl hf
  have hall := calls_delivers Scanner.steady n halong not_stopped_init hc
  rw [(calls_along Scanner.steady n halong).1] at hall
  have hbudget := (calls_paid n (q := Parser.init list) ⟨trivial, trivial⟩ hall).1
  have hstart : budget (Parser.init list) = 3 * list.tokens.length := rfl
  omega

/-- Where so many events have been delivered the tokens taken and those left are all there are. -/
theorem parsing_taken {n : Nat} (hx : ∀ x ∈ (calls fuel n (parsing handler setting memory)).1, delivers x) :
    (calls fuel n (parsing handler setting memory)).2.source.tokensParsed
      + (calls fuel n (Parser.init list)).2.source.tokens.length = list.tokens.length := by
  obtain ⟨delivered, hrest, htokens⟩ := calls_account Scanner.steady n (parsing_along hl hf)
    ⟨[], Scanner.resting_init _, rfl⟩ hx
  rw [hrest.between.parsed, ← htokens, List.length_append]

/-- Of three events in a row at least one has taken a token. -/
theorem parsing_takes {n : Nat} (hx : ∀ x ∈ (calls fuel (n + 3) (parsing handler setting memory)).1, delivers x) :
    (calls fuel n (parsing handler setting memory)).2.source.tokensParsed
      < (calls fuel (n + 3) (parsing handler setting memory)).2.source.tokensParsed := by
  have hlater := parsing_taken hl hf hx
  rw [calls_add] at hx
  have hearlier := parsing_taken hl hf fun x hm => hx x (List.mem_append_left _ hm)
  have hlist (k : Nat) := (calls_along Scanner.steady k (parsing_along hl hf)).1
  have hseated : Seated ((calls fuel n (Parser.init list)).2.state :: (calls fuel n (Parser.init list)).2.states) := by
    refine (calls_paid n (q := Parser.init list) ⟨trivial, trivial⟩ fun x hm => ?_).2
    rw [← hlist n] at hm
    exact hx x (List.mem_append_left _ hm)
  have hthree : ∀ x ∈ (calls fuel 3 (calls fuel n (Parser.init list)).2).1, delivers x := by
    intro x hm
    have := hlist (n + 3)
    rw [calls_add, calls_add, hlist n] at this
    exact hx x (List.mem_append_right _ (List.append_cancel_left this ▸ hm))
  have hpaid := (calls_paid 3 hseated hthree).1
  rw [calls_add, calls_add] at hlater
  rw [calls_add]
  dsimp only at hlater ⊢
  unfold budget at hpaid
  have := rank_le (calls fuel n (Parser.init list)).2.state
  omega

omit hl hf in
theorem streamEnd_mem {rs : List (Except Fault Event)} :
    .streamEnd ∈ types rs ↔ ∃ e, .ok e ∈ rs ∧ e.type = .streamEnd := by
  unfold types events
  rw [List.mem_map]
  constructor
  · rintro ⟨e, he, htype⟩
    obtain ⟨r, hr, hre⟩ := List.mem_filterMap.mp he
    cases r with
    | error f => cases hre
    | ok e' =>
      dsimp only at hre
      split_ifs at hre
      cases hre
      exact ⟨e, hr, htype⟩
  · rintro ⟨e, he, htype⟩
    refine ⟨e, List.mem_filterMap.mpr ⟨_, he, if_neg fun hno => ?_⟩, htype⟩
    rw [htype] at hno
    cases hno

theorem parsing_either (n : Nat) : (∀ f, .error f ∉ (calls fuel n (parsing handler setting memory)).1)
    ∨ (∃ problem, .error (.reported problem) ∈ (calls fuel n (parsing handler setting memory)).1)
      ∧ ∀ e, .ok e ∈ (calls fuel n (parsing handler setting memory)).1 → e.type ≠ .streamEnd :=
  calls_either (A := Scanner.account (Reader σ) list.tokens) Scanner.steady n
    (ready_init hl ⟨[], Scanner.resting_init _, rfl⟩) (running_init hf) not_stopped_init

/-- The events are those of the grammar, and they are a whole word where the end of the stream is delivered. -/
theorem parsing_words (n : Nat) : (∃ w, Stream (types (calls fuel n (parsing handler setting memory)).1 ++ w))
    ∧ (Stream (types (calls fuel n (parsing handler setting memory)).1)
      ↔ ∃ e, .ok e ∈ (calls fuel n (parsing handler setting memory)).1 ∧ e.type = .streamEnd) := by
  rw [(calls_along Scanner.steady n (parsing_along hl hf)).1]
  obtain ⟨⟨w, hw⟩, -⟩ := calls_spec n _ (running_init hf)
  have hw' : Stream (types (calls fuel n (Parser.init list)).1 ++ w) := hw
  refine ⟨⟨w, hw'⟩, fun h => streamEnd_mem.mp ?_, fun h => ?_⟩
  · have hlast := (Stream.eq_nil_iff (v := []) (by rwa [List.append_nil])).mp rfl
    exact List.mem_of_getLast? hlast
  · obtain ⟨u, v, huv⟩ := List.append_of_mem (streamEnd_mem.mpr h)
    rw [huv, List.append_assoc, List.cons_append, ← List.singleton_append, ← List.append_assoc] at hw'
    have hnil := hw'.eq_nil_iff.mpr (by rw [List.getLast?_append]; rfl)
    rw [hnil, List.append_nil] at hw'
    rw [huv, (List.append_eq_nil_iff.mp hnil).1]
    exact hw'

end Parsing

/-- Parsing ends: every call returns, no call looks for a token for ever, of three events in a row at least
one has taken a token, and after three times as many calls as there are tokens the run is over. -/
theorem parsing_ends {σ : Type} [ReadHandler σ] (S : Source σ) (setting : Encoding) (memory : View) (handler : σ)
    (h : S.After [] handler) : ∃ list, Lists (Scanner.init (Reader.init handler setting memory)) list
      ∧ (∀ fuel, list.tokens.length < fuel →
        (∀ n f, .error f ∈ (calls fuel n (parsing handler setting memory)).1 → ∃ problem, f = .reported problem)
        ∧ (∀ n, 3 * list.tokens.length < n → Concluded (calls fuel n (parsing handler setting memory)).1)
        ∧ ∀ n, (∀ x ∈ (calls fuel (n + 3) (parsing handler setting memory)).1, delivers x) →
          (calls fuel n (parsing handler setting memory)).2.source.tokensParsed
            < (calls fuel (n + 3) (parsing handler setting memory)).2.source.tokensParsed)
      ∧ ∀ delivered s, Scanner.Reached (Reader.init handler setting memory) delivered s →
        ∀ e t, Scanner.fetchMoreTokens s = .error e t → ∃ problem, e = .reported problem := by
  obtain ⟨list, hl⟩ := exists_lists setting memory h
  refine ⟨list, hl, fun fuel hf => ⟨fun n f => parsing_reported hl hf, fun n => parsing_concluded hl hf,
    fun n => parsing_takes hl hf⟩, fun delivered s hs e t he => ?_⟩
  have hstart : (Reader.terminal S setting).lockstep.Rel 0 0 (Reader.init handler setting memory)
      (Reader.init handler setting memory) := ⟨rfl, Reader.standing_init h⟩
  have hfault := Scanner.fetchMoreTokens_beside s s (hs.beside (Scanner.Terminal.beside hstart))
  rw [he] at hfault
  obtain ⟨problem, rfl, -⟩ := (Scanner.fetchMoreTokens_spec.error hs.resting.between he).resolve_left hfault.2.fault
  exact ⟨problem, rfl⟩

/-- An input that ends inside a flow collection. -/
theorem parsing_ends_open : ∃ list,
    Lists (Scanner.init (Reader.init (⟨[['['].map octet, ['a'].map octet]⟩ : Pieces) .any fun _ => 0xFF)) list
      ∧ ∀ n, 3 * list.tokens.length < n →
        Concluded (calls (list.tokens.length + 1) n (parsing (⟨[['['].map octet, ['a'].map octet]⟩ : Pieces) .any
          fun _ => 0xFF)).1 := by
  have hgives : (Reader.pieces.source (['[', 'a'].map octet)).After [] ⟨[['['].map octet, ['a'].map octet]⟩ :=
    ⟨_, rfl, rfl, by decide⟩
  obtain ⟨list, hl, hends, -⟩ := parsing_ends _ .any (fun _ => 0xFF) _ hgives
  exact ⟨list, hl, (hends _ (Nat.lt_succ_self _)).2.1⟩

/-- Parsing an input is scanning it and parsing the tokens that the scanner has returned. -/
theorem parsing_of_scanned {σ : Type} [ReadHandler σ] (S : Source σ) (setting : Encoding) (memory : View) (handler : σ)
    (h : S.After [] handler) : ∃ list : TokenList,
      (∀ n, (Scanner.calls n (Scanner.init (Reader.init handler setting memory))).1
        = (Scanner.returned list ++ List.replicate n (Except.ok Scanner.emptyToken)).take n)
      ∧ ∀ fuel, list.tokens.length < fuel → ∀ n,
        (calls fuel n (parsing handler setting memory)).1 = (calls fuel n (Parser.init list)).1 := by
  obtain ⟨list, hl⟩ := exists_lists setting memory h
  exact ⟨list, Scanner.calls_of_lists hl rfl, fun fuel hf n => (calls_along Scanner.steady n (parsing_along hl hf)).1⟩

/-- A sequence that is left open. -/
theorem parsing_of_scanned_open : ∃ list : TokenList,
    (Scanner.calls 4 (Scanner.init (Reader.init (⟨[['['].map octet, ['a'].map octet]⟩ : Pieces) .any fun _ => 0xFF))).1
      = (Scanner.returned list ++ List.replicate 4 (Except.ok Scanner.emptyToken)).take 4
    ∧ (calls (list.tokens.length + 1) 4 (parsing (⟨[['['].map octet, ['a'].map octet]⟩ : Pieces) .any fun _ => 0xFF)).1
      = (calls (list.tokens.length + 1) 4 (Parser.init list)).1 := by
  have hgives : (Reader.pieces.source (['[', 'a'].map octet)).After [] ⟨[['['].map octet, ['a'].map octet]⟩ :=
    ⟨_, rfl, rfl, by decide⟩
  obtain ⟨list, hscan, hparse⟩ := parsing_of_scanned _ .any (fun _ => 0xFF) _ hgives
  exact ⟨list, hscan 4, hparse _ (Nat.lt_succ_self _) 4⟩

/-- Whatever the input is, the events are those of the grammar, every failure says what it is, and from some
number of calls on either the events are a whole word and no call has failed, or a call has failed and they are
not a whole word. -/
theorem parsing_result {σ : Type} [ReadHandler σ] (S : Source σ) (setting : Encoding) (memory : View) (handler : σ)
    (h : S.After [] handler) : ∃ N, ∀ fuel n, N ≤ fuel →
      let rs := (calls fuel n (parsing handler setting memory)).1
      (∃ w, Stream (types rs ++ w)) ∧ (∀ f, .error f ∈ rs → ∃ problem, f = .reported problem)
        ∧ (N ≤ n → Stream (types rs) ∧ (∀ f, .error f ∉ rs)
          ∨ ¬Stream (types rs) ∧ ∃ problem, .error (.reported problem) ∈ rs) := by
  obtain ⟨list, hl⟩ := exists_lists setting memory h
  refine ⟨3 * list.tokens.length + 1, fun fuel n hN => ?_⟩
  have hf : list.tokens.length < fuel := by omega
  obtain ⟨hgoes, hwhole⟩ := parsing_words hl hf n
  refine ⟨hgoes, fun f => parsing_reported hl hf, fun hn => ?_⟩
  rcases parsing_either hl hf n with hnone | ⟨hfails, hends⟩
  · refine .inl ⟨hwhole.mpr ?_, hnone⟩
    exact (parsing_concluded hl hf (by omega)).resolve_right fun ⟨problem, hm⟩ => hnone _ hm
  · exact .inr ⟨fun hword => by
      obtain ⟨e, he, htype⟩ := hwhole.mp hword
      exact hends e he htype, hfails⟩

/-- A text of one scalar. -/
theorem parsing_result_letter : ∃ N, ∀ fuel n, N ≤ fuel → N ≤ n →
    let rs := (calls fuel n (parsing (⟨['a'].map octet⟩ : StringInput) .utf8 fun _ => 0)).1
    Stream (types rs) ∧ (∀ f, .error f ∉ rs) ∨ ¬Stream (types rs) ∧ ∃ problem, .error (.reported problem) ∈ rs := by
  have hgives : (Reader.strings.source (['a'].map octet)).After [] ⟨['a'].map octet⟩ := ⟨_, rfl, rfl⟩
  obtain ⟨N, hN⟩ := parsing_result _ .utf8 (fun _ => 0) _ hgives
  exact ⟨N, fun fuel n hfuel hn => (hN fuel n hfuel).2.2 hn⟩

/-- Only where the input can be decoded as a whole the events are a whole word. -/
theorem readable_of_word {σ : Type} [ReadHandler σ] {F : Reader.Feed σ} {setting : Encoding} {memory : View} {b : Bytes}
    {handler : σ} (h : F.Gives b handler) {list : TokenList}
    (hl : Lists (Scanner.init (Reader.init handler setting memory)) list) {fuel n : Nat} (hf : list.tokens.length < fuel)
    (hw : Stream (types (calls fuel n (parsing handler setting memory)).1)) : Reader.Readable setting b := by
  have hcloses : Closes (σ := Scanner (Reader σ)) ⟨fun _ l => l.tokens <:+ list.tokens, fun h _ => h,
      fun h _ _ => (List.suffix_cons _ _).trans h⟩ :=
    calls_closes Scanner.steady n (ready_init hl (List.suffix_refl _)) (running_init hf) not_stopped_init
      ((parsing_words hl hf n).2.mp hw)
  obtain ⟨_, token, problem, htype, before, hsuffix⟩ := hcloses
  have hmem : token ∈ list.tokens := by
    rw [← hsuffix]
    exact List.mem_append_right before List.mem_cons_self
  have hcall : .ok token ∈ (Scanner.calls list.tokens.length (Scanner.init (Reader.init handler setting memory))).1 := by
    rw [Scanner.calls_of_lists hl rfl, Scanner.returned, List.append_assoc,
      List.take_left' (List.length_map _)]
    exact List.mem_map_of_mem hmem
  exact readable_of_end h ⟨token, hcall, htype⟩

/-- Whatever the pieces are in which two handlers hand over an input that can be decoded, the parser delivers the
same events and the same failure; and the events are a whole word with both of them or with neither, whatever the
input is. -/
theorem parsing_pieces {σ τ : Type} [ReadHandler σ] [ReadHandler τ] (F : Reader.Feed σ) (G : Reader.Feed τ)
    (setting : Encoding) (memory memory' : View) {b : Bytes} {handler : σ} {handler' : τ} (h : F.Gives b handler)
    (h' : G.Gives b handler') : ∃ N, ∀ fuel, N ≤ fuel →
      let left n := (calls fuel n (parsing handler setting memory)).1
      let right n := (calls fuel n (parsing handler' setting memory')).1
      (Reader.Readable setting b → ∀ n, left n = right n)
        ∧ ((∃ n, Stream (types (left n))) ↔ ∃ n, Stream (types (right n))) := by
  obtain ⟨list, hl⟩ := exists_lists setting memory (S := F.source b) ⟨b, rfl, h⟩
  obtain ⟨list', hl'⟩ := exists_lists setting memory' (S := G.source b) ⟨b, rfl, h'⟩
  refine ⟨list.tokens.length + list'.tokens.length + 1, fun fuel hN => ?_⟩
  intro left right
  have hf : list.tokens.length < fuel := by omega
  have hf' : list'.tokens.length < fuel := by omega
  have hsame (hb : Reader.Readable setting b) (n : Nat) : left n = right n := by
    have habreast : Scanner.Beside (F.lockstep G hb).simulation (Scanner.init (Reader.init handler setting memory))
        (Scanner.init (Reader.init handler' setting memory')) :=
      ⟨rfl, ⟨Reader.standing_init ⟨b, rfl, h⟩, Reader.standing_init ⟨b, rfl, h'⟩⟩, fun _ hk => absurd hk List.not_mem_nil⟩
    have hright := Scanner.lists_beside hl habreast
    exact (calls_listed Scanner.steady hl hf n).trans (calls_listed Scanner.steady hright hf n).symm
  exact ⟨hsame, fun ⟨n, hn⟩ => ⟨n, hsame (readable_of_word h hl hf hn) n ▸ hn⟩,
    fun ⟨n, hn⟩ => ⟨n, hsame (readable_of_word h' hl' hf' hn) n ▸ hn⟩⟩

/-- A quoted scalar in UTF-16, whole and cut inside its characters. -/
theorem parsing_pieces_quoted : ∃ N, ∀ fuel, N ≤ fuel → ∀ n,
    (calls fuel n (parsing (⟨[0xFE, 0xFF, 0x00, 0x22, 0x00, 0x22]⟩ : StringInput) .any fun _ => 0)).1
      = (calls fuel n (parsing (⟨[[0xFE], [0xFF, 0x00], [0x22, 0x00], [0x22]]⟩ : Pieces) .any fun _ => 0xFF)).1 := by
  have hreadable : Reader.Readable .any [0xFE, 0xFF, 0x00, 0x22, 0x00, 0x22] :=
    ⟨by decide, [0x22, 0x22], List.forall_mem_cons.mpr ⟨⟨by decide, by decide⟩,
      List.forall_mem_singleton.mpr ⟨by decide, by decide⟩⟩, by decide, Reader.stuck_nil⟩
  have hleft : Reader.strings.Gives [0xFE, 0xFF, 0x00, 0x22, 0x00, 0x22] ⟨[0xFE, 0xFF, 0x00, 0x22, 0x00, 0x22]⟩ := rfl
  have hright : Reader.pieces.Gives [0xFE, 0xFF, 0x00, 0x22, 0x00, 0x22] ⟨[[0xFE], [0xFF, 0x00], [0x22, 0x00], [0x22]]⟩ :=
    ⟨rfl, by decide⟩
  obtain ⟨N, hN⟩ := parsing_pieces Reader.strings Reader.pieces .any (fun _ => 0) (fun _ => 0xFF) hleft hright
  exact ⟨N, fun fuel hfuel => (hN fuel hfuel).1 hreadable⟩

end LibYaml
