import LibYaml.Parsing
import LibYaml.Loading.Abreast

/-!
# From bytes to documents

`yaml_parser_load` over the parser, the scanner and the reader, and the three ways to read from a parser
side by side: each of them comes to its end or fails with a problem, and nothing follows a failure.
-/

namespace LibYaml

open Fallible EventGrammar LibYaml.Parser

/-- A parser and the fuel that each of its calls has. -/
structure Fueled (σ : Type) where
  parser : Parser σ
  fuel : Nat

instance {ι : Type} [Input ι] : EventSource (Fueled (Scanner ι)) where
  next s := match Parser.parse s.fuel s.parser with
    | .ok e p => .ok e { s with parser := p }
    | .error f p => .error f { s with parser := p }
  setError problem s := { s with parser := { s.parser with error := some problem } }
  streamStartProduced s := s.parser.source.streamStartProduced
  streamEndProduced s := s.parser.streamEndProduced

/-- `yaml_parser_scan` on a parser. -/
def Parser.scan {ι : Type} [Input ι] : ParseM (Scanner ι) Token := fun p =>
  if p.streamEndProduced = true ∨ p.error.isSome = true then .ok Scanner.emptyToken p
  else match Scanner.scanToken p.source with
    | .ok token source => .ok token { p with
        source := source, streamEndProduced := p.streamEndProduced || token.type = .streamEnd }
    | .error (.reported problem) source => .error (.reported problem) { p with source := source, error := some problem }
    | .error f source => .error f { p with source := source }

/-- A parser and what it loads. -/
abbrev Reading (ι : Type) := Loader (Fueled (Scanner ι))

/-- The three ways to read from a parser. -/
inductive Call
  | scan | parse | load
deriving DecidableEq, Repr

/-- What a call returns; a document is left in the loader. -/
inductive Answer
  | token (token : Token)
  | event (event : Event)
  | document

/-- One call. -/
def Call.run {ι : Type} [Input ι] : Call → Loader.LoadM (Fueled (Scanner ι)) Answer
  | .scan => fun s => match Parser.scan s.source.parser with
    | .ok token p => .ok (.token token) { s with source := { s.source with parser := p } }
    | .error f p => .error f { s with source := { s.source with parser := p } }
  | .parse => fun s => match Loader.next s with
    | .ok e t => .ok (.event e) t
    | .error f t => .error f t
  | .load => fun s => match Loader.load s.source.fuel s with
    | .ok _ t => .ok .document t
    | .error f t => .error f t

/-- The states that calls of one kind lead to, as long as none fails; an application must not alternate the kinds. -/
inductive Called {ι : Type} [Input ι] (c : Call) (start : Reading ι) : Reading ι → Prop
  | start : Called c start start
  | call {s t : Reading ι} {a : Answer} (h : Called c start s) (hr : c.run s = .ok a t) : Called c start t

/-- The states that any calls lead to, whether they fail or not. -/
inductive Later {ι : Type} [Input ι] (start : Reading ι) : Reading ι → Prop
  | now : Later start start
  | ok {c : Call} {s t : Reading ι} {a : Answer} (h : Later start s) (hr : c.run s = .ok a t) : Later start t
  | error {c : Call} {s t : Reading ι} {f : Fault} (h : Later start s) (hr : c.run s = .error f t) :
      Later start t

/-- A parser for which no call has been made. -/
def reading {σ : Type} [ReadHandler σ] (handler : σ) (setting : Encoding) (memory : View) (fuel : Nat) :
    Reading (Reader σ) :=
  { source := ⟨parsing handler setting memory, fuel⟩ }

/-! ## The flow of events -/

section Flow

variable {ι : Type} [Input ι] {s t : Fueled (Scanner ι)} {list : TokenList} {q : Parser TokenList}
  {p : Parser (Scanner ι)} {K : List EventType → Prop} {n : Nat} {e : Event} {f : Fault}

theorem next_of_parse (h : Parser.parse s.fuel s.parser = .ok e p) :
    EventSource.next s = .ok e { s with parser := p } := by
  simp only [EventSource.next, h]

theorem next_of_parse_error (h : Parser.parse s.fuel s.parser = .error f p) :
    EventSource.next s = .error f { s with parser := p } := by
  simp only [EventSource.next, h]

/-- An error has been recorded, and the stream has not come to its end. -/
structure Barred (s : Fueled (Scanner ι)) : Prop where
  error : s.parser.error.isSome = true
  unended : s.parser.streamEndProduced = false
  fuel : 0 < s.fuel

omit [Input ι] in
theorem Barred.stopped (h : Barred s) : Stopped s.parser := .inr (.inl h.error)

theorem Barred.next (h : Barred s) : EventSource.next s = .ok Event.empty s :=
  next_of_parse (parse_stopped h.stopped)

/-- The parser delivers what the parser `q` delivers from the rest of the tokens. -/
structure Goes (list : TokenList) (K : List EventType → Prop) (n : Nat) (s : Fueled (Scanner ι))
    (q : Parser TokenList) : Prop where
  ready : Ready (Scanner.account ι list.tokens) s.parser q
  running : Running s.fuel q
  unstopped : ¬Stopped s.parser
  seated : Seated (q.state :: q.states)
  bound : budget q ≤ n
  words : ∀ w, After q.state (Follows q.states) w → K w

/-- Where a token has been taken the stream has been started. -/
theorem started_of_account {source : Scanner ι} {rest : TokenList} (h : (Scanner.account ι list.tokens).Rel source rest)
    (ht : rest.tokens.length < list.tokens.length) : source.streamStartProduced = true := by
  obtain ⟨delivered, hrest, htokens⟩ := h
  have hlength := congrArg List.length htokens
  rw [List.length_append] at hlength
  refine (hrest.between.resolve_left fun hnone => ?_).started
  rw [hnone.1, List.length_nil] at hlength
  omega

/-- One event more: the parser goes on, comes to the end of the stream, or fails. -/
theorem Goes.next (h : Goes list K n s q) :
    (∃ e p q', Parser.parse s.fuel s.parser = .ok e p ∧ Parser.parse s.fuel q = .ok e q' ∧ budget q' < n
        ∧ budget q' < budget q
        ∧ q'.source.tokens.length ≤ q.source.tokens.length
        ∧ (∀ w, After q'.state (Follows q'.states) w → K (e.type :: w)) ∧ (∃ w, After q'.state (Follows q'.states) w)
        ∧ (e.type ≠ .streamEnd ∧ Goes list (After q'.state (Follows q'.states)) (budget q') ⟨p, s.fuel⟩ q'
          ∨ e.type = .streamEnd ∧ p.streamEndProduced = true ∧ (Scanner.account ι list.tokens).Rel p.source q'.source))
      ∨ ∃ problem p q', Parser.parse s.fuel s.parser = .error (.reported problem) p
        ∧ Parser.parse s.fuel q = .error (.reported problem) q' ∧ Barred (⟨p, s.fuel⟩ : Fueled (Scanner ι)) := by
  have hstopped : ¬Stopped q := fun hq => h.unstopped ((stopped_onto h.ready.1.onto).mp hq)
  rcases parse_ready Scanner.steady h.ready h.running h.unstopped with
    ⟨e, p, q', hp, hq, -, -, haccount, -, hwords, hrest⟩ | ⟨problem, p, q', hp, hq, -, herror, hended⟩
  · obtain ⟨hbudget, hseated⟩ := parse_paid h.seated hstopped hq
    have hpaid := (stateMachine_paid.ok ⟨rfl, h.seated, rfl⟩ (parse_eq_ok hstopped hq)).1
    have hbound := h.bound
    have hwell : ∃ w, After q'.state (Follows q'.states) w := by
      rcases parse_spec h.running with ⟨hs, -⟩ | ⟨e', q'', hq', -, hr, -⟩ | ⟨problem, q'', hq', -⟩
      · exact absurd hs hstopped
      · rw [hq] at hq'
        cases hq'
        exact hr.wellFormed.exists_after
      · rw [hq] at hq'
        cases hq'
    refine .inl ⟨e, p, q', hp, hq, by omega, hbudget, ?_, fun w hw => h.words _ (hwords w hw), hwell, ?_⟩
    · rcases hpaid with hlt | ⟨hle, -⟩
      · exact hlt.le
      · exact hle
    · rcases hrest with ⟨he, -, hend, -⟩ | ⟨he, hready, hrunning, hunstopped⟩
      · exact .inr ⟨he, hend, haccount⟩
      · exact .inl ⟨he, hready, hrunning, hunstopped, hseated, le_rfl, fun _ hw => hw⟩
  · exact .inr ⟨problem, p, q', hp, hq, by rw [herror]; rfl, hended, (Nat.zero_le _).trans_lt h.running.fuel⟩

theorem Goes.mono {K' : List EventType → Prop} {m : Nat} (h : Goes list K n s q) (hm : budget q ≤ m)
    (hK : ∀ w, K w → K' w) : Goes list K' m s q :=
  ⟨h.ready, h.running, h.unstopped, h.seated, hm, fun w hw => hK w (h.words w hw)⟩

/-- What loading counts on, for the parser over the scanner. -/
def flow (ι : Type) [Input ι] (list : TokenList) : Flow (Fueled (Scanner ι)) where
  Fresh n s := s.parser.source.streamStartProduced = false ∧
    ∃ q, Goes list Stream n s q ∧ budget q = 3 * list.tokens.length ∧ n < s.fuel
  Going K n s := ∃ q, Goes list K n s q ∧ q.source.tokens.length < list.tokens.length ∧ n < s.fuel
  Over s := s.parser.source.streamStartProduced = true ∧ s.parser.streamEndProduced = true
  Failed := Barred
  fresh := by
    rintro n s ⟨hstart, q, h, hq, hfuel⟩
    refine ⟨hstart, ?_⟩
    rcases h.next with ⟨e, p, q', hp, -, hn, hbudget, -, hwords, ⟨w, hw⟩, hrest⟩ | ⟨problem, p, -, hp, -, hbarred⟩
    · have hstream := (stream_cons (hwords w hw)).1
      obtain ⟨-, h'⟩ := hrest.resolve_right fun hend => by rw [hstream] at hend; cases hend.1
      have htaken : q'.source.tokens.length < list.tokens.length := by
        unfold budget at hbudget hq
        omega
      have hlater := h'.mono le_rfl fun w hw => (stream_cons (hwords w hw)).2
      exact .inl ⟨e, _, _, next_of_parse hp, hn, q', hlater, htaken, hn.trans hfuel⟩
    · exact .inr ⟨problem, _, next_of_parse_error hp, hbarred⟩
  going := by
    rintro K n s ⟨q, h, hq, hfuel⟩
    have hended : s.parser.streamEndProduced = false := h.ready.1.unended
    refine ⟨started_of_account h.ready.1.account hq, hended, ?_⟩
    rcases h.next with ⟨e, p, q', hp, -, hn, -, hle, hwords, hw, ⟨he, h'⟩ | ⟨he, hend, haccount⟩⟩ |
      ⟨problem, p, -, hp, -, hbarred⟩
    · exact .inl ⟨e, _, _, _, next_of_parse hp, hn, hwords, hw, .inl ⟨he, q', h', by omega, hn.trans hfuel⟩⟩
    · refine .inl ⟨e, _, _, _, next_of_parse hp, hn, hwords, hw, .inr ⟨he, ?_, hend⟩⟩
      exact started_of_account haccount (by omega)
    · exact .inr ⟨problem, _, next_of_parse_error hp, hbarred⟩
  ended := id
  failed h := ⟨h.unended, h.next⟩
  refused := by
    rintro K n s problem ⟨q, h, -, hfuel⟩
    exact ⟨rfl, h.ready.1.unended, (Nat.zero_le n).trans_lt hfuel⟩
  again problem h := ⟨rfl, h.unended, h.fuel⟩

theorem goes_init {source : Scanner ι} {fuel : Nat} (hl : Lists source list)
    (ha : (Scanner.account ι list.tokens).Rel source list) (hf : 3 * list.tokens.length < fuel) :
    Goes list Stream (3 * list.tokens.length) ⟨Parser.init source, fuel⟩ (Parser.init list) :=
  ⟨ready_init hl ha, running_init (by dsimp only; omega), not_stopped_init, ⟨trivial, trivial⟩, le_rfl, fun _ hw => hw⟩

end Flow

/-! ## Calls -/

section Calls

variable {ι : Type} [Input ι] {T : Terminal ι} {s t : Reading ι} {list : TokenList} {a : Answer}
  {f : Fault}

theorem run_scan {token : Token} {p : Parser (Scanner ι)} (h : Parser.scan s.source.parser = .ok token p) :
    Call.scan.run s = .ok (.token token) { s with source := { s.source with parser := p } } := by
  simp only [Call.run, h]

theorem run_scan_error {p : Parser (Scanner ι)} (h : Parser.scan s.source.parser = .error f p) :
    Call.scan.run s = .error f { s with source := { s.source with parser := p } } := by
  simp only [Call.run, h]

theorem run_parse {e : Event} {p : Parser (Scanner ι)} (h : Parser.parse s.source.fuel s.source.parser = .ok e p) :
    Call.parse.run s = .ok (.event e) { s with source := { s.source with parser := p } } := by
  simp only [Call.run, Flow.next_of (next_of_parse h)]

theorem run_parse_error {p : Parser (Scanner ι)} (h : Parser.parse s.source.fuel s.source.parser = .error f p) :
    Call.parse.run s = .error f { s with source := { s.source with parser := p } } := by
  simp only [Call.run, Flow.next_of_error (next_of_parse_error h)]

/-- Behind a failure scanning and parsing return nothing and change nothing, and loading fails. -/
theorem Barred.run (h : Barred s.source) : Call.scan.run s = .ok (.token Scanner.emptyToken) s
    ∧ Call.parse.run s = .ok (.event Event.empty) s ∧ ∃ f t, Call.load.run s = .error f t ∧ t.source = s.source := by
  have hscan : Parser.scan s.source.parser = .ok Scanner.emptyToken s.source.parser := if_pos (.inr h.error)
  obtain ⟨k, hk⟩ : ∃ k, s.source.fuel = k + 1 := ⟨s.source.fuel - 1, by have := h.fuel; omega⟩
  obtain ⟨t, hload, hsource⟩ := Flow.load_failed (F := flow ι ⟨[], .memory⟩) k h
  refine ⟨run_scan hscan, run_parse (parse_stopped h.stopped), .silent, t, ?_, hsource⟩
  simp only [Call.run, hk, hload]

theorem Barred.later (h : Barred s.source) (hl : Later s t) : t.source = s.source := by
  induction hl with
  | now => rfl
  | @ok c u v a hu hr ih =>
    have hu : Barred u.source := ih ▸ h
    obtain ⟨hscan, hparse, f, w, hload, -⟩ := hu.run
    cases c with
    | scan => rw [hscan] at hr; cases hr; exact ih
    | parse => rw [hparse] at hr; cases hr; exact ih
    | load => rw [hload] at hr; cases hr
  | @error c u v f hu hr ih =>
    have hu : Barred u.source := ih ▸ h
    obtain ⟨hscan, hparse, f, w, hload, hw⟩ := hu.run
    cases c with
    | scan => rw [hscan] at hr; cases hr
    | parse => rw [hparse] at hr; cases hr
    | load => rw [hload] at hr; cases hr; exact hw.trans ih

/-- Between two calls of one kind: the scanner is at rest, the parser goes on from where it is, or a load may start. -/
def Sits (T : Terminal ι) (list : TokenList) : Call → Reading ι → Prop
  | .scan, s => (∃ delivered, Scanner.Resting delivered s.source.parser.source)
      ∧ Scanner.Beside T.lockstep.simulation s.source.parser.source s.source.parser.source ∧ 0 < s.source.fuel
  | .parse, s => (∃ K n q, Goes list K n s.source q) ∨ s.source.parser.streamEndProduced = true
  | .load, s => (∃ n < s.source.fuel, (flow ι list).Starts n s.source) ∨ (flow ι list).Over s.source

theorem Sits.scan (h : Sits T list .scan s) :
    (∃ a t, Call.scan.run s = .ok a t ∧ Sits T list .scan t)
      ∨ ∃ f t, Call.scan.run s = .error f t ∧ Barred t.source := by
  obtain ⟨⟨delivered, hrest⟩, hbeside, hf⟩ := id h
  by_cases hstop : s.source.parser.streamEndProduced = true ∨ s.source.parser.error.isSome = true
  · have hscan : Parser.scan s.source.parser = .ok Scanner.emptyToken s.source.parser := if_pos hstop
    exact .inl ⟨_, _, run_scan hscan, h⟩
  · have hspec := Scanner.scanToken_spec _ hrest
    have hsame := Scanner.scanToken_beside _ _ hbeside
    have hended : s.source.parser.streamEndProduced = false := by simpa using fun hend => hstop (.inl hend)
    rcases hr : Scanner.scanToken s.source.parser.source with ⟨token, u⟩ | ⟨f, u⟩ <;> rw [hr] at hspec hsame
    · have hscan : Parser.scan s.source.parser = .ok token { s.source.parser with
          source := u, streamEndProduced := s.source.parser.streamEndProduced || token.type = .streamEnd } := by
        unfold Parser.scan
        rw [if_neg hstop, hr]
      exact .inl ⟨_, _, run_scan hscan, ⟨_, hspec⟩, hsame.2, hf⟩
    · obtain ⟨problem, rfl, -⟩ := hspec.resolve_left hsame.2.fault
      have hscan : Parser.scan s.source.parser = .error (.reported problem) { s.source.parser with
          source := u, error := some problem } := by
        unfold Parser.scan
        rw [if_neg hstop, hr]
      exact .inr ⟨_, _, run_scan_error hscan, rfl, hended, hf⟩

theorem Sits.parse (h : Sits T list .parse s) :
    (∃ a t, Call.parse.run s = .ok a t ∧ Sits T list .parse t)
      ∨ ∃ f t, Call.parse.run s = .error f t ∧ Barred t.source := by
  rcases id h with ⟨K, n, q, hgoes⟩ | hended
  · rcases hgoes.next with ⟨e, p, q', hp, -, -, -, -, -, -, ⟨-, hgoes'⟩ | ⟨-, hend, -⟩⟩ |
      ⟨problem, p, -, hp, -, hbarred⟩
    · exact .inl ⟨_, _, run_parse hp, .inl ⟨_, _, q', hgoes'⟩⟩
    · exact .inl ⟨_, _, run_parse hp, .inr hend⟩
    · exact .inr ⟨_, _, run_parse_error hp, hbarred⟩
  · exact .inl ⟨_, _, run_parse (parse_stopped (.inl hended)), h⟩

theorem Sits.load (h : Sits T list .load s) :
    (∃ a t, Call.load.run s = .ok a t ∧ Sits T list .load t)
      ∨ ∃ f t, Call.load.run s = .error f t ∧ Barred t.source := by
  rcases h with ⟨n, hn, hstarts⟩ | hover
  · have hloads := Flow.load_loads hn s hstarts
    rcases hr : Loader.load s.source.fuel s with ⟨_, t⟩ | ⟨f, t⟩ <;> rw [hr] at hloads
    · refine .inl ⟨.document, t, by simp only [Call.run, hr], ?_⟩
      rcases hloads with hbuilt | ⟨-, hover⟩
      · obtain ⟨m, -, K, hgoing, hK⟩ := hbuilt.begins
        obtain ⟨q, -, -, hfuel⟩ := id hgoing
        exact .inl ⟨m, hfuel, .inr ⟨K, hgoing, hK⟩⟩
      · exact .inr hover
    · exact .inr ⟨f, t, by simp only [Call.run, hr], hloads.2⟩
  · have hload : Loader.load s.source.fuel s = .ok () { s with document := {} } := Flow.load_over hover
    exact .inl ⟨.document, { s with document := {} }, by simp only [Call.run, hload], .inr hover⟩

theorem Sits.run {c : Call} (h : Sits T list c s) :
    (∃ a t, c.run s = .ok a t ∧ Sits T list c t) ∨ ∃ f t, c.run s = .error f t ∧ Barred t.source := by
  cases c with
  | scan => exact h.scan
  | parse => exact h.parse
  | load => exact h.load

theorem Called.sits {c : Call} (h : Called c s t) (hs : Sits T list c s) : Sits T list c t := by
  induction h with
  | start => exact hs
  | call _ hr ih =>
    rcases ih.run with ⟨a, t', ht, hsits⟩ | ⟨f, t', ht, -⟩
    · rw [hr] at ht
      cases ht
      exact hsits
    · rw [hr] at ht
      cases ht

/-! ## Documents -/

/-- What `n` loads return. -/
def documents : Nat → Reading ι → List (Except Fault Document)
  | 0, _ => []
  | n + 1, s => match Loader.load s.source.fuel s with
    | .ok _ t => .ok t.document :: documents n t
    | .error f t => .error f :: documents n t

theorem documents_over : ∀ (n : Nat) {s : Reading ι}, (flow ι list).Over s.source →
    documents n s = List.replicate n (.ok {})
  | 0, _, _ => rfl
  | n + 1, s, h => by
    have hload : Loader.load s.source.fuel s = .ok () { s with document := {} } := Flow.load_over h
    simp only [documents, hload, List.replicate_succ, List.cons.injEq, true_and]
    exact documents_over n h

theorem documents_barred : ∀ (n : Nat) {s : Reading ι}, Barred s.source →
    documents n s = List.replicate n (.error .silent)
  | 0, _, _ => rfl
  | n + 1, s, h => by
    obtain ⟨k, hk⟩ : ∃ k, s.source.fuel = k + 1 := ⟨s.source.fuel - 1, by have := h.fuel; omega⟩
    obtain ⟨t, hload, hsource⟩ := Flow.load_failed (F := flow ι ⟨[], .memory⟩) k h
    have hbarred : Barred t.source := hsource ▸ h
    simp only [documents, hk, hload, List.replicate_succ, List.cons.injEq, true_and]
    exact documents_barred n hbarred

/-- What loads return: documents with a root, and behind them the empty one for ever, or a failure and failures
without a word. -/
structure Listed (m : Nat) (s : Reading ι) (docs : List Document) (stop : List (Except Fault Document))
    (after : Except Fault Document) : Prop where
  few : docs.length ≤ m
  rooted : ∀ d ∈ docs, d.Closed ∧ d.nodes ≠ []
  ending : stop = [] ∧ after = .ok {} ∨ ∃ problem, stop = [.error (.reported problem)] ∧ after = .error .silent
  returned : ∀ n, documents n s = (docs.map Except.ok ++ stop ++ List.replicate n after).take n

omit [Input ι] in
theorem take_padded {α : Type} (l : List α) (x : α) (n : Nat) :
    (l ++ List.replicate (n + 1) x).take n = (l ++ List.replicate n x).take n := by
  rw [List.take_append, List.take_append, List.take_replicate, List.take_replicate]
  congr 2
  omega

/-- Document after document, up to the end of the stream or to a failure. -/
theorem exists_listed : ∀ (m : Nat) {s : Reading ι}, m < s.source.fuel → (flow ι list).Starts m s.source →
    ∃ docs stop after, Listed m s docs stop after := by
  intro m
  induction m using Nat.strong_induction_on with
  | _ m ih =>
    intro s hm hstarts
    have hloads := Flow.load_loads hm s hstarts
    rcases hr : Loader.load s.source.fuel s with ⟨_, t⟩ | ⟨f, t⟩ <;> rw [hr] at hloads
    · rcases hloads with hbuilt | ⟨hdocument, hover⟩
      · obtain ⟨k, hk, K, hgoing, hK⟩ := hbuilt.begins
        obtain ⟨q, -, -, hfuel⟩ := id hgoing
        obtain ⟨docs, stop, after, hlisted⟩ := ih k hk hfuel (.inr ⟨K, hgoing, hK⟩)
        refine ⟨t.document :: docs, stop, after, ?_, ?_, hlisted.ending, fun n => ?_⟩
        · have := hlisted.few
          rw [List.length_cons]
          omega
        · refine List.forall_mem_cons.mpr ⟨⟨hbuilt.closed, fun hnil => ?_⟩, hlisted.rooted⟩
          have hroot := hbuilt.root
          rw [Loader.bare, hnil] at hroot
          cases hroot
        · cases n with
          | zero => rfl
          | succ n =>
            simp only [documents, hr, List.map_cons, List.cons_append, List.take_succ_cons]
            rw [hlisted.returned n, take_padded]
      · refine ⟨[], [], .ok {}, Nat.zero_le m, fun d hd => absurd hd List.not_mem_nil, .inl ⟨rfl, rfl⟩, fun n => ?_⟩
        cases n with
        | zero => rfl
        | succ n =>
          simp only [documents, hr, hdocument, documents_over n hover]
          simp [List.replicate_succ]
    · obtain ⟨⟨problem, rfl⟩, hbarred⟩ := hloads
      refine ⟨[], [.error (.reported problem)], .error .silent, Nat.zero_le m, fun d hd => absurd hd List.not_mem_nil,
        .inr ⟨problem, rfl, rfl⟩, fun n => ?_⟩
      cases n with
      | zero => rfl
      | succ n =>
        simp only [documents, hr, documents_barred n hbarred]
        simp

end Calls

/-! ## Two inputs -/

section Beside

variable {ι κ : Type} [Input ι] [Input κ] {list : TokenList}

/-- Two parsers that deliver what one parser delivers from the rest of the tokens, or nothing any more. -/
def Level (list : TokenList) (s : Fueled (Scanner ι)) (t : Fueled (Scanner κ)) : Prop :=
  s.fuel = t.fuel ∧ ((∃ K K' n m q, Goes list K n s q ∧ Goes list K' m t q
      ∧ (q.source.tokens.length < list.tokens.length ∨ budget q = 3 * list.tokens.length
        ∧ s.parser.source.streamStartProduced = t.parser.source.streamStartProduced))
    ∨ Barred s ∧ Barred t ∨ s.parser.streamEndProduced = true ∧ t.parser.streamEndProduced = true)

/-- One event more from both. -/
theorem Level.next {K K' : List EventType → Prop} {n m : Nat} {q : Parser TokenList} {s : Fueled (Scanner ι)}
    {t : Fueled (Scanner κ)} (hf : s.fuel = t.fuel) (hs : Goes list K n s q) (ht : Goes list K' m t q)
    (hq : 3 * q.source.tokens.length < 3 * list.tokens.length ∨ budget q = 3 * list.tokens.length) :
    (∃ e s' t', EventSource.next s = .ok e s' ∧ EventSource.next t = .ok e t' ∧ Level list s' t')
      ∨ ∃ f s' t', EventSource.next s = .error f s' ∧ EventSource.next t = .error f t' ∧ Level list s' t' := by
  rcases hs.next with ⟨e, p, q', hp, hparse, -, hbudget, hle, -, -, hrest⟩ | ⟨problem, p, q', hp, hparse, hbarred⟩
  · rcases ht.next with ⟨e', r, q'', hr, hparse', -, -, -, -, -, hrest'⟩ | ⟨problem, r, q'', hr, hparse', -⟩
    · rw [hf, hparse'] at hparse
      cases hparse
      refine .inl ⟨e, _, _, next_of_parse hp, next_of_parse hr, hf, ?_⟩
      rcases hrest with ⟨he, hs'⟩ | ⟨he, hend, -⟩ <;> rcases hrest' with ⟨he', ht'⟩ | ⟨he', hend', -⟩
      · refine .inl ⟨_, _, _, _, q', hs', ht', .inl ?_⟩
        unfold budget at hbudget hq
        omega
      · exact absurd he' he
      · exact absurd he he'
      · exact .inr (.inr ⟨hend, hend'⟩)
    · rw [hf, hparse'] at hparse
      cases hparse
  · rcases ht.next with ⟨e', r, q'', hr, hparse', -⟩ | ⟨problem', r, q'', hr, hparse', hbarred'⟩
    · rw [hf, hparse'] at hparse
      cases hparse
    · rw [hf, hparse'] at hparse
      cases hparse
      exact .inr ⟨_, _, _, next_of_parse_error hp, next_of_parse_error hr, hf, .inr (.inl ⟨hbarred, hbarred'⟩)⟩

theorem paired (list : TokenList) : Loader.Paired (Level (ι := ι) (κ := κ) list) where
  next := by
    rintro s t ⟨hf, ⟨K, K', n, m, q, hs, ht, hq⟩ | ⟨hs, ht⟩ | ⟨hs, ht⟩⟩
    · exact Level.next hf hs ht (hq.imp (fun h => by omega) fun h => h.1)
    · exact .inl ⟨_, s, t, hs.next, ht.next, hf, .inr (.inl ⟨hs, ht⟩)⟩
    · exact .inl ⟨_, s, t, next_of_parse (parse_stopped (.inl hs)), next_of_parse (parse_stopped (.inl ht)), hf,
        .inr (.inr ⟨hs, ht⟩)⟩
  ended := by
    rintro s t ⟨hf, ⟨K, K', n, m, q, hs, ht, -⟩ | ⟨hs, ht⟩ | ⟨hs, ht⟩⟩
    · exact hs.ready.1.unended.trans ht.ready.1.unended.symm
    · exact hs.unended.trans ht.unended.symm
    · exact hs.trans ht.symm
  started := by
    rintro s t ⟨hf, ⟨K, K', n, m, q, hs, ht, hq | ⟨-, hstart⟩⟩ | ⟨hs, ht⟩ | ⟨hs, ht⟩⟩
    · exact .inl ((started_of_account hs.ready.1.account hq).trans (started_of_account ht.ready.1.account hq).symm)
    · exact .inl hstart
    · exact .inr ⟨⟨_, hs.next⟩, _, ht.next⟩
    · exact .inr ⟨⟨_, next_of_parse (parse_stopped (.inl hs))⟩, _, next_of_parse (parse_stopped (.inl ht))⟩
  refused := by
    rintro s t problem ⟨hf, ⟨K, K', n, m, q, hs, ht, -⟩ | ⟨hs, ht⟩ | ⟨hs, ht⟩⟩
    · have hpos := (Nat.zero_le _).trans_lt hs.running.fuel
      exact ⟨hf, .inr (.inl ⟨⟨rfl, hs.ready.1.unended, hpos⟩, rfl, ht.ready.1.unended, hf ▸ hpos⟩)⟩
    · exact ⟨hf, .inr (.inl ⟨⟨rfl, hs.unended, hs.fuel⟩, rfl, ht.unended, ht.fuel⟩)⟩
    · exact ⟨hf, .inr (.inr ⟨hs, ht⟩)⟩

/-- All the loads do the same with both. -/
theorem documents_alike : ∀ (n : Nat) {s : Reading ι} {t : Reading κ}, Loader.Alike (Level list) s t →
    documents n s = documents n t
  | 0, _, _, _ => rfl
  | n + 1, s, t, h => by
    have hload := Loader.same_load (paired list) s.source.fuel s t h
    unfold documents
    rw [← h.1.1]
    cases hs : Loader.load s.source.fuel s <;> cases ht : Loader.load s.source.fuel t <;> rw [hs, ht] at hload <;>
      try exact hload.elim
    · obtain ⟨-, hlater⟩ := hload
      dsimp only
      rw [documents_alike n hlater, hlater.2]
      rfl
    · obtain ⟨rfl, hlater⟩ := hload
      dsimp only
      rw [documents_alike n hlater]

end Beside

section Reading

variable {σ : Type} [ReadHandler σ] {S : Source σ} {setting : Encoding} {memory : View} {handler : σ} {list : TokenList}
  {fuel : Nat}

theorem starts_reading (hl : Lists (Scanner.init (Reader.init handler setting memory)) list)
    (hf : 3 * list.tokens.length < fuel) :
    (flow (Reader σ) list).Starts (3 * list.tokens.length) (reading handler setting memory fuel).source :=
  .inl ⟨rfl, _, goes_init hl ⟨[], Scanner.resting_init _, rfl⟩ hf, rfl, hf⟩

theorem sits_reading (h : S.After [] handler) (hl : Lists (Scanner.init (Reader.init handler setting memory)) list)
    (hf : 3 * list.tokens.length < fuel) (c : Call) :
    Sits (Reader.terminal S setting) list c (reading handler setting memory fuel) := by
  have hstart : (Reader.terminal S setting).lockstep.Rel 0 0 (Reader.init handler setting memory)
      (Reader.init handler setting memory) := ⟨rfl, Reader.standing_init h⟩
  cases c with
  | scan => exact ⟨⟨[], Scanner.resting_init _⟩, Scanner.Terminal.beside hstart, (Nat.zero_le _).trans_lt hf⟩
  | parse => exact .inl ⟨_, _, _, goes_init hl ⟨[], Scanner.resting_init _, rfl⟩ hf⟩
  | load => exact .inl ⟨_, hf, starts_reading hl hf⟩

end Reading

/-- Whatever the input is, and whether tokens, events or documents are read: where a call fails an error has been
recorded, and from then on nothing changes the parser any more; scanning returns empty tokens, parsing returns
empty events, and loading fails. -/
theorem failures_final {σ : Type} [ReadHandler σ] (S : Source σ) (setting : Encoding) (memory : View) (handler : σ)
    (h : S.After [] handler) : ∃ N, ∀ fuel, N < fuel → ∀ c s f t, Called c (reading handler setting memory fuel) s →
      Call.run c s = .error f t → t.source.parser.error.isSome = true ∧ ∀ u, Later t u → u.source = t.source
        ∧ Call.scan.run u = .ok (.token Scanner.emptyToken) u ∧ Call.parse.run u = .ok (.event Event.empty) u
        ∧ ∃ f v, Call.load.run u = .error f v := by
  obtain ⟨list, hl⟩ := exists_lists setting memory h
  refine ⟨3 * list.tokens.length, fun fuel hf c s f t hs hr => ?_⟩
  have hsits := hs.sits (sits_reading h hl hf c)
  rcases hsits.run with ⟨a, t', ht, -⟩ | ⟨f', t', ht, hbarred⟩ <;> rw [hr] at ht <;> cases ht
  refine ⟨hbarred.error, fun u hu => ?_⟩
  have hsource := hbarred.later hu
  have hu' : Barred u.source := hsource ▸ hbarred
  obtain ⟨hscan, hparse, f', v, hload, -⟩ := hu'.run
  exact ⟨hsource, hscan, hparse, f', v, hload⟩

/-- A byte that no character starts with. -/
theorem failures_final_octet : ∃ N, ∀ fuel, N < fuel →
    ∃ f t, Call.scan.run (reading (⟨[[0xFF]]⟩ : Pieces) .utf8 (fun _ => 0) fuel) = .error f t
      ∧ ∀ u, Later t u → Call.parse.run u = .ok (.event Event.empty) u := by
  have hgives : (Reader.pieces.source [0xFF]).After [] ⟨[[0xFF]]⟩ := ⟨_, rfl, rfl, by decide⟩
  have hscan : passes (fun _ _ => true) (Parser.scan (parsing (⟨[[0xFF]]⟩ : Pieces) .utf8 fun _ => 0)) = false := by
    decide +kernel
  obtain ⟨N, hN⟩ := failures_final _ .utf8 (fun _ => 0) _ hgives
  refine ⟨N, fun fuel hf => ?_⟩
  rcases hr : Parser.scan (parsing (⟨[[0xFF]]⟩ : Pieces) .utf8 fun _ => 0) with ⟨token, p⟩ | ⟨f, p⟩
  · rw [hr] at hscan
    cases hscan
  · have hrun := run_scan_error (s := reading (⟨[[0xFF]]⟩ : Pieces) .utf8 (fun _ => 0) fuel) hr
    exact ⟨f, _, hrun, fun u hu => ((hN fuel hf .scan _ f _ .start hrun).2 u hu).2.2.1⟩

/-- Whatever the input is, `yaml_parser_load` returns documents, each of them with a root and with no index that is
not that of a node; behind the last of them it returns the empty document for ever, or it fails with a problem and
then without another. -/
theorem loading_result {σ : Type} [ReadHandler σ] (S : Source σ) (setting : Encoding) (memory : View) (handler : σ)
    (h : S.After [] handler) : ∃ N, ∀ fuel, N < fuel → ∃ docs stop after,
      Listed N (reading handler setting memory fuel) docs stop after := by
  obtain ⟨list, hl⟩ := exists_lists setting memory h
  exact ⟨3 * list.tokens.length, fun fuel hf => exists_listed _ hf (starts_reading hl hf)⟩

/-- A sequence that is left open. -/
theorem loading_result_open : ∃ N, ∀ fuel, N < fuel → ∃ docs stop after,
    Listed N (reading (⟨[['['].map octet, ['a'].map octet]⟩ : Pieces) .any (fun _ => 0xFF) fuel) docs stop after := by
  have hgives : (Reader.pieces.source (['[', 'a'].map octet)).After [] ⟨[['['].map octet, ['a'].map octet]⟩ :=
    ⟨_, rfl, rfl, by decide⟩
  exact loading_result _ .any (fun _ => 0xFF) _ hgives

/-- Two inputs that show the same characters make the same documents. -/
theorem documents_beside {ι κ : Type} [Input ι] [Input κ] {R : Simulation ι κ} {i : ι} {j : κ}
    {list : TokenList} {fuel : Nat} (hl : Lists (Scanner.init i) list)
    (h : Scanner.Beside R (Scanner.init i) (Scanner.init j)) (hf : 3 * list.tokens.length < fuel) (n : Nat) :
    documents n ({ source := ⟨Parser.init (Scanner.init i), fuel⟩ } : Reading ι)
      = documents n ({ source := ⟨Parser.init (Scanner.init j), fuel⟩ } : Reading κ) := by
  have hgoes := goes_init hl ⟨[], Scanner.resting_init _, rfl⟩ hf
  have hgoes' := goes_init (Scanner.lists_beside hl h) ⟨[], Scanner.resting_init _, rfl⟩ hf
  have hlevel : Level list (⟨Parser.init (Scanner.init i), fuel⟩ : Fueled (Scanner ι))
      (⟨Parser.init (Scanner.init j), fuel⟩ : Fueled (Scanner κ)) :=
    ⟨rfl, .inl ⟨_, _, _, _, _, hgoes, hgoes', .inr ⟨rfl, rfl⟩⟩⟩
  exact documents_alike n ⟨hlevel, rfl⟩

/-- Whatever the pieces are in which two handlers hand over an input that can be decoded, the same documents are
loaded, and loading fails in the same way. -/
theorem loading_pieces {σ τ : Type} [ReadHandler σ] [ReadHandler τ] (F : Reader.Feed σ) (G : Reader.Feed τ)
    (setting : Encoding) (memory memory' : View) {b : Bytes} {handler : σ} {handler' : τ} (h : F.Gives b handler)
    (h' : G.Gives b handler') (hb : Reader.Readable setting b) : ∃ N, ∀ fuel, N < fuel → ∀ n,
      documents n (reading handler setting memory fuel) = documents n (reading handler' setting memory' fuel) := by
  obtain ⟨list, hl⟩ := exists_lists setting memory (S := F.source b) ⟨b, rfl, h⟩
  have hbeside : Scanner.Beside (F.lockstep G hb).simulation (Scanner.init (Reader.init handler setting memory))
      (Scanner.init (Reader.init handler' setting memory')) :=
    ⟨rfl, ⟨Reader.standing_init ⟨b, rfl, h⟩, Reader.standing_init ⟨b, rfl, h'⟩⟩, fun _ hk => absurd hk List.not_mem_nil⟩
  exact ⟨3 * list.tokens.length, fun fuel hf n => documents_beside hl hbeside hf n⟩

/-- A quoted scalar in UTF-16, whole and cut inside its characters. -/
theorem loading_pieces_quoted : ∃ N, ∀ fuel, N < fuel → ∀ n,
    documents n (reading (⟨[0xFE, 0xFF, 0x00, 0x22, 0x00, 0x22]⟩ : StringInput) .any (fun _ => 0) fuel)
      = documents n (reading (⟨[[0xFE], [0xFF, 0x00], [0x22, 0x00], [0x22]]⟩ : Pieces) .any (fun _ => 0xFF) fuel) := by
  have hreadable : Reader.Readable .any [0xFE, 0xFF, 0x00, 0x22, 0x00, 0x22] :=
    ⟨by decide, [0x22, 0x22], List.forall_mem_cons.mpr ⟨⟨by decide, by decide⟩,
      List.forall_mem_singleton.mpr ⟨by decide, by decide⟩⟩, by decide, Reader.stuck_nil⟩
  have hleft : Reader.strings.Gives [0xFE, 0xFF, 0x00, 0x22, 0x00, 0x22] ⟨[0xFE, 0xFF, 0x00, 0x22, 0x00, 0x22]⟩ := rfl
  have hright : Reader.pieces.Gives [0xFE, 0xFF, 0x00, 0x22, 0x00, 0x22]
      ⟨[[0xFE], [0xFF, 0x00], [0x22, 0x00], [0x22]]⟩ := ⟨rfl, by decide⟩
  exact loading_pieces Reader.strings Reader.pieces .any (fun _ => 0) (fun _ => 0xFF) hleft hright hreadable

/-- From an input that can be decoded the documents are loaded that the text makes which it stands for. -/
theorem loading_text {σ : Type} [ReadHandler σ] (F : Reader.Feed σ) (setting : Encoding) (memory : View) {b : Bytes}
    {handler : σ} (h : F.Gives b handler) (hlen : b.length < Reader.maxFileSize) {values : List Nat}
    (hb : Reader.Decodes setting b values []) : ∃ N, ∀ fuel, N < fuel → ∀ n,
      documents n (reading handler setting memory fuel)
        = documents n { source := ⟨Parser.init (Scanner.init (Reader.textOf setting b values)), fuel⟩ } := by
  obtain ⟨list, hl⟩ := exists_lists setting memory (S := F.source b) ⟨b, rfl, h⟩
  have hbeside : Scanner.Beside (F.refinement hlen hb).simulation (Scanner.init (Reader.init handler setting memory))
      (Scanner.init (Reader.textOf setting b values)) :=
    ⟨rfl, Reader.refinement_init F hlen hb memory h, fun _ hk => absurd hk List.not_mem_nil⟩
  exact ⟨3 * list.tokens.length, fun fuel hf n => documents_beside hl hbeside hf n⟩

/-- Two quotation marks behind a byte order mark. -/
theorem loading_text_marked : ∃ N, ∀ fuel, N < fuel → ∀ n,
    documents n (reading (⟨[[0xEF], [0xBB, 0xBF], [0x22], [0x22]]⟩ : Pieces) .any (fun _ => 0xFF) fuel)
      = documents n { source := ⟨Parser.init (Scanner.init (⟨.utf8, [0x22, 0x22]⟩ : Text)), fuel⟩ } := by
  have hgives : Reader.pieces.Gives [0xEF, 0xBB, 0xBF, 0x22, 0x22] ⟨[[0xEF], [0xBB, 0xBF], [0x22], [0x22]]⟩ :=
    ⟨rfl, by decide⟩
  have hdecodes : Reader.Decodes .any [0xEF, 0xBB, 0xBF, 0x22, 0x22] [0x22, 0x22] [] :=
    ⟨List.forall_mem_cons.mpr ⟨⟨by decide, by decide⟩, List.forall_mem_singleton.mpr ⟨by decide, by decide⟩⟩, by decide,
      Reader.stuck_nil⟩
  exact loading_text Reader.pieces .any (fun _ => 0xFF) hgives (by decide) hdecodes

end LibYaml
