import LibYaml.Parser.BareKeys
import LibYaml.Parser.FlowBrackets

/-!
# The parser against its documented grammar

A list of tokens is accepted exactly when it is a word of the grammar as the code reads it
(`accepts_iff`), so the parser agrees with the documented grammar on just those words of either
that are words of what the two have in common (`accepts_documented_iff`).
-/

namespace LibYaml

namespace Parser

open Automaton TokenGrammar

variable {tokens : List Token}

theorem endsOnce_of_stream {r : Reading} (h : TokenGrammar.Stream r (typesOf tokens)) :
    EndsOnce tokens := by
  obtain ⟨v, hv, htally⟩ := h.eq_append
  rintro u w rfl ⟨t, ht, he⟩
  by_contra hw
  obtain ⟨w', x, rfl⟩ : ∃ w' x, w = w' ++ [x] := by
    rcases List.eq_nil_or_concat w with rfl | ⟨w', x, hx⟩
    · exact absurd rfl hw
    · exact ⟨w', x, by simpa using hx⟩
  have hsplit : typesOf u ++ typesOf w' ++ [x.type] = v ++ [.streamEnd] := by
    simpa [typesOf] using hv
  obtain ⟨rfl, -⟩ := List.append_inj' hsplit rfl
  exact htally.streamEnd (List.mem_append_left _ (List.mem_map.mpr ⟨t, ht, he⟩))

/-- Where the automaton starts. -/
def start (tokens : List Token) : Config := ⟨.streamStart, [], typesOf tokens⟩

theorem start_valid : (start tokens).Valid :=
  ⟨.nil, by simp [start, opener], by simp [start, nodeKind], by simp [start]⟩

theorem init_beside (hd : Declared false false [] tokens) (failure : Problem) (k : Nat) :
    Beside (tokens.length + 1 + k) tokens (start tokens) (init (TokenList.mk tokens failure)) :=
  ⟨⟨rfl, rfl, rfl, ⟨rfl, hd⟩⟩, start_valid, init_running tokens failure k, rfl,
    ⟨[], rfl, by simp [init]⟩⟩

/-- What the machine accepts is the grammar as the code reads it. -/
theorem accepts_iff (hd : Declared false false [] tokens) (failure : Problem) (k : Nat) :
    Accepts (tokens.length + 1 + k) tokens failure ↔
      TokenGrammar.Stream .code (typesOf tokens) := by
  have hviable := accepting_iff (c := start tokens) _ (Nat.lt_succ_self _) start_valid
  have hbeside := init_beside hd failure k
  constructor
  · rintro ⟨n, hl, ht⟩
    exact hviable.mp (accepting_of_calls n hbeside hl ht)
  · intro h
    exact calls_of_accepting (endsOnce_of_stream h) (hviable.mpr h) hbeside (by simp [start])

/-- The parser accepts a list of tokens just when the documented grammar derives it, if and only if
neither that grammar nor the code's reading of it derives a list they do not read alike; and a
collection in brackets ends with the bracket that matches, as long as no single pair swallows the
end of its sequence. -/
theorem accepts_documented_iff (tokens : List Token) (hd : Declared false false [] tokens)
    (failure : Problem) (k : Nat) :
    ((Accepts (tokens.length + 1 + k) tokens failure ↔
        TokenGrammar.Stream .documented (typesOf tokens)) ↔
      (TokenGrammar.Stream .documented (typesOf tokens) ∨
        TokenGrammar.Stream .code (typesOf tokens) → TokenGrammar.Stream .common (typesOf tokens))) ∧
    ∀ n, (∀ m < n, ¬Swallows (calls (tokens.length + 1 + k) m
        (init (TokenList.mk tokens failure))).2) →
      FlowEndsMatch (tokens.length + 1 + k) n [] (init (TokenList.mk tokens failure)) := by
  refine ⟨?_, fun n hn => flowEndsMatch_of_calls n (init_beside hd failure k) trivial hn⟩
  rw [accepts_iff hd]
  constructor
  · rintro h (hdoc | hcode)
    · exact hdoc.common (h.mpr hdoc)
    · exact (h.mp hcode).common hcode
  · intro h
    exact ⟨fun hcode => (h (.inr hcode)).of_common, fun hdoc => (h (.inl hdoc)).of_common⟩

def bare (data : TokenData) : Token := ⟨data, .zero, .zero⟩

/-- `[? :]`, where the key and the value of the single pair have no node. -/
def emptyPair : List Token :=
  [bare (.streamStart .utf8), bare .flowSequenceStart, bare .key, bare .value,
    bare .flowSequenceEnd, bare .streamEnd]

theorem emptyPair_agrees :
    (TokenGrammar.Stream .common (typesOf emptyPair)) ∧
      (Accepts 7 emptyPair .memory ↔ TokenGrammar.Stream .documented (typesOf emptyPair)) ∧
      FlowEndsMatch 7 8 [] (init (TokenList.mk emptyPair .memory)) := by
  have hcommon : TokenGrammar.Stream .common (typesOf emptyPair) :=
    .implicit 0 (.content (.flow (s := .sequence) .block (.last (.value rfl)))) .nil
  have h := accepts_documented_iff emptyPair (by simp [emptyPair, bare, Declared]) .memory 0
  exact ⟨hcommon, h.1.mpr fun _ => hcommon, h.2 8 (by decide)⟩

/-- `[?]`, where the single pair has neither key nor value. -/
def bareKey : List Token :=
  [bare (.streamStart .utf8), bare .flowSequenceStart, bare .key, bare .flowSequenceEnd,
    bare .streamEnd]

/-- The grammar derives it, and the parser takes the end of the sequence for a part of the pair. -/
theorem bareKey_rejected :
    Declared false false [] bareKey ∧ bareKey.head?.map Token.type = some .streamStart ∧
      bareKey.getLast?.map Token.type = some .streamEnd ∧
      ¬(Accepts 6 bareKey .memory ↔ TokenGrammar.Stream .documented (typesOf bareKey)) := by
  have hdoc : TokenGrammar.Stream .documented (typesOf bareKey) :=
    .implicit 0 (.content (.flow (s := .sequence) .block (.last (.bare (.inr rfl) (.none _))))) .nil
  have hd : Declared false false [] bareKey := by simp [bareKey, bare, Declared]
  refine ⟨hd, rfl, rfl, fun h => ?_⟩
  obtain ⟨n, hl, ht⟩ := h.mpr hdoc
  have ha := accepting_of_calls n (init_beside hd .memory 0) hl ht
  have hlast := ((((((ha.next rfl).next rfl).next rfl).next rfl).next rfl).next rfl).next rfl
  rcases hlast with ⟨he, -⟩ | ⟨hs, -⟩
  · cases he
  · cases hs

end Parser

end LibYaml
