import LibYaml.Reader.Texts

/-!
# The buffer under the scanner

The scanner is run over a reader that notes what it is used for, and whose memory is overwritten wherever
it does not hold characters to come.  That changes nothing of what the scanner returns, and whenever it
looks at the buffer or steps over a character the buffer is in order.
-/

namespace LibYaml

open Fallible

namespace Reader

/-! ## Readers that differ behind their characters -/

section Like

variable {σ : Type}

/-- The readers differ in nothing but the memory that holds no characters to come. -/
def Like (r r' : Reader σ) : Prop :=
  ∃ memory, r' = { r with memory := memory } ∧ ∀ k, r.pointer ≤ k → k < r.last → memory k = r.memory k

theorem Like.at {r r' : Reader σ} (h : Like r r') : ∀ s t, s = r ∧ t = r' → Like s t := by
  rintro _ _ ⟨rfl, rfl⟩
  exact h

theorem store_congr {memory memory' : View} {start k : Nat} {c : Bytes} (h : k < start → memory' k = memory k)
    (hk : k < start + c.length) : store memory' start c k = store memory start c k := by
  unfold store
  split_ifs with hc
  · rfl
  · exact h (by omega)

theorem append_like {c : Bytes} : Sim Like (append (σ := σ) c) (append c) (fun _ => Like) fun _ => Like := by
  unfold append
  refine .getThen ?_
  rintro r _ ⟨memory, rfl, h⟩
  split_ifs with hc
  · exact .throw (Like.at ⟨memory, rfl, h⟩)
  · rintro _ _ ⟨rfl, rfl⟩
    exact ⟨rfl, _, rfl, fun k hk hlt => store_congr (h k hk) hlt⟩

theorem moved_like {r r' : Reader σ} (h : Like r r') : Like (moved r) (moved r') := by
  obtain ⟨memory, rfl, h⟩ := h
  unfold moved
  split_ifs with h1 h2
  · refine ⟨_, rfl, fun k _ hk => ?_⟩
    have hk : k < r.last - r.pointer := hk
    change (if k < r.last - r.pointer then memory (r.pointer + k) else memory k)
      = if k < r.last - r.pointer then r.memory (r.pointer + k) else r.memory k
    rw [if_pos hk, if_pos hk]
    exact h _ (by omega) (by omega)
  · exact ⟨memory, rfl, fun k _ hk => absurd hk (Nat.not_lt_zero k)⟩
  · exact ⟨memory, rfl, h⟩

theorem skipRaw_like {n : Nat} : Sim Like (skipRaw (σ := σ) n) (skipRaw n) (fun _ => Like) fun _ => Like := by
  refine .modify ?_
  rintro r _ ⟨memory, rfl, h⟩
  exact ⟨memory, rfl, h⟩

theorem checkLength_like : Sim Like (checkLength (σ := σ)) checkLength (fun _ => Like) fun _ => Like := by
  unfold checkLength
  refine .getThen ?_
  rintro r _ ⟨memory, rfl, h⟩
  split_ifs with hc
  · exact .throw (Like.at ⟨memory, rfl, h⟩)
  · exact .pure (Like.at ⟨memory, rfl, h⟩)

theorem decodeCharacter_like : Sim Like (decodeCharacter (σ := σ)) decodeCharacter
    (Round.elim (fun _ => Like) fun _ => Like) fun _ => Like := by
  unfold decodeCharacter
  refine .getThen ?_
  rintro r _ ⟨memory, rfl, h⟩
  have hlike := Like.at ⟨memory, rfl, h⟩
  split_ifs with hc
  · exact .pure hlike
  · dsimp only
    cases decode r.encoding r.eof r.raw with
    | incomplete => exact .pure hlike
    | invalid problem k value => exact .throw hlike
    | character value width =>
      change Sim _ (if !isAllowed value then _ else _) (if !isAllowed value then _ else _) _ _
      split_ifs with hv
      · exact .throw hlike
      · exact (skipRaw_like.of hlike).bind fun _ => append_like.bind fun _ => .pure fun _ _ h => h

theorem decodeRaw_like : Sim Like (decodeRaw (σ := σ)) decodeRaw (fun _ => Like) fun _ => Like := by
  unfold decodeRaw
  refine .getThen ?_
  rintro r _ ⟨memory, rfl, h⟩
  exact (Sim.rounds (P := fun _ => Like) (fun _ _ _ h => h) (fun _ => decodeCharacter_like) (r.raw.length + 1) ()).of
    (Like.at ⟨memory, rfl, h⟩)

variable [ReadHandler σ]

theorem updateRawBuffer_like : Sim Like (updateRawBuffer (σ := σ)) updateRawBuffer (fun _ => Like) fun _ => Like := by
  unfold updateRawBuffer
  refine .getThen ?_
  rintro r _ ⟨memory, rfl, h⟩
  split_ifs with hc
  · exact .pure (Like.at ⟨memory, rfl, h⟩)
  · cases hr : ReadHandler.read (rawBufferSize - r.raw.length) r.handler with
    | mk answer handler =>
      cases answer with
      | none =>
        refine .bind (Q := fun _ => Like) ?_ fun _ => .throw fun _ _ h => h
        rintro _ _ ⟨rfl, rfl⟩
        exact ⟨rfl, memory, rfl, h⟩
      | some piece =>
        change Sim _ (if rawBufferSize - r.raw.length < piece.length then _ else _)
          (if rawBufferSize - r.raw.length < piece.length then _ else _) _ _
        split_ifs with hp
        · exact .throw (Like.at ⟨memory, rfl, h⟩)
        · rintro _ _ ⟨rfl, rfl⟩
          exact ⟨rfl, memory, rfl, h⟩

theorem awaitMark_like : Sim Like (awaitMark (σ := σ)) awaitMark (Round.elim (fun _ => Like) fun _ => Like)
    fun _ => Like := by
  unfold awaitMark
  refine .getThen ?_
  rintro r _ ⟨memory, rfl, h⟩
  split_ifs with hc
  · refine .bind (updateRawBuffer_like.of (Like.at ⟨memory, rfl, h⟩)) fun _ => .pure fun _ _ h => h
  · exact .pure (Like.at ⟨memory, rfl, h⟩)

theorem determineEncoding_like : Sim Like (determineEncoding (σ := σ)) determineEncoding (fun _ => Like)
    fun _ => Like := by
  unfold determineEncoding
  refine (Sim.rounds (P := fun _ => Like) (fun _ _ _ h => h) (fun _ => awaitMark_like) 4 ()).bind fun _ => ?_
  refine .bind (Q := fun _ => Like) (.modify ?_) fun _ => .getThen ?_
  · rintro r _ ⟨memory, rfl, h⟩
    exact ⟨memory, rfl, h⟩
  · rintro r _ ⟨memory, rfl, h⟩
    exact skipRaw_like.of (Like.at ⟨memory, rfl, h⟩)

theorem fill_like {n : Nat} (first : Bool) : Sim Like (fill (σ := σ) n first) (fill n first)
    (Round.elim (fun _ => Like) fun _ => Like) fun _ => Like := by
  unfold fill
  refine .getThen ?_
  rintro r _ ⟨memory, rfl, h⟩
  have hlike := Like.at ⟨memory, rfl, h⟩
  split_ifs with hc
  · exact (checkLength_like.of hlike).bind fun _ => .pure fun _ _ h => h
  · have hread : Sim (fun s t => s = r ∧ t = { r with memory := memory })
        (onlyIf (!first || r.raw.isEmpty) updateRawBuffer) (onlyIf (!first || r.raw.isEmpty) updateRawBuffer)
        (fun _ => Like) fun _ => Like := by
      unfold onlyIf
      split_ifs
      · exact updateRawBuffer_like.of hlike
      · exact .pure hlike
    refine hread.bind fun _ => decodeRaw_like.bind fun _ => .getThen ?_
    rintro r _ ⟨memory, rfl, h⟩
    have hlike := Like.at ⟨memory, rfl, h⟩
    split_ifs with he
    · exact (append_like.of hlike).bind fun _ => checkLength_like.bind fun _ => .pure fun _ _ h => h
    · exact .pure hlike

theorem updateBuffer_like {n : Nat} : Sim Like (updateBuffer (σ := σ) n) (updateBuffer n) (fun _ => Like)
    fun _ => Like := by
  unfold updateBuffer
  refine checkLength_like.bind fun _ => .getThen ?_
  rintro r _ ⟨memory, rfl, h⟩
  have hlike := Like.at ⟨memory, rfl, h⟩
  split_ifs with he hn
  · exact .pure hlike
  · exact .pure hlike
  · have hsettled : Sim (fun s t => s = r ∧ t = { r with memory := memory })
        (onlyIf (r.encoding = .any) determineEncoding) (onlyIf (r.encoding = .any) determineEncoding)
        (fun _ => Like) fun _ => Like := by
      unfold onlyIf
      split_ifs
      · exact determineEncoding_like.of hlike
      · exact .pure hlike
    refine hsettled.bind fun _ => .bind (Q := fun _ => Like) (.modify fun _ _ h => moved_like h) fun _ => .getThen ?_
    rintro r _ ⟨memory, rfl, h⟩
    exact (Sim.rounds (P := fun _ => Like) (fun _ _ _ h => h) (fun first => fill_like first)
      (ReadHandler.left r.handler + 3) true).of (Like.at ⟨memory, rfl, h⟩)

theorem cache_like {n : Nat} : Sim Like (Reader.cache (σ := σ) n) (Reader.cache n) (fun _ => Like) fun _ => Like := by
  unfold Reader.cache
  refine .getThen ?_
  rintro r _ ⟨memory, rfl, h⟩
  have hlike := Like.at ⟨memory, rfl, h⟩
  split_ifs
  · exact .pure hlike
  · exact updateBuffer_like.of hlike

theorem Like.size {r r' : Reader σ} (h : Like r r') : Input.size r' = Input.size r := by
  obtain ⟨memory, rfl, -⟩ := h
  rfl

/-- Where one is between two calls, the other is. -/
theorem Like.rests {S : Source σ} {setting : Encoding} {d : Bytes} {done here : List Nat} {r r' : Reader σ}
    (h : Like r r') (hr : Rests S setting d done here r) : Rests S setting d done here r' := by
  obtain ⟨memory, rfl, h⟩ := h
  have hlen := hr.held.length
  refine ⟨⟨hr.taken.source, hr.taken.whole, hr.taken.room, hr.taken.decided, hr.taken.permitted⟩,
    ⟨hr.held.passed, hr.held.room, hlen, fun k hk => ?_, hr.held.unread⟩, hr.ended⟩
  have hlt : r.pointer + k < r.last := by
    have hk : k < (here.flatMap encodeOctets ++ if r.eof then [0] else []).length := hk
    omega
  change memory (r.pointer + k) = _
  rw [h _ (Nat.le_add_right _ _) hlt]
  exact hr.held.shown k hk

end Like

/-! ## The buffer in order -/

section Intact

variable {σ : Type}

/-- What is in the buffer. -/
def buffered (r : Reader σ) : Bytes := (List.range (r.last - r.pointer)).map fun k => r.memory (r.pointer + k)

variable [ReadHandler σ]

/-- The buffer is in order when `k` characters have been passed: it holds `unread` characters, those of
what the handler has delivered that come behind the ones that have been passed, and at most behind the
last of all a NUL. -/
structure Intact (S : Source σ) (setting : Encoding) (k : Nat) (r : Reader σ) : Prop where
  passed : r.pointer ≤ r.last
  room : r.last ≤ bufferSize
  unread : ∃ cs, characters (buffered r) = some cs ∧ cs.length = r.unread
  text : ∃ (d : Bytes) (done here : List Nat) (closed : Bool), S.After d r.handler ∧ done.length = k
    ∧ d = (if r.encoding = .any then [] else (opening setting d).2)
      ++ ((done ++ here).flatMap (encoded r.encoding) ++ r.raw)
    ∧ buffered r = here.flatMap encodeOctets ++ (if closed then [0] else [])
    ∧ (closed = true → r.eof = true ∧ r.raw = [])

variable {S : Source σ} {setting : Encoding} {d : Bytes} {done here : List Nat} {ended : Bool} {r : Reader σ}

omit [ReadHandler σ] in
theorem Held.buffered (h : Held here ended r) :
    buffered r = here.flatMap encodeOctets ++ if ended then [0] else [] := by
  refine List.ext_getElem (by rw [Reader.buffered, List.length_map, List.length_range, h.length]) fun k hk hk' => ?_
  have hshown := h.shown k hk'
  rw [behind, view, List.getD_eq_getElem?_getD, List.getElem?_eq_getElem hk', Option.getD_some] at hshown
  rw [← hshown]
  exact (List.getElem_map _).trans (by rw [List.getElem_range])

theorem splits_characters : ∀ {values : List Nat}, (∀ value ∈ values, isScalarValue value = true) →
    Splits (values.flatMap encodeOctets) (values.map encodeOctets)
  | [], _ => .nil
  | value :: _, h =>
    .append (encodeOctets_character (h value List.mem_cons_self)).splits
      (splits_characters fun value hv => h value (List.mem_cons_of_mem _ hv))

theorem Taken.intact (h : Taken S setting d (done ++ here) r) (hh : Held here ended r)
    (hover : ended = true → r.eof = true ∧ r.raw = []) : Intact S setting done.length r := by
  have hbuffered := hh.buffered
  have hs : ∀ value ∈ here, isScalarValue value = true :=
    fun value hv => (h.permitted value (List.mem_append_right _ hv)).1
  refine ⟨hh.passed, hh.room, ?_, d, done, here, ended, h.source, rfl, ?_, hbuffered, hover⟩
  · rw [hbuffered, hh.unread]
    cases ended with
    | false =>
      refine ⟨here.map encodeOctets, characters_eq_some.mpr ?_, by simp⟩
      simpa using splits_characters hs
    | true =>
      refine ⟨here.map encodeOctets ++ [[0]], characters_eq_some.mpr ?_, by simp⟩
      exact (splits_characters hs).append (isCharacter_ascii (by decide)).splits
  · rcases h.decided with ⟨henc, -, hvalues, hd, -⟩ | ⟨henc, -, -, hd, -⟩
    · rw [if_pos henc, hvalues]
      exact hd
    · rw [if_neg henc]
      exact hd

theorem Rests.intact (h : Rests S setting d done here r) : Intact S setting done.length r :=
  h.taken.intact h.held fun he => ⟨he, (h.ended he).1⟩

theorem Standing.intact {k n : Nat} (h : Standing S setting k n r) : Intact S setting k r := by
  obtain ⟨d, done, here, hr, rfl, -⟩ := h
  exact hr.intact

theorem Failing.intact {e : Fault} (h : Failing S setting done e r) : Intact S setting done.length r := by
  obtain ⟨problem, d, here, ended, -, ht, hh, hover, -⟩ := h
  exact ht.intact hh hover

/-- A step of the pointer goes over a character in the buffer, which is not the NUL. -/
theorem Standing.passed {k n : Nat} (h : Standing S setting k (n + 1) r) (hz : isZ (Input.view r) = false) :
    ∃ value, value ≠ 0 ∧ width (Input.view r) = (encodeOctets value).length ∧ encodeOctets value <+: buffered r := by
  obtain ⟨d, done, here, hr, -, hhas⟩ := h
  obtain ⟨value, rest, rfl⟩ := hr.nonempty hhas hz
  have hallowed := (hr.permitted value List.mem_cons_self).2
  refine ⟨value, ?_, hr.advance.1, ?_⟩
  · rintro rfl
    exact absurd hallowed (by decide)
  · rw [hr.held.buffered, List.flatMap_cons, List.append_assoc]
    exact List.prefix_append _ _

theorem Standing.like {k n : Nat} {r' : Reader σ} (h : Standing S setting k n r) (hl : Like r r') :
    Standing S setting k n r' := by
  obtain ⟨d, done, here, hr, hk, hhas⟩ := h
  have heof : r'.eof = r.eof := by
    obtain ⟨memory, rfl, -⟩ := hl
    rfl
  exact ⟨d, done, here, hl.rests hr, hk, hhas.imp id fun h => heof.trans h⟩

theorem Standing.agree {k n : Nat} {r' : Reader σ} (h : Standing S setting k n r) (hl : Like r r') :
    Agree n (Input.view r) (Input.view r') := by
  obtain ⟨d, done, here, hr, -, hhas⟩ := h
  have heof : r'.eof = r.eof := by
    obtain ⟨memory, rfl, -⟩ := hl
    rfl
  have hagree := hr.agree (l := []) hhas fun _ => rfl
  exact hagree.trans ((hl.rests hr).agree (l := []) (hhas.imp id fun h => heof.trans h) fun _ => rfl).symm

end Intact

end Reader

/-! ## A reader that is watched -/

/-- What the scanner does with its input: `CACHE` for `n` characters, or a step of the pointer. -/
inductive Use
  | cached (n : Nat)
  | passed (bytes : Nat)

/-- A reader whose memory is overwritten with `noise` whenever `CACHE` is called, but for the characters to
come.  It notes what it is used for, the last use first, and how the reader was before. -/
structure Watched (σ : Type) where
  reader : Reader σ
  noise : Nat → View
  uses : List (Use × Reader σ) := []

namespace Watched

variable {σ : Type}

def overwritten (noise : View) (r : Reader σ) : Reader σ :=
  { r with memory := fun k => if r.pointer ≤ k ∧ k < r.last then r.memory k else noise k }

theorem overwritten_like {v : View} {r r' : Reader σ} (h : Reader.Like r r') :
    Reader.Like r (overwritten v r') := by
  obtain ⟨memory, rfl, h⟩ := h
  exact ⟨_, rfl, fun k hk hlt => (if_pos ⟨hk, hlt⟩).trans (h k hk hlt)⟩

variable [ReadHandler σ]

instance : Input (Watched σ) where
  cache n w :=
    match Input.cache n w.reader with
    | .ok _ r => .ok () { w with
        reader := overwritten (w.noise w.uses.length) r, uses := (.cached n, w.reader) :: w.uses }
    | .error e r => .error e { w with reader := r, uses := (.cached n, w.reader) :: w.uses }
  view w := Input.view w.reader
  advance k w := { w with reader := Input.advance k w.reader, uses := (.passed k, w.reader) :: w.uses }
  encoding w := Input.encoding w.reader
  size w := Input.size w.reader
  view_advance k w := Input.view_advance k w.reader

/-- Each use finds the buffer in order, where `k` characters have been passed in the end.  Not more than 8
characters are asked for at a time, for which there is always room; a step goes over a character in the
buffer, and not over the NUL. -/
def Orderly (S : Source σ) (setting : Encoding) : Nat → List (Use × Reader σ) → Prop
  | k, [] => k = 0
  | k, (.cached n, r) :: uses =>
    (n ≤ 8 ∧ Reader.Intact S setting k r
      ∧ ∀ e r', Reader.cache n r = .error e r' → ∃ problem, e = .reported problem) ∧ Orderly S setting k uses
  | k, (.passed bytes, r) :: uses =>
    ∃ j, k = j + 1 ∧ (Reader.Intact S setting j r
      ∧ ∃ value, value ≠ 0 ∧ bytes = (encodeOctets value).length ∧ encodeOctets value <+: Reader.buffered r)
      ∧ Orderly S setting j uses

/-! ## The scanner over it -/

variable {S : Source σ} {setting : Encoding}

theorem watched_of_ok {m : Nat} {w : Watched σ} {r' : Reader σ} (h : Reader.cache m w.reader = .ok () r') :
    Input.cache m w = .ok () { w with
      reader := overwritten (w.noise w.uses.length) r', uses := (.cached m, w.reader) :: w.uses } := by
  change (match Input.cache m w.reader with
    | .ok _ r => .ok () { w with
        reader := overwritten (w.noise w.uses.length) r, uses := (.cached m, w.reader) :: w.uses }
    | .error e r => .error e { w with reader := r, uses := (.cached m, w.reader) :: w.uses } :
      EStateM.Result Problem (Watched σ) Unit) = _
  rw [Reader.cache_of_ok h]

theorem watched_of_error {m : Nat} {w : Watched σ} {r' : Reader σ} {problem : Problem}
    (h : Reader.cache m w.reader = .error (.reported problem) r') :
    Input.cache m w = .error problem { w with reader := r', uses := (.cached m, w.reader) :: w.uses } := by
  change (match Input.cache m w.reader with
    | .ok _ r => .ok () { w with
        reader := overwritten (w.noise w.uses.length) r, uses := (.cached m, w.reader) :: w.uses }
    | .error e r => .error e { w with reader := r, uses := (.cached m, w.reader) :: w.uses } :
      EStateM.Result Problem (Watched σ) Unit) = _
  rw [Reader.cache_of_error h]

theorem like_advance {n : Nat} {r r' : Reader σ} (h : Reader.Like r r') :
    Reader.Like (Input.advance n r) (Input.advance n r') := by
  obtain ⟨memory, rfl, h⟩ := h
  exact ⟨memory, rfl, fun j hj hlt => h j (by have : r.pointer + n ≤ j := hj; omega) hlt⟩

/-- The scanner over a reader and over one that is watched. -/
def lockstep (S : Source σ) (setting : Encoding) : Lockstep (Reader σ) (Watched σ) where
  Rel k n r w := Reader.Like r w.reader ∧ Reader.Standing S setting k n r ∧ Orderly S setting k w.uses
  Broken k r w := Reader.Intact S setting k r ∧ Orderly S setting k w.uses
  mono hn h := ⟨h.1, h.2.1.mono hn, h.2.2⟩
  agree h := h.2.1.agree h.1
  broken h := ⟨h.2.1.intact, h.2.2⟩
  encoding := by
    rintro k n r w ⟨⟨memory, h, -⟩, -⟩
    change r.encoding = w.reader.encoding
    rw [h]
  cache := by
    rintro k n r w m hm ⟨hlike, hstands, horder⟩
    have hlike' := Reader.cache_like (n := m) r w.reader hlike
    have hcache := hstands.cache hm
    have huse : Orderly S setting k ((.cached m, w.reader) :: w.uses) := by
      refine ⟨⟨hm, (hstands.like hlike).intact, fun e r' hx => ?_⟩, horder⟩
      have hfails := (hstands.like hlike).cache hm
      rw [hx] at hfails
      obtain ⟨done, -, problem, -, -, -, he, -⟩ := hfails
      exact ⟨problem, he⟩
    cases hr : Reader.cache m r <;> cases hw : Reader.cache m w.reader <;> rw [hr, hw] at hlike' <;>
      rw [hr] at hcache <;> try exact hlike'.elim
    · rw [Reader.cache_of_ok hr, watched_of_ok hw]
      obtain ⟨hstands', hagree, hsize⟩ := hcache
      refine ⟨⟨overwritten_like hlike'.2, hstands', huse⟩, hagree, hsize, ?_⟩
      have hsame := (overwritten_like (v := w.noise w.uses.length) hlike'.2).size
      exact hsame.le.trans (hsize.trans hlike.size.ge)
    · obtain ⟨done, rfl, hfails⟩ := hcache
      have hintact := hfails.intact
      obtain ⟨problem, -, -, -, rfl, -⟩ := hfails
      obtain ⟨rfl, -⟩ := hlike'
      rw [Reader.cache_of_error hr, watched_of_error hw]
      exact ⟨rfl, hintact, huse⟩
  step := by
    rintro k _ r w ⟨hlike, hstands, horder⟩ hz
    have hagree := hstands.agree hlike
    have hwidth : width (Input.view w) = width (Input.view r) := (width_congr hagree.head).symm
    have hz' : isZ (Input.view w.reader) = false := by rwa [isZ, isZAt, ← hagree.head]
    obtain ⟨hstands', hsize⟩ := hstands.advance hz
    obtain ⟨-, hsize'⟩ := (hstands.like hlike).advance hz'
    have hpassed := (hstands.like hlike).passed hz'
    have hw : Input.advance (width (Input.view w)) w
        = { w with reader := Input.advance (width (Input.view w)) w.reader,
                   uses := (.passed (width (Input.view w)), w.reader) :: w.uses } := rfl
    rw [hw]
    refine ⟨⟨?_, hstands', k, rfl, ⟨(hstands.like hlike).intact, hpassed⟩, horder⟩, hsize, hsize'⟩
    rw [hwidth]
    exact like_advance (n := width (Input.view r)) hlike

end Watched

open Scanner

/-- However the scanner is called, whatever the memory holds behind the characters to come, and whatever is
written there later, it returns the same.  The buffer is always in order, and the index of the mark counts
the characters that have been passed. -/
theorem buffer_in_order {σ : Type} [ReadHandler σ] (S : Source σ) (setting : Encoding) (memory : View)
    (noise : Nat → View) (handler : σ) (h : S.After [] handler) (n : Nat) :
    let plain := calls n (init (Reader.init handler setting memory))
    let watched := calls n (init ({ reader := Reader.init handler setting memory, noise := noise } : Watched σ))
    watched.1 = plain.1 ∧ watched.2 = plain.2.onto watched.2.input
      ∧ Reader.Intact S setting plain.2.mark.index plain.2.input
      ∧ Watched.Orderly S setting plain.2.mark.index watched.2.input.uses := by
  have hstart : Abreast (Watched.lockstep S setting).simulation (init (Reader.init handler setting memory))
      (init ({ reader := Reader.init handler setting memory, noise := noise } : Watched σ)) :=
    abreast_init ⟨⟨memory, rfl, fun _ _ _ => rfl⟩, Reader.standing_init h, rfl⟩
  obtain ⟨hsame, -, habreast⟩ := calls_abreast n hstart
  exact ⟨hsame.symm, habreast.onto, habreast.broken.1, habreast.broken.2⟩

/-- Two pieces, with memory that is overwritten each time it may be. -/
theorem buffer_in_order_pieces :
    (calls 4 (init (({
        reader := Reader.init ⟨[[0xC3], [0xA9]]⟩ .utf8 (fun _ => 0xFF)
        noise := fun n _ => UInt8.ofNat n }) : Watched Pieces))).1
      = (calls 4 (init (Reader.init (⟨[[0xC3], [0xA9]]⟩ : Pieces) .utf8 fun _ => 0xFF))).1 :=
  (buffer_in_order (Reader.pieces.source [0xC3, 0xA9]) .utf8 _ _ _ ⟨_, rfl, rfl, by decide⟩ 4).1

end LibYaml
