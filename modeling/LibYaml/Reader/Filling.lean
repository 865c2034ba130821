import LibYaml.Reader.Encodings
import LibYaml.Reader.Machine
import LibYaml.Scanner.Text

/-!
# Filling the buffer

Whatever the handler delivers at a time, what the reader has decoded is the start of what has been
delivered, and the buffer holds the characters of it that have not been passed, then, at the end of the
input, a NUL.
-/

namespace LibYaml

open Fallible

/-! ## Deliveries -/

/-- A kind of handlers: `After d h` says that `h` is the state of one that has delivered `d`, `Whole d`
that the input may end behind `d`, and `fails` that reading may fail. -/
structure Source (σ : Type) [ReadHandler σ] where
  After : Bytes → σ → Prop
  Whole : Bytes → Prop
  fails : Prop
  read : ∀ {d h n}, After d h → 0 < n →
    match ReadHandler.read n h with
    | (some piece, h') => piece.length ≤ n ∧ After (d ++ piece) h'
        ∧ ReadHandler.left h' + piece.length ≤ ReadHandler.left h ∧ (piece = [] → Whole d)
    | (none, h') => fails ∧ After d h' ∧ ReadHandler.left h' ≤ ReadHandler.left h

namespace Reader

/-! ## Memory -/

section Memory

variable {memory : View} {start : Nat} {c b : Bytes} {v : View}

theorem store_of_lt {k : Nat} (h : k < start) : store memory start c k = memory k :=
  if_neg (by omega)

theorem store_at {k : Nat} (h : k < c.length) : store memory start c (start + k) = view c k := by
  unfold store
  rw [if_pos (by omega), Nat.add_sub_cancel_left]
  rfl

/-- The view starts with these bytes. -/
def Shown (b : Bytes) (v : View) : Prop := ∀ k < b.length, v k = view b k

theorem Shown.left (h : Shown (b ++ c) v) : Shown b v := by
  intro k hk
  rw [h k (by rw [List.length_append]; omega), view_append_lt hk]

theorem Shown.right (h : Shown (b ++ c) v) : Shown c (behind b.length v) := by
  intro k hk
  rw [behind, h (b.length + k) (by rw [List.length_append]; omega), view_append_add]

theorem Shown.append (h : Shown b (behind start memory)) :
    Shown (b ++ c) (behind start (store memory (start + b.length) c)) := by
  intro k hk
  rw [List.length_append] at hk
  rcases Nat.lt_or_ge k b.length with hb | hb
  · rw [behind, store_of_lt (by omega), view_append_lt hb]
    exact h k hb
  · obtain ⟨j, rfl⟩ := Nat.exists_eq_add_of_le hb
    rw [behind, ← Nat.add_assoc, store_at (by omega), view_append_add]

end Memory

/-! ## The buffer -/

section Buffer

variable {σ : Type} {here : List Nat} {ended : Bool} {r : Reader σ}

/-- The buffer holds the characters `here`, and a NUL behind them if the input is over. -/
structure Held (here : List Nat) (ended : Bool) (r : Reader σ) : Prop where
  passed : r.pointer ≤ r.last
  room : r.last ≤ bufferSize
  length : r.last - r.pointer = (here.flatMap encodeOctets ++ if ended then [0] else []).length
  shown : Shown (here.flatMap encodeOctets ++ if ended then [0] else []) (behind r.pointer r.memory)
  unread : r.unread = here.length + if ended then 1 else 0

theorem checkLength_of_lt (h : r.offset < maxFileSize) : checkLength r = .ok () r := by
  unfold checkLength
  rw [bind_of_ok (get_apply r), if_neg (by omega)]
  rfl

theorem checkLength_of_le (h : maxFileSize ≤ r.offset) :
    checkLength r = .error (.reported (.reader "input is too long" r.offset (-1))) r := by
  unfold checkLength
  rw [bind_of_ok (get_apply r), if_pos h]
  rfl

theorem encodeOctets_length (value : Nat) : 1 ≤ (encodeOctets value).length ∧ (encodeOctets value).length ≤ 4 := by
  unfold encodeOctets
  split_ifs <;> simp

theorem flatMap_encodeOctets_length (values : List Nat) :
    values.length ≤ (values.flatMap encodeOctets).length ∧ (values.flatMap encodeOctets).length ≤ 4 * values.length := by
  induction values with
  | nil => simp
  | cons value values ih =>
    have := encodeOctets_length value
    rw [List.flatMap_cons, List.length_append, List.length_cons]
    omega

theorem Held.unread_le (h : Held here ended r) : r.unread ≤ r.last - r.pointer := by
  have hlen := h.length
  have := (flatMap_encodeOctets_length here).1
  rw [h.unread]
  rw [List.length_append] at hlen
  cases ended with
  | false =>
    simp only [Bool.false_eq_true, if_false, List.length_nil] at hlen ⊢
    omega
  | true =>
    simp only [if_true, List.length_singleton] at hlen ⊢
    omega

/-- What is appended stands behind what was there. -/
theorem Held.appended {c : Bytes} {values : List Nat} {closed : Bool} (h : Held here false r)
    (hc : (values.flatMap encodeOctets ++ if closed then [0] else []) = here.flatMap encodeOctets ++ c)
    (hn : (values.length + if closed then 1 else 0) = here.length + 1) (hroom : r.last + c.length ≤ bufferSize) :
    Held values closed { r with
      memory := store r.memory r.last c, last := r.last + c.length, unread := wrapping (r.unread + 1) } := by
  have hpassed := h.passed
  have hunread := h.unread
  have hlen := h.length
  have hshown := h.shown
  simp only [Bool.false_eq_true, if_false, List.append_nil, Nat.add_zero] at hunread hlen hshown
  have hcount := (flatMap_encodeOctets_length here).1
  have hlast : r.last = r.pointer + (here.flatMap encodeOctets).length := by omega
  unfold bufferSize rawBufferSize at hroom
  refine ⟨hpassed.trans (Nat.le_add_right _ _), hroom, ?_, ?_, ?_⟩
  · rw [hc, List.length_append]
    change r.last + c.length - r.pointer = _
    omega
  · rw [hc]
    change Shown _ (behind r.pointer (store r.memory r.last c))
    rw [hlast]
    exact hshown.append
  · rw [hn]
    change wrapping (r.unread + 1) = _
    rw [wrapping, Nat.mod_eq_of_lt (by omega), hunread]

theorem Held.push {value : Nat} (h : Held here false r) (hroom : r.last + (encodeOctets value).length ≤ bufferSize) :
    Held (here ++ [value]) false { r with
      memory := store r.memory r.last (encodeOctets value), last := r.last + (encodeOctets value).length,
      unread := wrapping (r.unread + 1) } :=
  h.appended (by simp) (by simp) hroom

/-- With a NUL behind the last character. -/
def closed (r : Reader σ) : Reader σ :=
  { r with memory := store r.memory r.last [0], last := r.last + 1, unread := wrapping (r.unread + 1) }

theorem Held.close (h : Held here false r) (hroom : r.last + 1 ≤ bufferSize) : Held here true (closed r) :=
  h.appended (c := [0]) rfl rfl hroom

theorem append_of_le {c : Bytes} (h : r.last + c.length ≤ bufferSize) :
    append c r = .ok () { r with
      memory := store r.memory r.last c, last := r.last + c.length, unread := wrapping (r.unread + 1) } := by
  unfold append
  rw [bind_of_ok (get_apply r), if_neg (by omega)]
  rfl

/-- Moving what is there to the start of the buffer shows the same. -/
theorem Held.moved (h : Held here ended r) : Held here ended (moved r) ∧ (Reader.moved r).pointer = 0 := by
  have hpassed := h.passed
  have hroom := h.room
  unfold Reader.moved
  split_ifs with h1 h2
  · rw [Bool.and_eq_true, decide_eq_true_iff, decide_eq_true_iff] at h1
    refine ⟨⟨Nat.zero_le _, (Nat.sub_le _ _).trans hroom, h.length, fun k hk => ?_, h.unread⟩, rfl⟩
    have hlen := h.length
    change (if 0 + k < r.last - r.pointer then r.memory (r.pointer + (0 + k)) else r.memory (0 + k)) = _
    rw [Nat.zero_add, if_pos (by omega)]
    exact h.shown k hk
  · have hlen := h.length
    refine ⟨⟨le_rfl, Nat.zero_le _, ?_, fun k hk => ?_, h.unread⟩, rfl⟩
    · change 0 - 0 = _
      omega
    · omega
  · rw [Bool.and_eq_true, decide_eq_true_iff, decide_eq_true_iff] at h1
    exact ⟨h, by omega⟩

end Buffer

/-! ## What has been read -/

variable {σ : Type} [ReadHandler σ]

/-- The encoding of an input and the mark in front of its text, where `setting` is what
`yaml_parser_set_encoding` has been told. -/
def opening (setting : Encoding) (b : Bytes) : Encoding × Bytes :=
  if setting = .any then byteOrderMark b else (setting, [])

/-- A character that may stand in a text. -/
def Permitted (value : Nat) : Prop := isScalarValue value = true ∧ isAllowed value = true

/-- The handler has delivered `d`, of which the characters `values` have been decoded. -/
structure Taken (S : Source σ) (setting : Encoding) (d : Bytes) (values : List Nat) (r : Reader σ) : Prop where
  source : S.After d r.handler
  whole : r.eof = true → S.Whole d
  room : r.rawPassed + r.raw.length ≤ rawBufferSize
  decided : r.encoding = .any ∧ setting = .any ∧ values = [] ∧ d = r.raw ∧ r.offset = 0
    ∨ r.encoding ≠ .any ∧ (opening setting d).1 = r.encoding ∧ (setting = .any → 3 ≤ d.length ∨ r.eof = true)
      ∧ d = (opening setting d).2 ++ (values.flatMap (encoded r.encoding) ++ r.raw)
      ∧ r.offset + r.raw.length = d.length
  permitted : ∀ value ∈ values, Permitted value

/-- Between two calls. -/
structure Rests (S : Source σ) (setting : Encoding) (d : Bytes) (done here : List Nat) (r : Reader σ) : Prop where
  taken : Taken S setting d (done ++ here) r
  held : Held here r.eof r
  ended : r.eof = true → r.raw = [] ∧ r.encoding ≠ .any ∧ r.offset < maxFileSize

/-- Why reading fails. -/
inductive Refused (S : Source σ) (setting : Encoding) (d : Bytes) (values : List Nat) (r : Reader σ) : Problem → Prop
  | handler (h : S.fails) : Refused S setting d values r (.reader "input error" r.offset (-1))
  | long (h : maxFileSize ≤ r.offset) : Refused S setting d values r (.reader "input is too long" r.offset (-1))
  | invalid {problem : String} {k : Nat} {value : Int} (hne : r.raw ≠ []) (he : r.encoding ≠ .any)
      (h : decode r.encoding r.eof r.raw = .invalid problem k value) :
      Refused S setting d values r (.reader problem (r.offset + k) value)
  | control {value width : Nat} (he : r.encoding ≠ .any) (h : decode r.encoding r.eof r.raw = .character value width)
      (hv : isAllowed value = false) :
      Refused S setting d values r (.reader "control characters are not allowed" r.offset value)

/-- How reading fails. -/
def Failing (S : Source σ) (setting : Encoding) (done : List Nat) (e : Fault) (r : Reader σ) : Prop :=
  ∃ problem d here ended, e = .reported problem ∧ Taken S setting d (done ++ here) r ∧ Held here ended r
    ∧ (ended = true → r.eof = true ∧ r.raw = []) ∧ Refused S setting d (done ++ here) r problem

variable {S : Source σ} {setting : Encoding} {d : Bytes} {done here values : List Nat} {ended : Bool} {N : Nat}
  {r : Reader σ}

theorem byteOrderMark_append {piece : Bytes} (h : 3 ≤ d.length) : byteOrderMark (d ++ piece) = byteOrderMark d := by
  rcases d with _ | ⟨a, _ | ⟨b, _ | ⟨c, d⟩⟩⟩
  · simp at h
  · simp at h
  · simp at h
  · rfl

theorem opening_append {piece : Bytes} (h : setting = .any → 3 ≤ d.length) :
    opening setting (d ++ piece) = opening setting d := by
  unfold opening
  split_ifs with hany
  · exact byteOrderMark_append (h hany)
  · rfl

/-- More is delivered. -/
theorem Taken.more {piece : Bytes} {handler : σ} (h : Taken S setting d values r) (heof : r.eof = false)
    (hp : piece.length ≤ rawBufferSize - r.raw.length) (ha : S.After (d ++ piece) handler)
    (hwhole : piece = [] → S.Whole d) :
    Taken S setting (d ++ piece) values { r with
      rawPassed := 0, handler := handler, raw := r.raw ++ piece, eof := piece.isEmpty } := by
  have hroom := h.room
  refine ⟨ha, fun he => ?_, ?_, ?_, h.permitted⟩
  · have hnil : piece = [] := List.isEmpty_iff.mp he
    rw [hnil, List.append_nil]
    exact hwhole hnil
  · change 0 + (r.raw ++ piece).length ≤ rawBufferSize
    rw [List.length_append]
    omega
  · rcases h.decided with ⟨henc, hset, hvalues, hd, hoff⟩ | ⟨henc, hopen, hlen, hd, hoff⟩
    · exact .inl ⟨henc, hset, hvalues, congrArg (· ++ piece) hd, hoff⟩
    · have hlen' : setting = .any → 3 ≤ d.length := fun hs => (hlen hs).resolve_right (by rw [heof]; exact Bool.false_ne_true)
      have hopen' : opening setting (d ++ piece) = opening setting d := opening_append hlen'
      refine .inr ⟨henc, ?_, ?_, ?_, ?_⟩
      · rw [hopen']
        exact hopen
      · intro hs
        have := hlen' hs
        rw [List.length_append]
        omega
      · rw [hopen']
        change d ++ piece = _ ++ (_ ++ (r.raw ++ piece))
        rw [← List.append_assoc, ← List.append_assoc, List.append_assoc (opening setting d).2, ← hd]
      · change r.offset + (r.raw ++ piece).length = (d ++ piece).length
        rw [List.length_append, List.length_append]
        omega

/-- What a call of the handler comes to. -/
theorem updateRawBuffer_spec (h : Taken S setting d values r) (heof : r.eof = false) (hlen : r.raw.length < rawBufferSize) :
    (∃ piece handler, updateRawBuffer r = .ok () { r with
          rawPassed := 0, handler := handler, raw := r.raw ++ piece, eof := piece.isEmpty }
        ∧ Taken S setting (d ++ piece) values { r with
          rawPassed := 0, handler := handler, raw := r.raw ++ piece, eof := piece.isEmpty }
        ∧ ReadHandler.left handler + piece.length ≤ ReadHandler.left r.handler)
      ∨ ∃ handler, updateRawBuffer r = .error (.reported (.reader "input error" r.offset (-1))) { r with
          rawPassed := 0, handler := handler }
        ∧ S.fails ∧ Taken S setting d values { r with rawPassed := 0, handler := handler } := by
  have hguard : ((r.rawPassed = 0 && r.raw.length = rawBufferSize) || r.eof) = false := by
    rw [heof, Bool.or_false, decide_eq_false (Nat.ne_of_lt hlen), Bool.and_false]
  have hread := S.read h.source (n := rawBufferSize - r.raw.length) (by omega)
  unfold updateRawBuffer
  rw [bind_of_ok (get_apply r), if_neg (by rw [hguard]; exact Bool.false_ne_true)]
  cases hr : ReadHandler.read (rawBufferSize - r.raw.length) r.handler with
  | mk answer handler =>
    rw [hr] at hread
    cases answer with
    | none =>
      have hroom := h.room
      exact .inr ⟨handler, rfl, hread.1, hread.2.1, h.whole, by
        change 0 + r.raw.length ≤ rawBufferSize
        omega, h.decided, h.permitted⟩
    | some piece =>
      obtain ⟨hp, ha, hleft, hwhole⟩ := hread
      refine .inl ⟨piece, handler, ?_, h.more heof hp ha hwhole, hleft⟩
      exact congrFun (if_neg (c := rawBufferSize - r.raw.length < piece.length) (by omega)) r

/-! ## A call -/

/-- In the midst of a call that has started with `here` in the buffer. -/
structure Filling (S : Source σ) (setting : Encoding) (done here : List Nat) (N : Nat) (d : Bytes) (more : List Nat)
    (r : Reader σ) : Prop where
  taken : Taken S setting d (done ++ (here ++ more)) r
  held : Held (here ++ more) false r
  size : r.unread + r.raw.length + ReadHandler.left r.handler ≤ N

/-- In the midst of a call, with `P`. -/
def Fills (S : Source σ) (setting : Encoding) (done here : List Nat) (N : Nat) (P : Reader σ → Prop) (r : Reader σ) :
    Prop :=
  ∃ d more, Filling S setting done here N d more r ∧ P r

variable {more : List Nat} {P Q : Reader σ → Prop}

theorem Fills.weaken (h : Fills S setting done here N P r) (hpq : P r → Q r) : Fills S setting done here N Q r := by
  obtain ⟨d, more, hf, hp⟩ := h
  exact ⟨d, more, hf, hpq hp⟩

theorem Filling.failing {problem : Problem} (h : Filling S setting done here N d more r)
    (hr : Refused S setting d (done ++ (here ++ more)) r problem) : Failing S setting done (.reported problem) r :=
  ⟨problem, d, here ++ more, false, rfl, h.taken, h.held, nofun, hr⟩

/-- More of what there is goes to the raw buffer, and nothing else happens. -/
theorem readMore (hP : ∀ r, P r → r.eof = false ∧ r.raw.length < rawBufferSize)
    (hQ : ∀ r handler piece, P r → (r.raw ++ piece).length ≤ rawBufferSize →
      ReadHandler.left handler + piece.length ≤ ReadHandler.left r.handler →
      Q { r with rawPassed := 0, handler := handler, raw := r.raw ++ piece, eof := piece.isEmpty }) :
    Holds (Fills S setting done here N P) updateRawBuffer (fun _ => Fills S setting done here N Q)
      (Failing S setting done) := by
  intro r hr
  obtain ⟨d, more, hf, hp⟩ := hr
  obtain ⟨heof, hlen⟩ := hP r hp
  have hsize := hf.size
  rcases updateRawBuffer_spec hf.taken heof hlen with ⟨piece, handler, hx, ht, hleft⟩ | ⟨handler, hx, hfails, ht⟩
  · rw [hx]
    refine ⟨d ++ piece, more, ⟨ht, ⟨hf.held.passed, hf.held.room, hf.held.length, hf.held.shown, hf.held.unread⟩, ?_⟩,
      hQ r handler piece hp ((Nat.le_add_left _ _).trans ht.room) hleft⟩
    change r.unread + (r.raw ++ piece).length + ReadHandler.left handler ≤ N
    rw [List.length_append]
    omega
  · rw [hx]
    exact ⟨_, d, here ++ more, false, rfl, ht,
      ⟨hf.held.passed, hf.held.room, hf.held.length, hf.held.shown, hf.held.unread⟩, nofun, .handler hfails⟩

/-! ### The encoding -/

/-- Before the encoding is known nothing has been decoded. -/
theorem Taken.start (h : Taken S setting d values r) (he : r.encoding = .any) :
    setting = .any ∧ values = [] ∧ d = r.raw ∧ r.offset = 0 := by
  rcases h.decided with ⟨-, hset, hvalues, hd, hoff⟩ | ⟨hne, -⟩
  · exact ⟨hset, hvalues, hd, hoff⟩
  · exact absurd he hne

/-- With at least three bytes, or all there are, the mark can be looked for. -/
def Awaiting (n k : Nat) (r : Reader σ) : Prop :=
  (r.encoding = .any ∧ r.unread < n) ∧ (r.eof = true ∧ 1 ≤ k ∨ 4 ≤ min r.raw.length 3 + k)

theorem awaitMark_holds {n : Nat} :
    Holds (Fills S setting done here N fun r => r.encoding = .any ∧ r.unread < n)
      (loop .outOfFuel (fun _ => awaitMark) 4 ())
      (fun _ => Fills S setting done here N fun r => (r.encoding = .any ∧ r.unread < n) ∧ (3 ≤ r.raw.length ∨ r.eof = true))
      (Failing S setting done) := by
  refine (Holds.loopDown (P := fun k _ => Fills S setting done here N (Awaiting n k)) ?_ (fun k _ => ?_) 4 ()).weaken ?_
    (fun _ _ h => h) fun _ _ h => h
  · rintro _ r ⟨d, more, -, -, h | h⟩ <;> omega
  · unfold awaitMark
    refine .getThen fun r hr => .ite (fun hc => ?_) fun hc => ?_
    · rw [Bool.and_eq_true, Bool.not_eq_true', decide_eq_true_iff] at hc
      have hread : Holds (Fills S setting done here N fun r => (r.eof = false ∧ r.raw.length < 3) ∧ Awaiting n (k + 1) r)
          updateRawBuffer (fun _ => Fills S setting done here N (Awaiting n k)) (Failing S setting done) := by
        refine readMore (fun r h => ⟨h.1.1, h.1.2.trans (by decide)⟩) fun r handler piece h _ hleft => ⟨h.2.1, ?_⟩
        obtain ⟨⟨heof, hlen⟩, -, h | h⟩ := h
        · exact absurd (heof.symm.trans h.1) Bool.false_ne_true
        · cases piece with
          | nil => exact .inl ⟨rfl, by omega⟩
          | cons b piece =>
            refine .inr ?_
            simp only [List.length_append, List.length_cons]
            omega
      refine (hread.weaken (fun s hs => ?_) (fun _ _ h => h) fun _ _ h => h).bind fun _ => .pure fun r h => h
      rw [hs]
      exact hr.weaken fun h => ⟨hc, h⟩
    · refine .pure fun s hs => ?_
      rw [hs]
      obtain ⟨d, more, hf, h⟩ := hr
      refine ⟨d, more, hf, h.1, ?_⟩
      rw [Bool.and_eq_true, Bool.not_eq_true', decide_eq_true_iff, not_and] at hc
      cases heof : r.eof with
      | true => exact .inr rfl
      | false => exact .inl (Nat.le_of_not_lt (hc heof))
  · rintro r ⟨d, more, hf, henc⟩
    exact ⟨d, more, hf, henc, .inr (by omega)⟩

/-- The mark is a part of the text. -/
theorem byteOrderMark_spec (b : Bytes) :
    (byteOrderMark b).1 ≠ .any ∧ b = (byteOrderMark b).2 ++ b.drop (byteOrderMark b).2.length := by
  have hsplit {mark : Bytes} (h : mark.isPrefixOf b = true) : b = mark ++ b.drop mark.length := by
    obtain ⟨rest, rfl⟩ := List.isPrefixOf_iff_prefix.mp h
    rw [List.drop_left]
  unfold byteOrderMark
  split_ifs with h1 h2 h3
  · exact ⟨by decide, hsplit h1⟩
  · exact ⟨by decide, hsplit h2⟩
  · exact ⟨by decide, hsplit h3⟩
  · exact ⟨by decide, rfl⟩

/-- The encoding is settled. -/
theorem Taken.settle (h : Taken S setting d values r) (he : r.encoding = .any) (hlen : 3 ≤ r.raw.length ∨ r.eof = true) :
    Taken S setting d values { r with
      encoding := (byteOrderMark r.raw).1, raw := r.raw.drop (byteOrderMark r.raw).2.length,
      rawPassed := r.rawPassed + (byteOrderMark r.raw).2.length, offset := r.offset + (byteOrderMark r.raw).2.length } := by
  obtain ⟨hset, hvalues, hd, hoff⟩ := h.start he
  obtain ⟨hne, hsplit⟩ := byteOrderMark_spec r.raw
  have hroom := h.room
  have hlength := congrArg List.length hsplit
  rw [List.length_append] at hlength
  have hopen : opening setting d = byteOrderMark r.raw := by rw [opening, if_pos hset, hd]
  refine ⟨h.source, h.whole, ?_, .inr ⟨hne, ?_, fun _ => ?_, ?_, ?_⟩, h.permitted⟩
  · change r.rawPassed + (byteOrderMark r.raw).2.length + (r.raw.drop (byteOrderMark r.raw).2.length).length ≤ rawBufferSize
    omega
  · rw [hopen]
  · rw [hd]
    exact hlen
  · rw [hopen, hvalues, hd]
    exact hsplit
  · change r.offset + (byteOrderMark r.raw).2.length + (r.raw.drop (byteOrderMark r.raw).2.length).length = d.length
    rw [hd]
    omega

theorem determineEncoding_holds {n : Nat} :
    Holds (Fills S setting done here N fun r => r.encoding = .any ∧ r.unread < n) determineEncoding
      (fun _ => Fills S setting done here N fun r => r.encoding ≠ .any ∧ r.unread < n) (Failing S setting done) := by
  refine awaitMark_holds.bind fun _ => ?_
  rintro r ⟨d, more, hf, henc, hlen⟩
  refine ⟨d, more, ⟨hf.taken.settle henc.1 hlen,
    ⟨hf.held.passed, hf.held.room, hf.held.length, hf.held.shown, hf.held.unread⟩, ?_⟩,
    (byteOrderMark_spec r.raw).1, henc.2⟩
  have hsize := hf.size
  change r.unread + (r.raw.drop (byteOrderMark r.raw).2.length).length + ReadHandler.left r.handler ≤ N
  rw [List.length_drop]
  omega

/-! ### Characters -/

/-- A character goes over to the buffer. -/
theorem Taken.step {value width : Nat} {m : View} {l u : Nat} (h : Taken S setting d values r)
    (he : r.encoding ≠ .any) (hdec : decode r.encoding r.eof r.raw = .character value width) (hv : isAllowed value = true) :
    Taken S setting d (values ++ [value]) { r with
      raw := r.raw.drop width, rawPassed := r.rawPassed + width, offset := r.offset + width,
      memory := m, last := l, unread := u } := by
  obtain ⟨hscalar, rfl, rest, hraw⟩ := encoded_of_decode hdec
  have hroom := h.room
  have hdrop : r.raw.drop (encoded r.encoding value).length = rest := by rw [hraw, List.drop_left]
  have hlen := congrArg List.length hraw
  rw [List.length_append] at hlen
  rcases h.decided with ⟨hany, -⟩ | ⟨-, hopen, hthree, hd, hoff⟩
  · exact absurd hany he
  · refine ⟨h.source, h.whole, ?_, .inr ⟨he, hopen, hthree, ?_, ?_⟩, fun v hv' => ?_⟩
    · change r.rawPassed + (encoded r.encoding value).length + (r.raw.drop (encoded r.encoding value).length).length ≤ _
      rw [hdrop]
      omega
    · change d = _ ++ ((values ++ [value]).flatMap (encoded r.encoding) ++ r.raw.drop (encoded r.encoding value).length)
      rw [hdrop, List.flatMap_append, List.flatMap_cons, List.flatMap_nil, List.append_nil, List.append_assoc, ← hraw]
      exact hd
    · change r.offset + (encoded r.encoding value).length + (r.raw.drop (encoded r.encoding value).length).length = _
      rw [hdrop]
      omega
    · rcases List.mem_append.mp hv' with hv' | hv'
      · exact h.permitted v hv'
      · rw [List.mem_singleton.mp hv']
        exact ⟨hscalar, hv⟩

theorem encoded_length (encoding : Encoding) (value : Nat) :
    1 ≤ (encoded encoding value).length ∧ (encodeOctets value).length ≤ 2 * (encoded encoding value).length := by
  have hlen := encodeOctets_length value
  by_cases he : encoding = .utf16le ∨ encoding = .utf16be
  · have hunit (unit : Nat) : (unitOctets encoding unit).length = 2 := by
      unfold unitOctets
      split_ifs <;> rfl
    rw [encoded_utf16 he, utf16, utf16Units]
    split_ifs with hv
    · simp only [List.flatMap_cons, List.flatMap_nil, List.append_nil, hunit]
      omega
    · simp only [List.flatMap_cons, List.flatMap_nil, List.append_nil, List.length_append, hunit]
      omega
  · rw [encoded_octets he]
    omega

/-- With room for what can be decoded. -/
def Loading (A : Bool → σ → Prop) (r : Reader σ) : Prop :=
  r.encoding ≠ .any ∧ r.pointer = 0 ∧ r.last + 2 * r.raw.length + 1 ≤ bufferSize ∧ A r.eof r.handler

/-- What is left cannot be decoded before more has been read. -/
def Drained (r : Reader σ) : Prop := r.raw = [] ∨ r.eof = false ∧ r.raw.length < 4

variable {A : Bool → σ → Prop}

theorem decodeCharacter_holds (k : Nat) :
    Holds (Fills S setting done here N fun r => Loading A r ∧ r.raw.length < k + 1) decodeCharacter
      (Round.elim (fun _ => Fills S setting done here N fun r => Loading A r ∧ r.raw.length < k)
        fun _ => Fills S setting done here N fun r => Loading A r ∧ Drained r)
      (Failing S setting done) := by
  unfold decodeCharacter
  refine .getThen fun r hr => .ite (fun hc => .pure fun s hs => ?_) fun hc => ?_
  · rw [hs]
    obtain ⟨d, more, hf, h⟩ := hr
    exact ⟨d, more, hf, h.1, .inl (List.isEmpty_iff.mp hc)⟩
  · have hne : r.raw ≠ [] := fun h => hc (List.isEmpty_iff.mpr h)
    obtain ⟨d, more, hf, ⟨henc, hpointer, hroom, hA⟩, hlen⟩ := hr
    cases hdec : decode r.encoding r.eof r.raw with
    | incomplete =>
      refine .pure fun s hs => ?_
      rw [hs]
      exact ⟨d, more, hf, ⟨henc, hpointer, hroom, hA⟩, .inr (decode_incomplete hne hdec)⟩
    | invalid problem j value =>
      refine .throw fun s hs => ?_
      rw [hs]
      exact hf.failing (.invalid hne henc hdec)
    | character value width =>
      refine .ite (fun hv => .throw fun s hs => ?_) fun hv => ?_
      · rw [hs]
        rw [Bool.not_eq_true'] at hv
        exact hf.failing (.control henc hdec hv)
      · rw [Bool.not_eq_true', Bool.not_eq_false] at hv
        obtain ⟨-, hwidth, rest, hraw⟩ := encoded_of_decode hdec
        obtain ⟨hpos, htwice⟩ := encoded_length r.encoding value
        have hlength := congrArg List.length hraw
        rw [List.length_append] at hlength
        have hsize := hf.size
        have hunread := hf.held.unread_le
        have hfits : r.last + (encodeOctets value).length ≤ bufferSize := by omega
        have hsmall : bufferSize < 2 ^ 64 := by decide
        have hlast := Nat.sub_le r.last r.pointer
        intro s hs
        rw [hs]
        have happend : append (encodeOctets value) { r with
            raw := r.raw.drop width, rawPassed := r.rawPassed + width, offset := r.offset + width } = .ok () { r with
              raw := r.raw.drop width, rawPassed := r.rawPassed + width, offset := r.offset + width,
              memory := store r.memory r.last (encodeOctets value), last := r.last + (encodeOctets value).length,
              unread := wrapping (r.unread + 1) } :=
          append_of_le hfits
        have hrun : (do skipRaw width; append (encodeOctets value); return Round.again () : ReadM σ (Round Unit Unit)) r
            = .ok (.again ()) { r with
              raw := r.raw.drop width, rawPassed := r.rawPassed + width, offset := r.offset + width,
              memory := store r.memory r.last (encodeOctets value), last := r.last + (encodeOctets value).length,
              unread := wrapping (r.unread + 1) } := by
          refine (bind_of_ok (modify_apply _ _)).trans ?_
          exact bind_of_ok happend
        rw [hrun]
        have hpush := hf.held.push hfits
        have hstep := hf.taken.step (m := store r.memory r.last (encodeOctets value))
          (l := r.last + (encodeOctets value).length) (u := wrapping (r.unread + 1)) henc hdec hv
        rw [List.append_assoc, List.append_assoc] at hstep
        rw [List.append_assoc] at hpush
        refine ⟨d, more ++ [value], ⟨hstep, ⟨hpush.passed, hpush.room, hpush.length, hpush.shown, hpush.unread⟩, ?_⟩,
          ⟨henc, hpointer, ?_, hA⟩, ?_⟩
        · change wrapping (r.unread + 1) + (r.raw.drop width).length + ReadHandler.left r.handler ≤ N
          rw [wrapping, Nat.mod_eq_of_lt (by omega), List.length_drop]
          omega
        · change r.last + (encodeOctets value).length + 2 * (r.raw.drop width).length + 1 ≤ bufferSize
          rw [List.length_drop]
          omega
        · change (r.raw.drop width).length < k
          rw [List.length_drop]
          omega

theorem decodeRaw_holds :
    Holds (Fills S setting done here N (Loading A)) decodeRaw
      (fun _ => Fills S setting done here N fun r => Loading A r ∧ Drained r) (Failing S setting done) := by
  unfold decodeRaw
  refine .getThen fun r hr => ?_
  refine (Holds.loopDown (P := fun k _ => Fills S setting done here N fun r => Loading A r ∧ r.raw.length < k) ?_
    (fun k _ => decodeCharacter_holds k) (r.raw.length + 1) ()).weaken (fun s hs => ?_) (fun _ _ h => h) fun _ _ h => h
  · rintro _ s ⟨d, more, -, -, h⟩
    omega
  · rw [hs]
    exact hr.weaken fun h => ⟨h, Nat.lt_succ_self _⟩

end Reader

end LibYaml
