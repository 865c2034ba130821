import LibYaml.Emitter.Starting

/-!
# Output in UTF-16

A flush recodes the buffer behind what an earlier one left in the raw buffer.  When the handler
accepts, both are emptied; when it fails, both stay, and the next flush recodes the same characters
again behind their first copies.  So the chunks are right, and the raw buffer is large enough, as
long as the handler is not called again after it has failed; and no longer than that.
-/

namespace LibYaml

namespace Emitter

open Fallible

/-! ## The length of a character in UTF-16 -/

section Length

theorem codePoint_step (value : Nat) (b : UInt8) {n : Nat} (h : value < n) :
    value * 64 + (b &&& 0x3F).toNat < n * 64 := by
  have : (b &&& 0x3F).toNat < 64 := by
    rw [UInt8.toNat_and]
    exact Nat.lt_succ_of_le Nat.and_le_right
  omega

/-- Up to three bytes make a character of the basic plane. -/
theorem codePoint_lt {c : Bytes} (h : IsCharacter c) (hl : c.length ≤ 3) : codePoint c < 0x10000 := by
  rcases c with _ | ⟨b, bs⟩
  · exact absurd rfl h.1
  have hw : octetWidth b = bs.length + 1 := h.2
  have hmask (m : UInt8) : (b &&& m).toNat ≤ m.toNat := by
    rw [UInt8.toNat_and]
    exact Nat.and_le_right
  simp only [List.length_cons] at hl
  have hc : codePoint (b :: bs) = bs.foldl (fun value octet => value * 64 + (octet &&& 0x3F).toNat)
      (if b &&& 0x80 == 0 then b &&& 0x7F
        else if b &&& 0xE0 == 0xC0 then b &&& 0x1F
        else if b &&& 0xF0 == 0xE0 then b &&& 0x0F
        else if b &&& 0xF8 == 0xF0 then b &&& 0x07
        else 0).toNat := rfl
  rw [hc]
  unfold octetWidth at hw
  by_cases h1 : b &&& 0x80 == 0
  · rw [if_pos h1] at hw
    obtain rfl : bs = [] := List.length_eq_zero_iff.mp (by omega)
    rw [if_pos h1]
    exact Nat.lt_of_le_of_lt (hmask 0x7F) (by decide)
  by_cases h2 : b &&& 0xE0 == 0xC0
  · rw [if_neg h1, if_pos h2] at hw
    obtain ⟨x, rfl⟩ := List.length_eq_one_iff.mp (show bs.length = 1 by omega)
    rw [if_neg h1, if_pos h2]
    have := codePoint_step _ x (Nat.lt_succ_of_le (hmask 0x1F))
    exact Nat.lt_of_lt_of_le this (by decide)
  by_cases h3 : b &&& 0xF0 == 0xE0
  · rw [if_neg h1, if_neg h2, if_pos h3] at hw
    obtain ⟨x, y, rfl⟩ := List.length_eq_two.mp (show bs.length = 2 by omega)
    rw [if_neg h1, if_neg h2, if_pos h3]
    have := codePoint_step _ y (codePoint_step _ x (Nat.lt_succ_of_le (hmask 0x0F)))
    exact Nat.lt_of_lt_of_le this (by decide)
  · rw [if_neg h1, if_neg h2, if_neg h3] at hw
    split at hw <;> omega

theorem length_unitBytes (encoding : Encoding) (high low : Nat) :
    (unitBytes encoding high low).length = 2 := by
  unfold unitBytes
  split <;> rfl

theorem length_recode_le (encoding : Encoding) {c : Bytes} (h : IsCharacter c) :
    (recode encoding c).length ≤ 2 * c.length := by
  have hpos := h.length_pos
  unfold recode
  simp only []
  split
  · rw [length_unitBytes]
    omega
  · have h3 : ¬c.length ≤ 3 := fun hl => absurd (codePoint_lt h hl) ‹_›
    rw [List.length_append, length_unitBytes, length_unitBytes]
    omega

theorem length_recode_pos (encoding : Encoding) (c : Bytes) : 0 < (recode encoding c).length := by
  unfold recode
  simp only []
  split
  · rw [length_unitBytes]
    omega
  · rw [List.length_append, length_unitBytes]
    omega

theorem length_flatMap_recode_le (encoding : Encoding) {cs : List Bytes}
    (h : ∀ c ∈ cs, IsCharacter c) :
    (cs.flatMap (recode encoding)).length ≤ 2 * cs.flatten.length := by
  induction cs with
  | nil => simp
  | cons c cs ih =>
    have hc := length_recode_le encoding (h c List.mem_cons_self)
    have ih := ih fun c hc => h c (List.mem_cons_of_mem _ hc)
    simp only [List.flatMap_cons, List.flatten_cons, List.length_append]
    omega

theorem length_flatMap_recode_mono (encoding : Encoding) {cs cs' : List Bytes} (h : cs'.Sublist cs) :
    (cs'.flatMap (recode encoding)).length ≤ (cs.flatMap (recode encoding)).length := by
  induction h with
  | slnil => exact Nat.le_refl _
  | cons a h ih =>
    rw [List.flatMap_cons, List.length_append]
    omega
  | cons_cons a h ih =>
    rw [List.flatMap_cons, List.flatMap_cons, List.length_append, List.length_append]
    omega

theorem flatMap_recode_ne_nil (encoding : Encoding) {b : Bytes} (hb : b ≠ []) {cs : List Bytes}
    (h : Splits b cs) : cs.flatMap (recode encoding) ≠ [] := by
  rcases cs with _ | ⟨c, cs⟩
  · exact absurd h.1.symm hb
  · intro hn
    have := length_recode_pos encoding c
    rw [List.flatMap_cons, List.append_eq_nil_iff] at hn
    rw [hn.1] at this
    exact absurd this (by simp)

end Length

/-! ## What the handler is given -/

section Chunks

/-- What a handler that failed has left in the raw buffer; the last call comes first. -/
def leftover : List Flush → Bytes
  | [] => []
  | f :: _ => if f.accepted then [] else f.chunk

/-- The chunk holds each of the buffered characters at most once. -/
def AtMostOnce (encoding : Encoding) (f : Flush) : Prop :=
  ∃ cs cs' : List Bytes, Splits f.buffered cs ∧ cs'.Sublist cs ∧ f.chunk = cs'.flatMap (recode encoding)

/-- The chunk lies inside the raw buffer. -/
def InBounds (f : Flush) : Prop := f.chunk.length ≤ outputRawBufferSize

/-- Each chunk is what was left of the one before it and then the buffer. -/
def Recoded (encoding : Encoding) : List Flush → Prop
  | [] => True
  | f :: fs =>
    (f.buffered ≠ [] ∧ f.buffered.length ≤ outputBufferSize ∧
      ∃ cs, Splits f.buffered cs ∧ f.chunk = leftover fs ++ cs.flatMap (recode encoding)) ∧
    Recoded encoding fs

variable {encoding : Encoding}

theorem leftover_eq_nil {fs : List Flush} (h : Recoded encoding fs) :
    leftover fs = [] ↔ ∀ f ∈ fs.head?, f.accepted := by
  rcases fs with _ | ⟨f, fs⟩
  · simp [leftover]
  · obtain ⟨⟨hne, -, cs, hcs, hchunk⟩, -⟩ := h
    have : f.chunk ≠ [] := by
      rw [hchunk]
      exact fun h => flatMap_recode_ne_nil _ hne hcs (List.append_eq_nil_iff.mp h).2
    simp [leftover, this]

theorem leftover_of_atMostOnce {f : Flush} {fs : List Flush} (h : Recoded encoding (f :: fs))
    (hf : AtMostOnce encoding f) : leftover fs = [] := by
  obtain ⟨⟨-, -, cs, hcs, hchunk⟩, -⟩ := h
  obtain ⟨cs₁, cs', hcs₁, hsub, hf⟩ := hf
  have heq : cs₁ = cs :=
    Option.some.inj ((characters_eq_some.mpr hcs₁).symm.trans (characters_eq_some.mpr hcs))
  have hmono := length_flatMap_recode_mono encoding (heq ▸ hsub)
  rw [← hf, hchunk, List.length_append] at hmono
  exact List.length_eq_zero_iff.mp (by omega)

/-- A chunk is right when nothing was left over, and only then. -/
theorem sound_iff {f : Flush} {fs : List Flush} (h : Recoded encoding (f :: fs)) :
    (InBounds f ∧ AtMostOnce encoding f) ↔ leftover fs = [] := by
  constructor
  · intro hf
    exact leftover_of_atMostOnce h hf.2
  · intro hl
    obtain ⟨⟨hne, hlen, cs, hcs, hchunk⟩, -⟩ := h
    rw [hl, List.nil_append] at hchunk
    refine ⟨?_, cs, cs, hcs, List.Sublist.refl _, hchunk⟩
    have := length_flatMap_recode_le encoding hcs.2
    rw [InBounds, hchunk, outputRawBufferSize]
    rw [hcs.1] at this
    omega

/-- Every chunk is right as long as no call of the handler follows one that failed, and only then. -/
theorem all_sound_iff : ∀ {fs : List Flush}, Recoded encoding fs →
    ((∀ f ∈ fs, InBounds f ∧ AtMostOnce encoding f) ↔ ∀ f ∈ fs.tail, f.accepted)
  | [], _ => by simp
  | f :: fs, h => by
    have ih := all_sound_iff h.2
    rw [List.forall_mem_cons, sound_iff h, leftover_eq_nil h.2, ih, List.tail_cons]
    cases fs with
    | nil => simp
    | cons g fs => simp

end Chunks

/-! ## Every run recodes -/

section Runs

variable {σ : Type}

/-- In UTF-16 whole characters are buffered, and the raw buffer holds what was left over. -/
def Recoding (encoding : Encoding) (o : Channel σ) : Prop :=
  o.capacity = some outputBufferSize ∧ (encoding ≠ .utf8 →
    o.buffer.length ≤ outputBufferSize ∧ (∃ cs, Splits o.buffer cs) ∧
      o.rawBuffer = leftover o.flushes ∧ Recoded encoding o.flushes)

variable {encoding : Encoding}

theorem Recoding.append {o : Channel σ} (h : Recoding encoding o) (hr : Roomy o) {c : Bytes}
    {cs : List Bytes} (hc : Splits c cs) (hl : c.length ≤ 4) : Recoding encoding (o.append c) := by
  have := hr _ h.1
  refine ⟨h.1, fun hne => ?_⟩
  obtain ⟨-, ⟨bs, hbs⟩, hraw, hlog⟩ := h.2 hne
  refine ⟨?_, ⟨_, hbs.append hc⟩, hraw, hlog⟩
  rw [Channel.append, List.length_append]
  omega

variable [WriteHandler σ]

/-- Whatever the handler answers to a flush, what it leaves over is in the raw buffer. -/
theorem recoding_flush {s : Emitter σ} (he : s.encoding = encoding)
    (h : Recoding encoding s.channel) : Recoding encoding (final (flush s)).channel := by
  obtain ⟨hcap, h⟩ := h
  unfold flush
  split
  · exact ⟨hcap, h⟩
  rename_i hb
  split
  · rename_i hutf
    rcases WriteHandler.write s.buffer s.handler with ⟨_ | _, handler⟩
    · exact ⟨hcap, fun hne => absurd (he.symm.trans hutf) hne⟩
    · exact ⟨hcap, fun hne => absurd (he.symm.trans hutf) hne⟩
  rename_i hutf
  obtain ⟨hlen, ⟨cs, hcs⟩, hraw, hlog⟩ := h fun hn => hutf (he.trans hn)
  have hchunk : s.rawBuffer ++ cs.flatMap (recode s.encoding)
      = leftover s.flushes ++ cs.flatMap (recode encoding) := by
    rw [he]
    exact congrArg (· ++ _) hraw
  have hchars : characters s.buffer = some cs := characters_eq_some.mpr hcs
  rw [hchars]
  simp only []
  rcases WriteHandler.write (s.rawBuffer ++ cs.flatMap (recode s.encoding)) s.handler
    with ⟨_ | _, handler⟩
  · exact ⟨hcap, fun _ => ⟨hlen, ⟨cs, hcs⟩, rfl, ⟨hb, hlen, cs, hcs, hchunk⟩, hlog⟩⟩
  · exact ⟨hcap, fun _ => ⟨Nat.zero_le _, ⟨[], .nil⟩, rfl, ⟨hb, hlen, cs, hcs, hchunk⟩, hlog⟩⟩

/-- What the channel holds in UTF-16 is an invariant of every run. -/
def recoding : Invariant σ where
  Holds := Recoding
  capacity h := h.1
  append h hr hc hl := h.append hr hc hl
  flush hs _ h := recoding_flush hs h

theorem recoding_perform (settings : Settings) (handler : σ) (cs : List Call) :
    (recoding (σ := σ)).Kept handler (final (perform cs (initial settings handler))) :=
  (recoding (σ := σ)).kept_perform _ (fun _ => ⟨rfl, fun _ => ⟨Nat.zero_le _, ⟨[], .nil⟩, rfl, trivial⟩⟩) _ _

/-- In UTF-16 every chunk lies in the raw buffer and holds each buffered character at most once
exactly when the handler is not called again after it has failed. -/
theorem recoding_sound_iff (settings : Settings) (handler : σ) (cs : List Call) :
    let s := final (perform cs (initial settings handler))
    s.encoding = .utf16le ∨ s.encoding = .utf16be →
      ((∀ f ∈ s.flushes, InBounds f ∧ AtMostOnce s.encoding f) ↔ ∀ f ∈ s.flushes.tail, f.accepted) := by
  intro s he
  have hne : s.encoding ≠ .utf8 := by rcases he with he | he <;> rw [he] <;> decide
  rcases recoding_perform settings handler cs with ⟨-, -, ho⟩ | ⟨-, -, -, h⟩
  · have hlog : s.flushes = [] := congrArg Channel.flushes ho
    simp [hlog]
  · exact all_sound_iff (h hne).2.2.2

/-- The stream's start and a flush, which the handler accepts. -/
theorem recoding_sound_iff_accepted :
    let s := final (perform [.emit (plainEvent (.streamStart .any)), .flush]
      (initial { encoding := .utf16le } ([true] : List Bool)))
    (∀ f ∈ s.flushes, InBounds f ∧ AtMostOnce s.encoding f) ↔ ∀ f ∈ s.flushes.tail, f.accepted :=
  recoding_sound_iff { encoding := .utf16le } [true] _ (.inl rfl)

end Runs

/-! ## A handler that keeps failing -/

section Failing

theorem flush_failing {cs : List Bytes} {s : Emitter (List Bool)} {answers : List Bool}
    (hh : s.handler = false :: answers) (he : s.encoding = .utf16le) (hb : s.buffer ≠ [])
    (hcs : characters s.buffer = some cs) :
    ∃ problem t, flushOutput s = .error (.reported problem) t ∧ t.handler = answers ∧
      t.encoding = .utf16le ∧ t.buffer = s.buffer ∧
      t.rawBuffer = s.rawBuffer ++ cs.flatMap (recode .utf16le) := by
  have hany : ¬s.encoding = .any := by rw [he]; decide
  have hutf : ¬s.encoding = .utf8 := by rw [he]; decide
  have hw (raw : Bytes) : WriteHandler.write raw s.handler = (false, answers) := by
    rw [hh]
    rfl
  rw [flushOutput, if_neg hany, flush, if_neg hb, if_neg hutf, hcs]
  simp only [hw]
  exact ⟨_, _, rfl, rfl, he, rfl, by rw [he]⟩

/-- While the handler fails, each flush adds another copy of the buffer to the raw buffer. -/
theorem rawBuffer_failing (cs : List Bytes) (n : Nat) {s : Emitter (List Bool)}
    (hh : s.handler = List.replicate n false) (he : s.encoding = .utf16le) (hb : s.buffer ≠ [])
    (hcs : characters s.buffer = some cs) :
    let t := final (perform (List.replicate n .flush) s)
    t.encoding = .utf16le ∧ t.rawBuffer.length
      = s.rawBuffer.length + n * (cs.flatMap (recode .utf16le)).length := by
  induction n generalizing s with
  | zero => exact ⟨he, by simp [perform, final]⟩
  | succ n ih =>
    obtain ⟨problem, t, hf, ht, hte, htb, htr⟩ := flush_failing hh he hb hcs
    rw [List.replicate_succ, perform_cons, Call.run, hf]
    simp only [returns, if_true]
    obtain ⟨hu, hr⟩ := ih ht hte (htb ▸ hb) (htb ▸ hcs)
    refine ⟨hu, ?_⟩
    rw [hr, htr, List.length_append, Nat.succ_mul]
    omega

/-- A chunk that does not fit has copies in it. -/
theorem copied_of_overflow {encoding : Encoding} {f : Flush} {fs : List Flush}
    (h : Recoded encoding (f :: fs)) (hf : ¬InBounds f) : ¬AtMostOnce encoding f := fun ha =>
  hf ((sound_iff h).mpr (leftover_of_atMostOnce h ha)).1

/-- A byte order mark that is flushed often enough to a handler that keeps failing: the raw buffer
overflows, and the last chunk holds the mark more than once. -/
theorem failing_unsound (n : Nat) (hn : outputRawBufferSize < n * 2) :
    let s := final (perform (.emit (plainEvent (.streamStart .any)) :: List.replicate n .flush)
      (initial { encoding := .utf16le } (List.replicate n false)))
    s.encoding = .utf16le ∧ ∃ f ∈ s.flushes, ¬InBounds f ∧ ¬AtMostOnce .utf16le f := by
  let s₀ : Emitter (List Bool) :=
    started (initial { encoding := .utf16le } (List.replicate n false)) .any
  have hs : perform (.emit (plainEvent (.streamStart .any)) :: List.replicate n .flush)
      (initial { encoding := .utf16le } (List.replicate n false))
      = perform (List.replicate n .flush) s₀ := by
    rw [perform_cons, Call.run, emit_streamStart rfl rfl rfl rfl]
  have h := recoding_perform { encoding := .utf16le } (List.replicate n false)
    (.emit (plainEvent (.streamStart .any)) :: List.replicate n .flush)
  rw [hs] at h ⊢
  obtain ⟨he, hraw⟩ := rawBuffer_failing [[0xEF, 0xBB, 0xBF]] n (s := s₀) rfl rfl
    (List.cons_ne_nil 0xEF [0xBB, 0xBF]) rfl
  generalize final (perform (List.replicate n .flush) s₀) = s at h he hraw
  have hlong : outputRawBufferSize < s.rawBuffer.length := by
    have h2 : ([[0xEF, 0xBB, 0xBF]].flatMap (recode .utf16le)).length = 2 := by decide
    rw [hraw, h2]
    simpa [s₀, started, initial, streamDefaults] using hn
  rcases h with ⟨-, -, ho⟩ | ⟨-, -, -, h⟩
  · have hnil : s.rawBuffer = [] := congrArg Channel.rawBuffer ho
    rw [hnil] at hlong
    exact absurd hlong (by decide)
  obtain ⟨-, -, hleft, hrec⟩ := h (by rw [he]; decide)
  have hleft : s.rawBuffer = leftover s.flushes := hleft
  have hrec : Recoded s.encoding s.flushes := hrec
  rcases hfs : s.flushes with _ | ⟨f, fs⟩ <;> rw [hfs] at hleft hrec
  · rw [hleft] at hlong
    exact absurd hlong (by decide)
  have hf : ¬InBounds f := by
    intro hf
    have : s.rawBuffer.length ≤ f.chunk.length := by
      rw [hleft, leftover]
      split <;> simp
    exact absurd (Nat.lt_of_lt_of_le hlong this) (Nat.not_lt.mpr hf)
  exact ⟨he, f, by simp [hfs], hf, he ▸ copied_of_overflow hrec hf⟩

theorem recoding_unsound :
    let s := final (perform (.emit (plainEvent (.streamStart .any)) :: List.replicate 16386 .flush)
      (initial { encoding := .utf16le } (List.replicate 16386 false)))
    s.encoding = .utf16le ∧ ∃ f ∈ s.flushes, ¬InBounds f ∧ ¬AtMostOnce .utf16le f :=
  failing_unsound 16386 (by decide)

end Failing

end Emitter

end LibYaml
