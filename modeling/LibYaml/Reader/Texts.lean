import LibYaml.Reader.Standing

/-!
# What an input stands for

Every input is a byte order mark, if it is looked for, and the encodings of characters that may stand in a
text, as far as there are any.  However a handler cuts it to pieces, the reader comes to these characters,
and where it gives up is where the first of them is missing.
-/

namespace LibYaml

open Fallible

namespace Reader

/-! ## Encodings in a row -/

section Encodings

variable {encoding : Encoding} {value other : Nat} {s t rest : Bytes}

theorem encoded_append_inj (hv : isScalarValue value = true) (ho : isScalarValue other = true)
    (h : encoded encoding value ++ s = encoded encoding other ++ t) : value = other ∧ s = t := by
  have hdecode := congrArg (decode encoding true) h
  rw [decode_encoded hv, decode_encoded ho] at hdecode
  obtain ⟨rfl, -⟩ := Decoded.character.inj hdecode
  exact ⟨rfl, List.append_cancel_left h⟩

/-- No character that may stand in a text comes first. -/
def Stuck (encoding : Encoding) (rest : Bytes) : Prop := ∀ value, Permitted value → ¬encoded encoding value <+: rest

/-- One row of characters is the start of the other. -/
theorem row_prefix : ∀ {values others : List Nat}, (∀ value ∈ values, Permitted value) →
    (∀ value ∈ others, Permitted value) → Stuck encoding rest →
    values.flatMap (encoded encoding) ++ s = others.flatMap (encoded encoding) ++ rest →
    ∃ more, others = values ++ more ∧ s = more.flatMap (encoded encoding) ++ rest
  | [], others, _, _, _, h => ⟨others, rfl, h⟩
  | value :: values, [], hv, _, hstuck, h => by
    rw [List.flatMap_cons, List.append_assoc] at h
    exact absurd ⟨_, h⟩ (hstuck value (hv value List.mem_cons_self))
  | value :: values, other :: others, hv, ho, hstuck, h => by
    rw [List.flatMap_cons, List.flatMap_cons, List.append_assoc, List.append_assoc] at h
    obtain ⟨rfl, hrow⟩ := encoded_append_inj (hv value List.mem_cons_self).1 (ho other List.mem_cons_self).1 h
    obtain ⟨more, rfl, hs⟩ := row_prefix (fun v h => hv v (List.mem_cons_of_mem _ h))
      (fun v h => ho v (List.mem_cons_of_mem _ h)) hstuck hrow
    exact ⟨more, rfl, hs⟩

theorem stuck_nil : Stuck encoding [] := by
  intro value hv h
  have hlen := h.length_le
  have := (encoded_length encoding value).1
  rw [List.length_nil] at hlen
  omega

/-- Characters as far as there are any. -/
theorem exists_row (encoding : Encoding) : ∀ b : Bytes, ∃ (values : List Nat) (rest : Bytes),
    (∀ value ∈ values, Permitted value) ∧ b = values.flatMap (encoded encoding) ++ rest ∧ Stuck encoding rest := by
  intro b
  induction hn : b.length using Nat.strong_induction_on generalizing b with
  | _ n ih =>
    by_cases hstuck : Stuck encoding b
    · exact ⟨[], b, nofun, rfl, hstuck⟩
    · simp only [Stuck, not_forall, not_not] at hstuck
      obtain ⟨value, hv, rest, rfl⟩ := hstuck
      have hpos := (encoded_length encoding value).1
      rw [List.length_append] at hn
      obtain ⟨values, rest, hvalues, rfl, hstuck⟩ := ih rest.length (by omega) rest rfl
      refine ⟨value :: values, rest, fun v h => ?_, ?_, hstuck⟩
      · rcases List.mem_cons.mp h with rfl | h
        · exact hv
        · exact hvalues v h
      · rw [List.flatMap_cons, List.append_assoc]

end Encodings

/-! ## The reference -/

/-- The input `b` stands for the characters `values`, up to `rest`, which does not start with one. -/
structure Decodes (setting : Encoding) (b : Bytes) (values : List Nat) (rest : Bytes) : Prop where
  permitted : ∀ value ∈ values, Permitted value
  bytes : b = (opening setting b).2 ++ (values.flatMap (encoded (opening setting b).1) ++ rest)
  stuck : Stuck (opening setting b).1 rest

theorem opening_prefix (setting : Encoding) (b : Bytes) :
    b = (opening setting b).2 ++ b.drop (opening setting b).2.length := by
  unfold opening
  split_ifs
  · exact (byteOrderMark_spec b).2
  · rfl

theorem exists_decodes (setting : Encoding) (b : Bytes) : ∃ values rest, Decodes setting b values rest := by
  obtain ⟨values, rest, hvalues, hb, hstuck⟩ := exists_row (opening setting b).1 (b.drop (opening setting b).2.length)
  exact ⟨values, rest, hvalues, hb ▸ opening_prefix setting b, hstuck⟩

/-! ## Handlers that hand over an input -/

/-- A kind of handlers that hand over an input piece by piece, no piece longer than what there is room for
and none empty before the end: `Gives b h` says that `b` is still to come. -/
structure Feed (σ : Type) [ReadHandler σ] where
  Gives : Bytes → σ → Prop
  read : ∀ {b h n}, Gives b h → 0 < n → ∃ piece rest h', ReadHandler.read n h = (some piece, h') ∧ b = piece ++ rest
    ∧ piece.length ≤ n ∧ (piece = [] → b = []) ∧ Gives rest h'
    ∧ ReadHandler.left h' + piece.length ≤ ReadHandler.left h

variable {σ : Type} [ReadHandler σ]

/-- As long as the handler hands over `b`. -/
def Feed.source (F : Feed σ) (b : Bytes) : Source σ where
  After d h := ∃ rest, b = d ++ rest ∧ F.Gives rest h
  Whole d := d = b
  fails := False
  read := by
    rintro d h n ⟨rest, rfl, hg⟩ hn
    obtain ⟨piece, rest', h', hr, rfl, hlen, hend, hg', hleft⟩ := F.read hg hn
    rw [hr]
    refine ⟨hlen, ⟨rest', (List.append_assoc ..).symm, hg'⟩, hleft, fun hp => ?_⟩
    rw [hend hp, List.append_nil]

/-- The rest of a string is handed over. -/
def strings : Feed StringInput where
  Gives b h := h.rest = b
  read := by
    rintro b ⟨rest⟩ n rfl hn
    refine ⟨rest.take n, rest.drop n, ⟨rest.drop n⟩, rfl, (List.take_append_drop n rest).symm, List.length_take_le _ _,
      fun h => ?_, rfl, ?_⟩
    · rcases List.take_eq_nil_iff.mp h with h | h
      · omega
      · exact h
    · change (rest.drop n).length + (rest.take n).length ≤ rest.length
      rw [List.length_drop, List.length_take]
      omega

/-- Pieces are handed over of which none is empty. -/
def pieces : Feed Pieces where
  Gives b h := h.pieces.flatten = b ∧ ∀ piece ∈ h.pieces, piece ≠ []
  read := by
    rintro b ⟨pieces⟩ n ⟨rfl, hne⟩ hn
    cases pieces with
    | nil => exact ⟨[], [], ⟨[]⟩, rfl, rfl, Nat.zero_le _, fun _ => rfl, ⟨rfl, nofun⟩, le_rfl⟩
    | cons piece pieces =>
      have hpiece := hne piece List.mem_cons_self
      have hrest : ∀ p ∈ pieces, p ≠ [] := fun p hp => hne p (List.mem_cons_of_mem _ hp)
      by_cases hlen : piece.length ≤ n
      · refine ⟨piece, pieces.flatten, ⟨pieces⟩, if_pos hlen, rfl, hlen, fun h => absurd h hpiece, ⟨rfl, hrest⟩, ?_⟩
        change pieces.flatten.length + piece.length ≤ (piece ++ pieces.flatten).length
        rw [List.length_append]
        omega
      · refine ⟨piece.take n, piece.drop n ++ pieces.flatten, ⟨piece.drop n :: pieces⟩, if_neg hlen, ?_,
          List.length_take_le _ _, fun h => ?_, ⟨rfl, ?_⟩, ?_⟩
        · rw [← List.append_assoc, List.take_append_drop]
          rfl
        · have hzero := congrArg List.length h
          rw [List.length_take, List.length_nil] at hzero
          omega
        · refine List.forall_mem_cons.mpr ⟨fun h => ?_, hrest⟩
          have hzero := congrArg List.length h
          rw [List.length_drop, List.length_nil] at hzero
          omega
        · change (piece.drop n ++ pieces.flatten).length + (piece.take n).length ≤ (piece ++ pieces.flatten).length
          rw [List.length_append, List.length_append, List.length_drop, List.length_take]
          omega

variable {F : Feed σ} {setting : Encoding} {b d rest : Bytes} {values done here : List Nat} {n k : Nat} {r : Reader σ}

/-- What has been decoded is the start of what the input stands for. -/
theorem Taken.remaining (h : Taken (F.source b) setting d done r) (he : r.encoding ≠ .any) (hb : Decodes setting b values rest) :
    r.encoding = (opening setting b).1 ∧ ∃ more tail, values = done ++ more
      ∧ r.raw ++ tail = more.flatMap (encoded r.encoding) ++ rest ∧ b = d ++ tail
      ∧ r.offset = (opening setting b).2.length + (done.flatMap (encoded r.encoding)).length := by
  obtain ⟨tail, hd, -⟩ := h.source
  rcases h.decided with ⟨hany, -⟩ | ⟨-, henc, hthree, hrow, hoff⟩
  · exact absurd hany he
  · have hopening : opening setting b = opening setting d := by
      rcases eq_or_ne setting .any with hs | hs
      · rcases hthree hs with h3 | heof
        · rw [hd]
          exact opening_append fun _ => h3
        · have hwhole : d = b := h.whole heof
          rw [hwhole]
      · rw [opening, opening, if_neg hs, if_neg hs]
    have hbytes := hb.bytes
    have hstuck := hb.stuck
    rw [hopening, henc] at hbytes hstuck
    rw [hopening]
    have hsame : (opening setting d).2 ++ (done.flatMap (encoded r.encoding) ++ (r.raw ++ tail))
        = (opening setting d).2 ++ (values.flatMap (encoded r.encoding) ++ rest) := by
      rw [← hbytes, hd, ← List.append_assoc (done.flatMap _), ← List.append_assoc (opening setting d).2, ← hrow]
    obtain ⟨more, hmore, hraw⟩ := row_prefix h.permitted hb.permitted hstuck (List.append_cancel_left hsame)
    refine ⟨henc.symm, more, tail, hmore, hraw, hd, ?_⟩
    have hlen := congrArg List.length hrow
    rw [List.length_append, List.length_append] at hlen
    omega

/-- At the end everything has been decoded. -/
theorem Rests.whole (h : Rests (F.source b) setting d done here r) (he : r.eof = true) (hb : Decodes setting b values rest) :
    values = done ++ here ∧ rest = [] ∧ b.length < maxFileSize := by
  obtain ⟨hraw, henc, hoff⟩ := h.ended he
  obtain ⟨-, more, tail, hvalues, hrow, hd, -⟩ := h.taken.remaining henc hb
  have hwhole : d = b := h.taken.whole he
  have htail : tail = [] := by
    rw [hwhole] at hd
    exact List.append_right_eq_self.mp hd.symm
  have hlen : r.offset + r.raw.length = d.length := by
    rcases h.taken.decided with ⟨hany, -⟩ | ⟨-, -, -, -, hlen⟩
    · exact absurd hany henc
    · exact hlen
  rw [hraw, htail] at hrow
  have hempty := List.append_eq_nil_iff.mp hrow.symm
  have hmore : more = [] := by
    rcases more with _ | ⟨value, more⟩
    · rfl
    · have := (encoded_length r.encoding value).1
      have hnil := hempty.1
      rw [List.flatMap_cons, List.append_eq_nil_iff] at hnil
      rw [hnil.1] at this
      exact absurd this (by decide)
  rw [hmore, List.append_nil] at hvalues
  refine ⟨hvalues, hempty.2, ?_⟩
  rw [hraw, hwhole, List.length_nil] at hlen
  omega

/-! ## Where reading stops -/

/-- How far into a character the byte or unit lies that cannot follow what stands before it: 0 if there is
none. -/
def trailing (encoding : Encoding) (rest : Bytes) : Nat :=
  if encoding = .utf16le ∨ encoding = .utf16be then
    if 4 ≤ rest.length ∧ isHighSurrogate (unitAt encoding rest 0) = true ∧ isLowSurrogate (unitAt encoding rest 2) = false
    then 2 else 0
  else
    match rest with
    | [] => 0
    | b :: bs =>
      if octetWidth b ≤ bs.length + 1 ∧ ((bs.take (octetWidth b - 1)).any (· &&& 0xC0 != 0x80)) = true then
        (bs.take (octetWidth b - 1)).findIdx (· &&& 0xC0 != 0x80) + 1
      else 0

theorem trailingBits_error : ∀ {bs : Bytes} {value k j : Nat} {octet : UInt8}, trailingBits value k bs = .error (j, octet) →
    bs.any (· &&& 0xC0 != 0x80) = true ∧ j = k + bs.findIdx (· &&& 0xC0 != 0x80)
  | [], _, _, _, _, h => by cases h
  | b :: bs, value, k, j, octet, h => by
    rw [trailingBits] at h
    rw [List.any_cons, List.findIdx_cons]
    split_ifs at h with hb
    · obtain ⟨hany, rfl⟩ := trailingBits_error h
      have hb' : (b &&& 0xC0 != 0x80) = false := by rw [bne, hb]; rfl
      rw [hb', hany]
      exact ⟨rfl, by simp only [cond_false]; omega⟩
    · rw [Bool.not_eq_true] at hb
      cases h
      have hb' : (b &&& 0xC0 != 0x80) = true := by rw [bne, hb]; rfl
      rw [hb']
      exact ⟨rfl, rfl⟩

theorem trailingBits_ok : ∀ {bs : Bytes} {value k result : Nat}, trailingBits value k bs = .ok result →
    bs.any (· &&& 0xC0 != 0x80) = false
  | [], _, _, _, _ => rfl
  | b :: bs, value, k, result, h => by
    rw [trailingBits] at h
    split_ifs at h with hb
    rw [List.any_cons, trailingBits_ok h, bne, hb]
    rfl

theorem trailing_utf16 {encoding : Encoding} (he : encoding = .utf16le ∨ encoding = .utf16be) {problem : String}
    {j : Nat} {value : Int} (h : decodeUtf16 encoding true rest = .invalid problem j value) :
    trailing encoding rest = j := by
  unfold trailing
  rw [if_pos he]
  unfold decodeUtf16 at h
  simp only [] at h
  split_ifs at h with h1 h2 h3 h4 h5
  · cases h
    exact if_neg (by omega)
  · cases h
    refine if_neg fun hc => ?_
    have hhigh := hc.2.1
    rw [isHighSurrogate, decide_eq_true_iff] at hhigh
    rw [isLowSurrogate, decide_eq_true_iff, hhigh] at h2
    exact absurd h2 (by decide)
  · cases h
    exact if_neg (by omega)
  · cases h
    rw [Bool.not_eq_true'] at h5
    exact if_pos ⟨by omega, h3, h5⟩

theorem trailing_utf8 {encoding : Encoding} (he : ¬(encoding = .utf16le ∨ encoding = .utf16be)) {problem : String}
    {j : Nat} {value : Int} (h : decodeUtf8 true rest = .invalid problem j value) : trailing encoding rest = j := by
  unfold trailing
  rw [if_neg he]
  cases rest with
  | nil => cases h
  | cons b bs =>
    rw [decodeUtf8] at h
    change (if octetWidth b ≤ bs.length + 1 ∧ ((bs.take (octetWidth b - 1)).any (· &&& 0xC0 != 0x80)) = true then
        (bs.take (octetWidth b - 1)).findIdx (· &&& 0xC0 != 0x80) + 1 else 0) = j
    split_ifs at h with h1 h2
    · cases h
      rw [h1]
      exact if_neg fun hc => Bool.false_ne_true hc.2
    · cases h
      exact if_neg (by omega)
    · cases hbits : trailingBits (leadBits b).toNat 1 (bs.take (octetWidth b - 1)) with
      | error e =>
        obtain ⟨i, octet⟩ := e
        rw [hbits] at h
        cases h
        obtain ⟨hany, hj⟩ := trailingBits_error hbits
        rw [if_pos ⟨by omega, hany⟩, hj, Nat.add_comm]
      | ok result =>
        rw [hbits] at h
        rw [trailingBits_ok hbits, if_neg fun hc => Bool.false_ne_true hc.2]
        simp only [] at h
        split_ifs at h
        · cases h
          rfl
        · cases h
          rfl

/-- Where the whole of the input says that something is wrong. -/
theorem trailing_of_invalid {encoding : Encoding} {problem : String} {j : Nat} {value : Int}
    (h : decode encoding true rest = .invalid problem j value) : trailing encoding rest = j := by
  unfold decode at h
  split_ifs at h with he
  · exact trailing_utf16 he h
  · exact trailing_utf8 he h

/-- A character that may not stand in a text is wrong as a whole. -/
theorem trailing_of_character {encoding : Encoding} {value width : Nat}
    (h : decode encoding true rest = .character value width) : trailing encoding rest = 0 := by
  unfold decode at h
  unfold trailing
  split_ifs at h ⊢ with he hc
  · unfold decodeUtf16 at h
    simp only [] at h
    obtain ⟨hlen, hhigh, hlow⟩ := hc
    rw [if_neg (by omega), hhigh, if_pos rfl, if_neg (c := rest.length < 4) (by omega), hlow] at h
    split_ifs at h with hfirst hsecond
    exact absurd rfl hsecond
  · rfl
  · cases rest with
    | nil => rfl
    | cons b bs =>
      rw [decodeUtf8] at h
      refine if_neg fun hc => ?_
      split_ifs at h with h1 h2
      · exact absurd hc.1 (by omega)
      · cases hbits : trailingBits (leadBits b).toNat 1 (bs.take (octetWidth b - 1)) with
        | error e =>
          rw [hbits] at h
          cases h
        | ok result =>
          rw [trailingBits_ok hbits] at hc
          exact Bool.false_ne_true hc.2

/-- Nothing but what is still to come decides what comes of it. -/
theorem decode_tail {encoding : Encoding} {eof : Bool} {raw tail : Bytes} (hne : raw ≠ [])
    (h : decode encoding eof raw ≠ .incomplete) (htail : eof = true → tail = []) :
    decode encoding true (raw ++ tail) = decode encoding eof raw := by
  cases eof with
  | true => rw [htail rfl, List.append_nil]
  | false => exact decode_more hne h

/-- The reader gives up where the first character is missing. -/
theorem Refused.stuck {problem : Problem} (h : Refused (F.source b) setting d done r problem)
    (ht : Taken (F.source b) setting d done r) (hb : Decodes setting b values rest) (hlen : b.length < maxFileSize) :
    values = done ∧ rest ≠ [] ∧ ∃ text value, problem = .reader text ((opening setting b).2.length
      + (values.flatMap (encoded (opening setting b).1)).length + trailing (opening setting b).1 rest) value := by
  have hat (he : r.encoding ≠ .any) (hne : r.raw ≠ []) (hdec : decode r.encoding r.eof r.raw ≠ .incomplete) :
      ∃ more tail, values = done ++ more ∧ r.raw ++ tail = more.flatMap (encoded r.encoding) ++ rest
        ∧ r.encoding = (opening setting b).1
        ∧ r.offset = (opening setting b).2.length + (done.flatMap (encoded r.encoding)).length
        ∧ decode r.encoding true (r.raw ++ tail) = decode r.encoding r.eof r.raw := by
    obtain ⟨henc, more, tail, hvalues, hrow, hd, hoff⟩ := ht.remaining he hb
    refine ⟨more, tail, hvalues, hrow, henc, hoff, decode_tail hne hdec fun heof => ?_⟩
    have hwhole : d = b := ht.whole heof
    rw [hwhole] at hd
    exact List.append_right_eq_self.mp hd.symm
  have hnext {more : List Nat} (hvalues : values = done ++ more) {tail : Bytes}
      (hrow : r.raw ++ tail = more.flatMap (encoded r.encoding) ++ rest)
      (hno : ∀ value width, Permitted value → decode r.encoding true (r.raw ++ tail) ≠ .character value width) :
      more = [] := by
    rcases more with _ | ⟨value, more⟩
    · rfl
    · have hv := hb.permitted value (by rw [hvalues]; simp)
      refine absurd ?_ (hno value (encoded r.encoding value).length hv)
      rw [hrow, List.flatMap_cons, List.append_assoc]
      exact decode_encoded hv.1
  cases h with
  | handler h => exact absurd h id
  | long h =>
    obtain ⟨tail, hd, -⟩ := ht.source
    have hoff : r.offset + r.raw.length = d.length ∨ r.offset = 0 := by
      rcases ht.decided with ⟨-, -, -, -, hoff⟩ | ⟨-, -, -, -, hoff⟩
      · exact .inr hoff
      · exact .inl hoff
    have hle := congrArg List.length hd
    rw [List.length_append] at hle
    have : 0 < maxFileSize := by decide
    omega
  | @invalid text k value hne he hdec =>
    obtain ⟨more, tail, hvalues, hrow, henc, hoff, hsame⟩ := hat he hne (by rw [hdec]; exact Decoded.noConfusion)
    rw [hdec] at hsame
    have hmore := hnext hvalues hrow fun v w _ h => by rw [hsame] at h; cases h
    rw [hmore, List.append_nil] at hvalues
    rw [hmore, List.flatMap_nil, List.nil_append] at hrow
    refine ⟨hvalues, fun h => ?_, text, value, ?_⟩
    · rw [h] at hrow
      exact hne (List.append_eq_nil_iff.mp hrow).1
    · rw [hrow] at hsame
      rw [← henc, trailing_of_invalid hsame, hvalues, hoff]
  | @control value width he hdec hv =>
    obtain ⟨hscalar, -, rest', hraw⟩ := encoded_of_decode hdec
    have hne : r.raw ≠ [] := by
      intro h
      have := (encoded_length r.encoding value).1
      rw [h] at hraw
      rw [(List.append_eq_nil_iff.mp hraw.symm).1] at this
      exact absurd this (by decide)
    obtain ⟨more, tail, hvalues, hrow, henc, hoff, hsame⟩ := hat he hne (by rw [hdec]; exact Decoded.noConfusion)
    rw [hdec] at hsame
    have hmore := hnext hvalues hrow fun v w hp h => by
      rw [hsame] at h
      obtain ⟨rfl, -⟩ := Decoded.character.inj h
      exact Bool.false_ne_true (hv.symm.trans hp.2)
    rw [hmore, List.append_nil] at hvalues
    rw [hmore, List.flatMap_nil, List.nil_append] at hrow
    refine ⟨hvalues, fun h => ?_, "control characters are not allowed", value, ?_⟩
    · rw [h] at hrow
      exact hne (List.append_eq_nil_iff.mp hrow).1
    · rw [hrow] at hsame
      rw [← henc, trailing_of_character hsame, hvalues, hoff, Nat.add_zero]

end Reader

end LibYaml
