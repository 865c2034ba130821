import LibYaml.Reader.Filling

/-!
# A call of the reader

With at most 4096 characters asked for there is always room in the buffer.  A call comes to an end, with
so many characters in the buffer or with the NUL behind the last one, or with an error that the input, its
length or the handler gives rise to.
-/

namespace LibYaml

open Fallible

namespace Reader

variable {σ : Type} [ReadHandler σ] {S : Source σ} {setting : Encoding} {d : Bytes} {done here more : List Nat}
  {n k N : Nat} {r : Reader σ}

/-- Before a round of the loop that is the last but `k`, or earlier. -/
def Pending (n k : Nat) (first : Bool) (r : Reader σ) : Prop :=
  (r.encoding ≠ .any ∧ r.pointer = 0) ∧
    if first then r.unread < n ∧ ReadHandler.left r.handler + 3 ≤ k
    else r.eof = false ∧ r.raw.length < 4 ∧ ReadHandler.left r.handler + 2 ≤ k

/-- Behind a call. -/
def Filled (S : Source σ) (setting : Encoding) (done here : List Nat) (n N : Nat) (r : Reader σ) : Prop :=
  ∃ d more, Rests S setting d done (here ++ more) r ∧ (n ≤ r.unread ∨ r.eof = true) ∧ Input.size r ≤ N

/-- How much there is in the buffer. -/
theorem Filling.last_le (h : Filling S setting done here N d more r) (hpointer : r.pointer = 0) :
    r.last ≤ 4 * r.unread := by
  have hlen := h.held.length
  have hunread := h.held.unread
  have := (flatMap_encodeOctets_length (here ++ more)).2
  simp only [Bool.false_eq_true, if_false, List.append_nil, Nat.add_zero] at hlen hunread
  omega

theorem updateRawBuffer_of_eof (h : r.eof = true) : updateRawBuffer r = .ok () r := by
  unfold updateRawBuffer
  rw [bind_of_ok (get_apply r), if_pos (by rw [h, Bool.or_true])]
  rfl

/-- What is read at the start of a round. -/
theorem refill_holds {first : Bool} (hn : n ≤ 4096) (h : Fills S setting done here N (Pending n (k + 1) first) r)
    (hlt : r.unread < n) :
    Holds (· = r) (onlyIf (!first || r.raw.isEmpty) updateRawBuffer)
      (fun _ => Fills S setting done here N (Loading fun eof handler => eof = true ∨ ReadHandler.left handler + 2 ≤ k))
      (Failing S setting done) := by
  obtain ⟨d, more, hf, ⟨henc, hpointer⟩, hp⟩ := h
  have hlast := hf.last_le hpointer
  have hroom := hf.taken.room
  have hspace {m : Nat} (hm : m ≤ rawBufferSize) : r.last + 2 * m + 1 ≤ bufferSize := by
    unfold rawBufferSize at hm
    unfold bufferSize rawBufferSize
    omega
  refine .ite (fun hc => ?_) fun hc => .pure fun s hs => ?_
  · cases heof : r.eof with
    | true =>
      intro s hs
      rw [hs, updateRawBuffer_of_eof heof]
      exact ⟨d, more, hf, henc, hpointer, hspace (by omega), .inl heof⟩
    | false =>
      have hraw : r.raw.length < 4 := by
        cases first with
        | true =>
          rw [List.isEmpty_iff.mp hc]
          decide
        | false => exact hp.2.1
      refine (readMore (P := (· = r)) (fun s hs => ?_) fun s handler piece hs hfit hl => ?_).weaken (fun s hs => ?_)
        (fun _ _ h => h) fun _ _ h => h
      · rw [hs]
        exact ⟨heof, hraw.trans (by decide)⟩
      · rw [hs] at hfit hl ⊢
        refine ⟨henc, hpointer, hspace hfit, ?_⟩
        cases first with
        | true =>
          have := hp.2
          exact .inr (by change ReadHandler.left handler + 2 ≤ k; omega)
        | false =>
          have := hp.2.2
          cases piece with
          | nil => exact .inl rfl
          | cons b piece =>
            rw [List.length_cons] at hl
            exact .inr (by change ReadHandler.left handler + 2 ≤ k; omega)
      · rw [hs]
        exact ⟨d, more, hf, rfl⟩
  · rw [hs]
    rw [Bool.not_eq_true, Bool.or_eq_false_iff, Bool.not_eq_false'] at hc
    obtain ⟨rfl, -⟩ := hc
    have := hp.2
    exact ⟨d, more, hf, henc, hpointer, hspace (by omega), .inr (by omega)⟩

/-- The call is over. -/
theorem Filling.rests (h : Filling S setting done here N d more r) (heof : r.eof = false) :
    Rests S setting d done (here ++ more) r :=
  ⟨h.taken, heof ▸ h.held, fun he => absurd (heof.symm.trans he) Bool.false_ne_true⟩

theorem fill_holds (hn : n ≤ 4096) (k : Nat) (first : Bool) :
    Holds (Fills S setting done here N (Pending n (k + 1) first)) (fill n first)
      (Round.elim (fun first => Fills S setting done here N (Pending n k first))
        fun _ => Filled S setting done here n (N + 1))
      (Failing S setting done) := by
  unfold fill
  refine .getThen fun r hr => .ite (fun hle => ?_) fun hlt => ?_
  · obtain ⟨d, more, hf, -, hp⟩ := hr
    cases first with
    | true => exact absurd hp.1 (Nat.not_lt.mpr hle)
    | false =>
      intro s hs
      rw [hs]
      rcases Nat.lt_or_ge r.offset maxFileSize with hoff | hoff
      · rw [bind_of_ok (checkLength_of_lt hoff)]
        refine ⟨d, more, hf.rests hp.1, .inl hle, ?_⟩
        have hsize := hf.size
        change r.unread + r.raw.length + ReadHandler.left r.handler + r.unended ≤ N + 1
        unfold unended
        split_ifs <;> omega
      · rw [bind_of_error (checkLength_of_le hoff)]
        exact hf.failing (.long hoff)
  · refine (refill_holds hn hr (Nat.lt_of_not_le hlt)).bind fun _ => decodeRaw_holds.bind fun _ =>
      .getThen fun r hr => .ite (fun heof => ?_) fun heof => .pure fun s hs => ?_
    · obtain ⟨d, more, hf, ⟨henc, hpointer, hroom, -⟩, hdrained⟩ := hr
      have hraw : r.raw = [] := hdrained.resolve_right fun h => Bool.false_ne_true (h.1.symm.trans heof)
      have hfits : r.last + 1 ≤ bufferSize := by omega
      have hsize := hf.size
      have hunread := hf.held.unread_le
      have hsmall : bufferSize < 2 ^ 64 := by decide
      have hlast := Nat.sub_le r.last r.pointer
      have hclose := hf.held.close hfits
      have htaken : Taken S setting d (done ++ (here ++ more)) (closed r) :=
        ⟨hf.taken.source, hf.taken.whole, hf.taken.room, hf.taken.decided, hf.taken.permitted⟩
      intro s hs
      have happend : append [0] r = .ok () (closed r) := append_of_le hfits
      rw [hs, bind_of_ok happend]
      rcases Nat.lt_or_ge r.offset maxFileSize with hoff | hoff
      · rw [bind_of_ok (checkLength_of_lt (r := closed r) hoff)]
        refine ⟨d, more, ⟨htaken, ?_, fun _ => ⟨hraw, henc, hoff⟩⟩, .inr heof, ?_⟩
        · change Held (here ++ more) r.eof _
          rw [heof]
          exact hclose
        · change wrapping (r.unread + 1) + r.raw.length + ReadHandler.left r.handler
            + (if r.eof && r.raw.isEmpty then 0 else 1) ≤ N + 1
          rw [wrapping, Nat.mod_eq_of_lt (by omega), heof, hraw]
          rw [hraw] at hsize
          have hended : (if (true && ([] : Bytes).isEmpty) = true then 0 else 1) = 0 := rfl
          rw [hended]
          omega
      · rw [bind_of_error (checkLength_of_le (r := closed r) hoff)]
        exact ⟨_, d, here ++ more, true, rfl, htaken, hclose, fun _ => ⟨heof, hraw⟩, .long hoff⟩
    · obtain ⟨d, more, hf, ⟨henc, hpointer, hroom, hleft⟩, hdrained⟩ := hr
      rw [Bool.not_eq_true] at heof
      rw [hs]
      refine ⟨d, more, hf, ⟨henc, hpointer⟩, heof, ?_, hleft.resolve_left fun h => Bool.false_ne_true (heof.symm.trans h)⟩
      rcases hdrained with h | h
      · rw [h]
        decide
      · exact h.2

/-- A call with which more has to be read. -/
theorem load_holds (hn : n ≤ 4096) (h : Filling S setting done here N d more r) (hlt : r.unread < n) :
    Holds (· = r) (do
        onlyIf (r.encoding = .any) determineEncoding
        modify moved
        let r ← get
        loop .outOfFuel (fill n) (ReadHandler.left r.handler + 3) true : ReadM σ Unit)
      (fun _ => Filled S setting done here n (N + 1)) (Failing S setting done) := by
  have hsettled : Holds (· = r) (onlyIf (r.encoding = .any) determineEncoding)
      (fun _ => Fills S setting done here N fun r => r.encoding ≠ .any ∧ r.unread < n) (Failing S setting done) := by
    refine .ite (fun henc => ?_) fun henc => .pure fun s hs => ?_
    · refine determineEncoding_holds.weaken (fun s hs => ?_) (fun _ _ h => h) fun _ _ h => h
      rw [hs]
      exact ⟨d, more, h, of_decide_eq_true henc, hlt⟩
    · rw [hs]
      exact ⟨d, more, h, fun h => henc (decide_eq_true h), hlt⟩
  refine hsettled.bind fun _ => .bind (Q := fun _ => Fills S setting done here N fun r =>
    (r.encoding ≠ .any ∧ r.pointer = 0) ∧ r.unread < n) (.modify fun s hs => ?_) fun _ => .getThen fun s hs => ?_
  · obtain ⟨d, more, hf, henc, hlt⟩ := hs
    have hkept : (moved s).handler = s.handler ∧ (moved s).eof = s.eof ∧ (moved s).encoding = s.encoding
        ∧ (moved s).offset = s.offset ∧ (moved s).raw = s.raw ∧ (moved s).rawPassed = s.rawPassed
        ∧ (moved s).unread = s.unread := by
      unfold moved
      split_ifs <;> exact ⟨rfl, rfl, rfl, rfl, rfl, rfl, rfl⟩
    obtain ⟨hhandler, heof, hencoding, hoffset, hraw, hpassed, hunread⟩ := hkept
    obtain ⟨hheld, hpointer⟩ := hf.held.moved
    refine ⟨d, more, ⟨⟨?_, ?_, ?_, ?_, hf.taken.permitted⟩, hheld, ?_⟩, ⟨?_, hpointer⟩, ?_⟩
    · rw [hhandler]
      exact hf.taken.source
    · rw [heof]
      exact hf.taken.whole
    · rw [hraw, hpassed]
      exact hf.taken.room
    · rw [hraw, heof, hencoding, hoffset]
      exact hf.taken.decided
    · rw [hraw, hhandler, hunread]
      exact hf.size
    · rw [hencoding]
      exact henc
    · rw [hunread]
      exact hlt
  · refine (Holds.loopDown (P := fun k first => Fills S setting done here N (Pending n k first)) ?_
      (fun k first => fill_holds hn k first) (ReadHandler.left s.handler + 3) true).weaken (fun t ht => ?_) (fun _ _ h => h)
      fun _ _ h => h
    · rintro first t ⟨d, more, -, -, hp⟩
      cases first with
      | true =>
        have := hp.2
        omega
      | false =>
        have := hp.2.2
        omega
    · rw [ht]
      obtain ⟨d, more, hf, hp⟩ := hs
      exact ⟨d, more, hf, hp.1, hp.2, le_rfl⟩

theorem updateBuffer_holds (hn : n ≤ 4096) (h : Rests S setting d done here r) :
    Holds (· = r) (updateBuffer n) (fun _ => Filled S setting done here n (Input.size r)) (Failing S setting done) := by
  have hnow (hend : n ≤ r.unread ∨ r.eof = true) : Filled S setting done here n (Input.size r) r :=
    ⟨d, [], by rwa [List.append_nil], hend, le_rfl⟩
  intro s hs
  rw [hs]
  unfold updateBuffer
  rcases Nat.lt_or_ge r.offset maxFileSize with hoff | hoff
  · rw [bind_of_ok (checkLength_of_lt hoff), bind_of_ok (get_apply r)]
    by_cases heof : (r.eof && r.raw.isEmpty) = true
    · rw [if_pos heof]
      rw [Bool.and_eq_true] at heof
      exact hnow (.inr heof.1)
    · rw [if_neg heof]
      by_cases hle : n ≤ r.unread
      · rw [if_pos hle]
        exact hnow (.inl hle)
      · rw [if_neg hle]
        have hopen : r.eof = false := by
          by_contra he
          rw [Bool.not_eq_false] at he
          rw [he, (h.ended he).1] at heof
          exact heof rfl
        have hsize : Input.size r = r.unread + r.raw.length + ReadHandler.left r.handler + 1 := by
          change r.unread + r.raw.length + ReadHandler.left r.handler + r.unended = _
          rw [unended, if_neg heof]
        rw [hsize]
        have hfilling : Filling S setting done here (r.unread + r.raw.length + ReadHandler.left r.handler) d [] r := by
          refine ⟨?_, ?_, le_rfl⟩
          · rw [List.append_nil]
            exact h.taken
          · rw [List.append_nil, ← hopen]
            exact h.held
        exact load_holds hn hfilling (Nat.lt_of_not_le hle) r rfl
  · rw [bind_of_error (checkLength_of_le hoff)]
    exact ⟨_, d, here, r.eof, rfl, h.taken, h.held, fun he => ⟨he, (h.ended he).1⟩, .long hoff⟩

theorem cache_holds (hn : n ≤ 4096) (h : Rests S setting d done here r) :
    Holds (· = r) (Reader.cache n) (fun _ => Filled S setting done here n (Input.size r)) (Failing S setting done) := by
  unfold Reader.cache
  refine .getThen fun s hs => ?_
  rw [hs]
  refine .ite (fun hle => .pure fun t ht => ?_) fun _ => updateBuffer_holds hn h
  rw [ht]
  exact ⟨d, [], by rwa [List.append_nil], .inl hle, le_rfl⟩

/-- At the end of the input nothing more is read. -/
theorem cache_of_eof (h : Rests S setting d done here r) (he : r.eof = true) : Reader.cache n r = .ok () r := by
  obtain ⟨hraw, -, hoff⟩ := h.ended he
  unfold Reader.cache
  rw [bind_of_ok (get_apply r)]
  split_ifs
  · rfl
  · unfold updateBuffer
    rw [bind_of_ok (checkLength_of_lt hoff), bind_of_ok (get_apply r), if_pos (by rw [he, hraw]; rfl)]
    rfl

end Reader

end LibYaml
