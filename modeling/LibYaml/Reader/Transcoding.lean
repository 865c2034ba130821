import LibYaml.Reader.Delivering
import LibYaml.Reader.Watching

/-!
# What comes to the buffer

Call after call, what has been passed and what stands in the buffer are the characters that the input
stands for, as far as they have been read, in UTF-8; behind the last of them there is one NUL.  Reading
fails where the input stops being a text, and nowhere else as long as it is not too long.
-/

namespace LibYaml

open Fallible

namespace Reader

variable {σ : Type} [ReadHandler σ]

/-- Calls of `yaml_parser_update_buffer` that ask for at most 4096 characters, between which the pointer
passes characters that are there; `passed` are their bytes. -/
inductive Runs (start : Reader σ) : Bytes → Reader σ → Prop
  | start : Runs start [] start
  | update {passed : Bytes} {r r' : Reader σ} {n : Nat} (h : Runs start passed r) (hn : n ≤ 4096)
      (hr : updateBuffer n r = .ok () r') : Runs start passed r'
  | pass {passed : Bytes} {r : Reader σ} (h : Runs start passed r) (hu : 0 < r.unread)
      (hz : isZ (Input.view r) = false) :
      Runs start (passed ++ character (Input.view r)) (Input.advance (width (Input.view r)) r)

/-- A call of a run fails. -/
def Breaks (start : Reader σ) (e : Fault) : Prop :=
  ∃ passed r n r', Runs start passed r ∧ n ≤ 4096 ∧ updateBuffer n r = .error e r'

section Runs

variable {S : Source σ} {F : Feed σ} {setting : Encoding} {memory : View} {handler : σ} {b d passed rest : Bytes}
  {values done here : List Nat} {n k : Nat} {r r' : Reader σ} {e : Fault}

omit [ReadHandler σ] in
theorem view_of_lt (h : k < b.length) : view b k = b[k] := by
  rw [view, List.getD_eq_getElem?_getD, List.getElem?_eq_getElem h]
  rfl

/-- What the pointer passes is the character it stands at. -/
theorem Rests.character {value : Nat} (h : Rests S setting d done (value :: here) r) :
    character (Input.view r) = encodeOctets value := by
  have hvalue := (h.permitted value List.mem_cons_self).1
  have hshown := h.held.shown
  rw [List.flatMap_cons, List.append_assoc] at hshown
  have hwidth : width (Input.view r) = (encodeOctets value).length := (hshown.first hvalue (b := [])).2.2.2
  unfold LibYaml.character
  rw [hwidth]
  refine List.ext_getElem (by simp) fun j hj hlt => ?_
  rw [List.getElem_map, List.getElem_range]
  have hat : Input.view r j = view (encodeOctets value ++ _) j := hshown j (by rw [List.length_append]; omega)
  rw [hat, view_append_lt hlt, view_of_lt hlt]

/-- In every run the reader rests behind what has been passed. -/
theorem Runs.rests (h : Runs (init handler setting memory) passed r) (hs : S.After [] handler) :
    ∃ d done here, Rests S setting d done here r ∧ passed = done.flatMap encodeOctets := by
  induction h with
  | start => exact ⟨[], [], [], rests_init hs, rfl⟩
  | update _ hn hr ih =>
    obtain ⟨d, done, here, h, rfl⟩ := ih
    have hcall := updateBuffer_holds hn h _ rfl
    rw [hr] at hcall
    obtain ⟨d', more, h', -⟩ := hcall
    exact ⟨d', done, here ++ more, h', rfl⟩
  | pass _ hu hz ih =>
    obtain ⟨d, done, here, h, rfl⟩ := ih
    obtain ⟨value, here, rfl⟩ := h.nonempty (h.has (n := 1) (.inl hu)) hz
    refine ⟨d, done ++ [value], here, h.advance.2.1, ?_⟩
    rw [h.character, List.flatMap_append, List.flatMap_singleton]

/-- As long as not all has been decoded the buffer holds a part of the text. -/
theorem Rests.part (h : Rests (F.source b) setting d done here r) (hb : Decodes setting b values rest) :
    ∃ more, values = done ++ here ++ more := by
  by_cases he : r.encoding = .any
  · obtain ⟨-, hnone, -⟩ := h.taken.start he
    exact ⟨values, by rw [hnone, List.nil_append]⟩
  · obtain ⟨-, more, -, hvalues, -⟩ := h.taken.remaining he hb
    exact ⟨more, hvalues⟩

/-- The text as far as it has been read. -/
theorem Rests.text (h : Rests (F.source b) setting d done here r) (hb : Decodes setting b values rest) :
    ∃ k, done.flatMap encodeOctets ++ r.buffered = (values.take k).flatMap encodeOctets ++ (if r.eof then [0] else [])
      ∧ (r.eof = true → rest = [] ∧ values.length ≤ k) := by
  obtain ⟨more, hvalues⟩ := h.part hb
  refine ⟨(done ++ here).length, ?_, fun he => ?_⟩
  · rw [hvalues, List.take_left, h.held.buffered, List.flatMap_append, List.append_assoc]
  · obtain ⟨hwhole, hrest, -⟩ := h.whole he hb
    exact ⟨hrest, by rw [hwhole]⟩

/-- A call fails where the text does. -/
theorem Rests.fails (h : Rests (F.source b) setting d done here r) (hb : Decodes setting b values rest)
    (hlen : b.length < maxFileSize) (hn : n ≤ 4096) (hr : updateBuffer n r = .error e r') :
    rest ≠ [] ∧ ∃ text value, e = .reported (.reader text ((opening setting b).2.length
      + (values.flatMap (encoded (opening setting b).1)).length + trailing (opening setting b).1 rest) value) := by
  have hcall := updateBuffer_holds hn h _ rfl
  rw [hr] at hcall
  obtain ⟨problem, d', here', ended, rfl, htaken, -, -, hrefused⟩ := hcall
  obtain ⟨-, hrest, text, value, rfl⟩ := hrefused.stuck htaken hb hlen
  exact ⟨hrest, text, value, rfl⟩

/-- A call for a character finds one, unless the text is over. -/
theorem Rests.next (h : Rests (F.source b) setting d done here r) (hb : Decodes setting b values rest)
    (hstop : rest ≠ [] ∨ maxFileSize ≤ b.length) (hr : updateBuffer 1 r = .ok () r') :
    ∃ d' value here', Rests (F.source b) setting d' done (value :: here') r' ∧ 0 < r'.unread := by
  have hcall := updateBuffer_holds (n := 1) (by decide) h _ rfl
  rw [hr] at hcall
  obtain ⟨d', more, h', hn, -⟩ := hcall
  have heof : ¬r'.eof = true := fun he => by
    obtain ⟨-, hrest, hlen⟩ := h'.whole he hb
    rcases hstop with hstop | hstop
    · exact hstop hrest
    · omega
  have hunread := hn.resolve_right heof
  rcases (h'.has (.inl hunread)).resolve_right heof with hlength
  rcases hhere : here ++ more with _ | ⟨value, here'⟩
  · rw [hhere] at hlength
    cases hlength
  · rw [hhere] at h'
    exact ⟨d', value, here', h', hunread⟩

/-- Character after character, a run comes to the place where reading fails. -/
theorem exists_breaks (hg : F.Gives b handler) (hb : Decodes setting b values rest)
    (hstop : rest ≠ [] ∨ maxFileSize ≤ b.length) : ∃ e, Breaks (init handler setting memory) e := by
  have hs : (F.source b).After [] handler := ⟨b, rfl, hg⟩
  by_contra hnone
  have hgoes {passed : Bytes} {r : Reader σ} (h : Runs (init handler setting memory) passed r) :
      ∃ r', updateBuffer 1 r = .ok () r' := by
    cases hr : updateBuffer 1 r with
    | ok u r' => exact ⟨r', rfl⟩
    | error e r' => exact absurd ⟨e, passed, r, 1, r', h, by decide, hr⟩ hnone
  have hreach : ∀ k, ∃ passed r d done here, Runs (init handler setting memory) passed r
      ∧ Rests (F.source b) setting d done here r ∧ done.length = k := by
    intro k
    induction k with
    | zero => exact ⟨[], _, [], [], [], .start, rests_init hs, rfl⟩
    | succ k ih =>
      obtain ⟨passed, r, d, done, here, hrun, h, rfl⟩ := ih
      obtain ⟨r', hr⟩ := hgoes hrun
      obtain ⟨d', value, here', h', hunread⟩ := h.next hb hstop hr
      have hvalue := h'.permitted value List.mem_cons_self
      have hhas := h'.has (n := 1) (.inl hunread)
      have hz : isZ (Input.view r') = false := by
        have hagree := (h'.agree (l := []) hhas fun _ => rfl).head
        refine beq_eq_false_iff_ne.mpr fun h0 => ?_
        rw [hagree, List.append_nil, List.flatMap_cons] at h0
        exact Permitted.octet hvalue _ h0
      exact ⟨_, _, d', done ++ [value], here', .pass (.update hrun (by decide) hr) hunread hz, h'.advance.2.1, by simp⟩
  obtain ⟨passed, r, d, done, here, -, h, hlen⟩ := hreach (values.length + 1)
  obtain ⟨more, hvalues⟩ := h.part hb
  have := congrArg List.length hvalues
  rw [List.length_append, List.length_append] at this
  omega

theorem buffered_runs (hg : F.Gives b handler) (hb : Decodes setting b values rest)
    (h : Runs (init handler setting memory) passed r) :
    ∃ k, passed ++ r.buffered = (values.take k).flatMap encodeOctets ++ (if r.eof then [0] else [])
      ∧ (r.eof = true → rest = [] ∧ values.length ≤ k) := by
  obtain ⟨d, done, here, hrests, rfl⟩ := h.rests (S := F.source b) ⟨b, rfl, hg⟩
  exact hrests.text hb

/-- A call brings as many characters as it has been asked for, or the end. -/
theorem update_runs (hg : F.Gives b handler) (h : Runs (init handler setting memory) passed r) (hn : n ≤ 4096)
    (hr : updateBuffer n r = .ok () r') : n ≤ r'.unread ∨ r'.eof = true := by
  obtain ⟨d, done, here, h, -⟩ := h.rests (S := F.source b) ⟨b, rfl, hg⟩
  have hcall := updateBuffer_holds hn h _ rfl
  rw [hr] at hcall
  obtain ⟨d', more, -, hfilled, -⟩ := hcall
  exact hfilled

end Runs

end Reader

open Reader

/-- Whatever pieces an input that is not too long is handed over in, what has been passed and what stands in the
buffer are together the characters of the text that the input stands for, in UTF-8, and at the end of the input
one NUL; a call brings what it has been asked for, or the end; and a call fails if and only if the text does not
reach to the end of the input, at the first byte that cannot be a part of it. -/
theorem transcodes {σ : Type} [ReadHandler σ] (F : Feed σ) (setting : Encoding) (memory : View) {b : Bytes} {handler : σ}
    (h : F.Gives b handler) (hlen : b.length < maxFileSize) {values : List Nat} {rest : Bytes}
    (hb : Decodes setting b values rest) :
    (∀ passed r, Runs (init handler setting memory) passed r →
      (∃ k, passed ++ r.buffered = (values.take k).flatMap encodeOctets ++ (if r.eof then [0] else [])
        ∧ (r.eof = true → rest = [] ∧ values.length ≤ k))
      ∧ ∀ n r', n ≤ 4096 → updateBuffer n r = .ok () r' → n ≤ r'.unread ∨ r'.eof = true)
    ∧ ((∃ e, Breaks (init handler setting memory) e) ↔ rest ≠ [])
    ∧ ∀ e, Breaks (init handler setting memory) e →
      ∃ text value, e = .reported (.reader text ((opening setting b).2.length
        + (values.flatMap (encoded (opening setting b).1)).length + trailing (opening setting b).1 rest) value) := by
  have hfails {e : Fault} (he : Breaks (init handler setting memory) e) : rest ≠ [] ∧ ∃ text value,
      e = .reported (.reader text ((opening setting b).2.length
        + (values.flatMap (encoded (opening setting b).1)).length + trailing (opening setting b).1 rest) value) := by
    obtain ⟨passed, r, n, r', hrun, hn, hr⟩ := he
    obtain ⟨d, done, here, hrests, -⟩ := hrun.rests (S := F.source b) ⟨b, rfl, h⟩
    exact hrests.fails hb hlen hn hr
  exact ⟨fun passed r hrun => ⟨buffered_runs h hb hrun, fun n r' hn hr => update_runs h hrun hn hr⟩,
    ⟨fun ⟨e, he⟩ => (hfails he).1, fun hrest => exists_breaks h hb (.inl hrest)⟩, fun e he => (hfails he).2⟩

/-- A byte that cannot follow. -/
theorem transcodes_trailing : ∃ text value, Breaks
    (init (⟨[[0x61, 0xE2], [0x41], [0x41]]⟩ : Pieces) .any fun _ => 0xFF) (.reported (.reader text 2 value)) := by
  have hgives : pieces.Gives [0x61, 0xE2, 0x41, 0x41] ⟨[[0x61, 0xE2], [0x41], [0x41]]⟩ := ⟨rfl, by decide⟩
  have hstuck : Stuck .utf8 [0xE2, 0x41, 0x41] := by
    rintro value hv ⟨rest, hrest⟩
    have hdecode : decode .utf8 true (encoded .utf8 value ++ rest) = _ := decode_encoded hv.1
    have hinvalid : decode .utf8 true [0xE2, 0x41, 0x41] = .invalid "invalid trailing UTF-8 octet" 1 0x41 := by decide
    rw [hrest, hinvalid] at hdecode
    cases hdecode
  have hdecodes : Decodes .any [0x61, 0xE2, 0x41, 0x41] [0x61] [0xE2, 0x41, 0x41] :=
    ⟨List.forall_mem_singleton.mpr ⟨by decide, by decide⟩, by decide, hstuck⟩
  obtain ⟨-, hbreaks, hfails⟩ := transcodes pieces .any (fun _ => 0xFF) hgives (by decide) hdecodes
  obtain ⟨e, he⟩ := hbreaks.mpr (List.cons_ne_nil _ _)
  obtain ⟨text, value, rfl⟩ := hfails e he
  exact ⟨text, value, he⟩

/-- A text of letters is one, however long. -/
theorem decodes_letters (n : Nat) : Decodes .any (List.replicate n 0x61) (List.replicate n 0x61) [] := by
  have hrow : (List.replicate n 0x61).flatMap (encoded .utf8) = List.replicate n (0x61 : UInt8) := by
    induction n with
    | zero => rfl
    | succ n ih =>
      rw [List.replicate_succ, List.flatMap_cons, ih]
      rfl
  have hopening : opening .any (List.replicate n 0x61) = (.utf8, []) := by
    rcases n with _ | n
    · rfl
    · rfl
  refine ⟨fun value hv => ?_, ?_, stuck_nil⟩
  · rw [List.eq_of_mem_replicate hv]
    exact ⟨by decide, by decide⟩
  · rw [hopening, hrow, List.append_nil]
    rfl

/-- A text can be refused for its length. -/
theorem long_text_refused : ∃ b values, Decodes .any b values [] ∧ ∃ e, Breaks (init (⟨b⟩ : StringInput) .any fun _ => 0) e :=
  ⟨_, _, decodes_letters maxFileSize, exists_breaks (F := strings) rfl (decodes_letters maxFileSize)
    (.inr (by rw [List.length_replicate]))⟩

end LibYaml
