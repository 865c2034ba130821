import LibYaml.Reader.Delivering

/-!
# The text behind the buffer

A text that is there as a whole is what the reader stands for: on the bytes of an input that can be decoded
the scanner does what it does on the text itself.
-/

namespace LibYaml

open Fallible

/-- A text that has been decoded as a whole: what of it is still to come, and the encoding of its input. -/
structure Text where
  encoding : Encoding
  rest : Bytes

instance : Input Text where
  cache _ := pure ()
  view t := view t.rest
  advance k t := { t with rest := t.rest.drop k }
  encoding t := t.encoding
  size t := t.rest.length
  view_advance k t := Input.view_advance k t.rest

namespace Reader

/-- The text that an input stands for. -/
def textOf (setting : Encoding) (b : Bytes) (values : List Nat) : Text :=
  ⟨(opening setting b).1, values.flatMap encodeOctets⟩

variable {σ : Type} [ReadHandler σ] {F : Feed σ} {setting : Encoding} {b : Bytes} {values : List Nat} {k n : Nat}
  {r : Reader σ}

/-- Where the pointer stands at a character there is one in the text. -/
theorem Standing.unread (h : Standing (F.source b) setting k (n + 1) r) (hb : Decodes setting b values [])
    (hz : isZ (Input.view r) = false) : ∃ value rest, values.drop k = value :: rest
      ∧ isScalarValue value = true ∧ width (Input.view r) = (encodeOctets value).length := by
  have hagree := h.text hb
  cases hdrop : values.drop k with
  | nil =>
    rw [hdrop] at hagree
    rw [isZ, isZAt, hagree.head] at hz
    cases hz
  | cons value rest =>
    have hvalue : isScalarValue value = true :=
      (hb.permitted value (List.drop_subset k values (hdrop ▸ List.mem_cons_self))).1
    refine ⟨value, rest, rfl, hvalue, ?_⟩
    rw [hdrop, List.flatMap_cons] at hagree
    rw [width_congr hagree.head, width_character (encodeOctets_character hvalue)]

/-- The reader and its text. -/
def Feed.refinement (F : Feed σ) (hb : b.length < maxFileSize) (hvalues : Decodes setting b values []) :
    Lockstep (Reader σ) Text where
  Rel k n r t := Standing (F.source b) setting k n r ∧ t = ⟨(opening setting b).1, (values.drop k).flatMap encodeOctets⟩
  Broken _ _ _ := True
  mono hn h := ⟨h.1.mono hn, h.2⟩
  agree := by
    intro k n r t h
    rw [h.2]
    exact h.1.text hvalues
  broken _ := trivial
  encoding := by
    intro k n r t h
    rw [h.2]
    exact h.1.encoding hvalues
  cache := by
    intro k n r t m hm h
    obtain ⟨r', hr, hstands, hagree, hsize⟩ := h.1.cached ⟨hb, values, hvalues⟩ hm
    rw [hr]
    exact ⟨⟨hstands, h.2⟩, hagree, hsize, le_rfl⟩
  step := by
    intro k n r t h hz
    obtain ⟨hstands, hsize⟩ := h.1.advance hz
    obtain ⟨value, rest, hdrop, hvalue, hwidth⟩ := h.1.unread hvalues hz
    have hpos := (encodeOctets_character hvalue).length_pos
    have hrest : values.drop (k + 1) = rest := by rw [← List.drop_drop, hdrop]; rfl
    have htext : t = ⟨(opening setting b).1, encodeOctets value ++ rest.flatMap encodeOctets⟩ := by
      rw [h.2, hdrop, List.flatMap_cons]
    have htwidth : width (Input.view t) = (encodeOctets value).length := by
      rw [htext]
      exact width_character (encodeOctets_character hvalue)
    refine ⟨⟨hstands, ?_⟩, hsize, ?_⟩
    · rw [htwidth, htext, hrest]
      change Text.mk _ ((encodeOctets value ++ rest.flatMap encodeOctets).drop (encodeOctets value).length) = _
      rw [List.drop_left]
    · rw [htwidth, htext]
      change ((encodeOctets value ++ rest.flatMap encodeOctets).drop (encodeOctets value).length).length
        < (encodeOctets value ++ rest.flatMap encodeOctets).length
      rw [List.drop_left, List.length_append]
      omega

theorem refinement_init (F : Feed σ) (hb : b.length < maxFileSize) (hvalues : Decodes setting b values []) {handler : σ}
    (memory : View) (h : F.Gives b handler) :
    (F.refinement hb hvalues).simulation.Rel .zero 0 (init handler setting memory) (textOf setting b values) :=
  ⟨standing_init ⟨b, rfl, h⟩, rfl⟩

end Reader

open Scanner

/-- On an input that can be decoded the scanner returns what it returns on the text that the input stands for:
in which pieces it comes, how it is encoded and what has been in the buffer does not matter. -/
theorem scan_text {σ : Type} [ReadHandler σ] (F : Reader.Feed σ) (setting : Encoding) (memory : View) {b : Bytes}
    {handler : σ} (h : F.Gives b handler) (hlen : b.length < Reader.maxFileSize) {values : List Nat}
    (hb : Reader.Decodes setting b values []) (n : Nat) :
    (calls n (init (Reader.init handler setting memory))).1 = (calls n (init (Reader.textOf setting b values))).1
      ∧ ∀ e, .error e ∈ (calls n (init (Reader.init handler setting memory))).1 → ∃ problem, e = .reported problem :=
  have hcalls := calls_abreast n (abreast_init (Reader.refinement_init F hlen hb memory h))
  ⟨hcalls.1, hcalls.2.1⟩

/-- A quoted text of one character in UTF-16, cut inside its surrogates. -/
theorem scan_text_quoted :
    Reader.Decodes .any [0xFE, 0xFF, 0x00, 0x22, 0xD8, 0x3D, 0xDE, 0x00, 0x00, 0x22] [0x22, 0x1F600, 0x22] [] ∧ ∀ n,
    (calls n (init (Reader.init (⟨[[0xFE, 0xFF, 0x00], [0x22, 0xD8], [0x3D, 0xDE], [0x00, 0x00, 0x22]]⟩ : Pieces) .any
      fun _ => 0xFF))).1
      = (calls n (init (⟨.utf16be, [0x22, 0xF0, 0x9F, 0x98, 0x80, 0x22]⟩ : Text))).1 := by
  have hgives : Reader.pieces.Gives [0xFE, 0xFF, 0x00, 0x22, 0xD8, 0x3D, 0xDE, 0x00, 0x00, 0x22]
      ⟨[[0xFE, 0xFF, 0x00], [0x22, 0xD8], [0x3D, 0xDE], [0x00, 0x00, 0x22]]⟩ := ⟨rfl, by decide⟩
  have hdecodes : Reader.Decodes .any [0xFE, 0xFF, 0x00, 0x22, 0xD8, 0x3D, 0xDE, 0x00, 0x00, 0x22] [0x22, 0x1F600, 0x22] [] :=
    ⟨List.forall_mem_cons.mpr ⟨⟨by decide, by decide⟩, List.forall_mem_cons.mpr ⟨⟨by decide, by decide⟩,
      List.forall_mem_singleton.mpr ⟨by decide, by decide⟩⟩⟩, by decide, Reader.stuck_nil⟩
  exact ⟨hdecodes, fun n => (scan_text Reader.pieces .any (fun _ => 0xFF) hgives (by decide) hdecodes n).1⟩

end LibYaml
