import LibYaml.Reader.Texts
import LibYaml.Scanner.Course

/-!
# However the input comes

Two handlers that hand over the same input in different pieces lead the scanner to the same tokens, and
the end of the stream is found where the input can be decoded as a whole, and only there.
-/

namespace LibYaml

open Fallible

namespace Reader

/-! ## The end of the text -/

section Ending

variable {σ : Type} [ReadHandler σ] {S : Source σ} {setting : Encoding} {k n : Nat} {r : Reader σ}

/-- No character of a text is taken for the end. -/
theorem Permitted.octet {value : Nat} (h : Permitted value) (b : Bytes) : view (encodeOctets value ++ b) 0 ≠ 0 := by
  obtain ⟨hshortest, hvalue⟩ := encodeOctets_spec (isScalarValue_le h.1)
  have hchar := hshortest.character
  intro h0
  rw [view_append_lt hchar.length_pos] at h0
  cases hc : encodeOctets value with
  | nil => exact hchar.1 hc
  | cons a rest =>
    rw [hc] at h0 hchar hvalue
    have ha : a = 0 := h0
    have hlen : octetWidth a = rest.length + 1 := hchar.2
    rw [ha, show octetWidth 0 = 1 by decide] at hlen
    rw [ha, List.length_eq_zero_iff.mp (by omega : rest.length = 0)] at hvalue
    have hallowed := h.2
    rw [← hvalue] at hallowed
    exact absurd hallowed (by decide)

/-- The NUL stands at the end. -/
theorem Standing.ended (h : Standing S setting k (n + 1) r) (hz : isZ (Input.view r) = true) :
    r.eof = true ∧ ∃ d done, Rests S setting d done [] r := by
  obtain ⟨d, done, here, hr, -, hhas⟩ := h
  cases here with
  | nil => exact ⟨hhas.resolve_left (Nat.not_succ_le_zero n), d, done, hr⟩
  | cons value here =>
    have hagree := (hr.agree (l := []) hhas fun _ => rfl).head
    rw [List.append_nil, List.flatMap_cons] at hagree
    refine absurd ?_ ((hr.permitted value List.mem_cons_self).octet (here.flatMap encodeOctets))
    rw [← hagree]
    exact isZ_eq hz

theorem Standing.agree_self (h : Standing S setting k n r) : Agree n (Input.view r) (Input.view r) := by
  obtain ⟨d, done, here, hr, -, hhas⟩ := h
  have hagree := hr.agree (l := []) hhas fun _ => rfl
  exact hagree.trans hagree.symm

/-- A reader beside itself. -/
def lockstep (S : Source σ) (setting : Encoding) : Lockstep (Reader σ) (Reader σ) where
  Rel k n r r' := r = r' ∧ Standing S setting k n r
  Broken _ r r' := r = r'
  mono hn h := ⟨h.1, h.2.mono hn⟩
  agree := by
    rintro k n r _ ⟨rfl, h⟩
    exact h.agree_self
  broken h := h.1
  encoding h := by rw [h.1]
  cache := by
    rintro k n r _ m hm ⟨rfl, h⟩
    have hcache := h.cache hm
    cases hr : Reader.cache m r with
    | ok u r' =>
      rw [hr] at hcache
      rw [cache_of_ok hr]
      exact ⟨⟨rfl, hcache.1⟩, hcache.2.1, hcache.2.2, hcache.2.2⟩
    | error e r' =>
      rw [hr] at hcache
      obtain ⟨_, -, problem, -, -, -, rfl, -⟩ := hcache
      rw [cache_of_error hr]
      exact ⟨rfl, rfl⟩
  step := by
    rintro k n r _ ⟨rfl, h⟩ hz
    obtain ⟨h', hsize⟩ := h.advance hz
    exact ⟨⟨rfl, h'⟩, hsize, hsize⟩

/-- A reader comes to its end where the text does. -/
def terminal (S : Source σ) (setting : Encoding) : Terminal (Reader σ) where
  lockstep := lockstep S setting
  AtEnd r := r.eof = true ∧ ∃ d done, Rests S setting d done [] r
  ends h hz := h.2.ended hz
  nul := by
    rintro r ⟨heof, d, done, h⟩
    have hshown := h.held.shown
    rw [heof] at hshown
    exact beq_iff_eq.mpr (hshown 0 (by decide))
  rests := by
    rintro r ⟨heof, d, done, h⟩ n
    rw [cache_of_ok (cache_of_eof h heof)]
    exact ⟨heof, d, done, h⟩

end Ending

/-! ## Two handlers -/

section Delivering

variable {σ τ : Type} [ReadHandler σ] [ReadHandler τ] {F : Feed σ} {G : Feed τ} {setting : Encoding} {b : Bytes}
  {values : List Nat} {k n m : Nat} {r : Reader σ} {r' : Reader τ}

/-- All of the input can be decoded. -/
def Readable (setting : Encoding) (b : Bytes) : Prop :=
  b.length < maxFileSize ∧ ∃ values, Decodes setting b values []

/-- What the pointer sees does not depend on the handler. -/
theorem Standing.text (h : Standing (F.source b) setting k n r) (hb : Decodes setting b values []) :
    Agree n (Input.view r) (view ((values.drop k).flatMap encodeOctets)) := by
  obtain ⟨d, done, here, hr, rfl, hhas⟩ := h
  by_cases he : r.encoding = .any
  · have hempty : done ++ here = [] := by
      rcases hr.taken.decided with ⟨-, -, hempty, -⟩ | ⟨hne, -⟩
      · exact hempty
      · exact absurd he hne
    have heof : ¬r.eof = true := fun heof => (hr.ended heof).2.1 he
    have hzero : n = 0 := by
      have := hhas.resolve_right heof
      rw [(List.append_eq_nil_iff.mp hempty).2, List.length_nil] at this
      omega
    rw [hzero]
    trivial
  · obtain ⟨-, more, -, hvalues, -⟩ := hr.taken.remaining he hb
    have hagree := hr.agree (l := more) hhas fun heof => by
      have hwhole := (hr.whole heof hb).1
      rw [hwhole] at hvalues
      exact List.append_right_eq_self.mp hvalues.symm
    rwa [hvalues, List.append_assoc, List.drop_left]

theorem Standing.encoding (h : Standing (F.source b) setting k (n + 1) r) (hb : Decodes setting b values []) :
    r.encoding = (opening setting b).1 := by
  obtain ⟨d, done, here, hr, rfl, hhas⟩ := h
  by_cases he : r.encoding = .any
  · have hempty : done ++ here = [] := by
      rcases hr.taken.decided with ⟨-, -, hempty, -⟩ | ⟨hne, -⟩
      · exact hempty
      · exact absurd he hne
    have heof : ¬r.eof = true := fun heof => (hr.ended heof).2.1 he
    have := hhas.resolve_right heof
    rw [(List.append_eq_nil_iff.mp hempty).2, List.length_nil] at this
    omega
  · exact (hr.taken.remaining he hb).1

/-- What can be decoded is. -/
theorem Standing.cached (h : Standing (F.source b) setting k n r) (hb : Readable setting b) (hm : m ≤ 8) :
    ∃ r', Input.cache m r = .ok () r' ∧ Standing (F.source b) setting k m r'
      ∧ Agree n (Input.view r) (Input.view r') ∧ Input.size r' ≤ Input.size r := by
  obtain ⟨hlen, values, hvalues⟩ := hb
  have hcache := h.cache hm
  cases hr : Reader.cache m r with
  | ok u r' =>
    rw [hr] at hcache
    exact ⟨r', cache_of_ok hr, hcache⟩
  | error e r' =>
    rw [hr] at hcache
    obtain ⟨done, -, problem, d, here, ended, -, htaken, -, -, hrefused⟩ := hcache
    exact absurd rfl (hrefused.stuck htaken hvalues hlen).2.1

/-- Two readers that are handed the same input. -/
def Feed.lockstep (F : Feed σ) (G : Feed τ) (hb : Readable setting b) : Lockstep (Reader σ) (Reader τ) where
  Rel k n r r' := Standing (F.source b) setting k n r ∧ Standing (G.source b) setting k n r'
  Broken _ _ _ := True
  mono hn h := ⟨h.1.mono hn, h.2.mono hn⟩
  agree h := by
    obtain ⟨-, values, hvalues⟩ := hb
    exact (h.1.text hvalues).trans (h.2.text hvalues).symm
  broken _ := trivial
  encoding h := by
    obtain ⟨-, values, hvalues⟩ := hb
    exact (h.1.encoding hvalues).trans (h.2.encoding hvalues).symm
  cache := by
    intro k n r r' m hm h
    obtain ⟨r₁, hr₁, hstands, hagree, hsize⟩ := h.1.cached hb hm
    obtain ⟨r₂, hr₂, hstands', -, hsize'⟩ := h.2.cached hb hm
    rw [hr₁, hr₂]
    exact ⟨⟨hstands, hstands'⟩, hagree, hsize, hsize'⟩
  step := by
    intro k n r r' h hz
    obtain ⟨-, values, hvalues⟩ := hb
    have hagree := (h.1.text hvalues).trans (h.2.text hvalues).symm
    have hz' : isZ (Input.view r') = false := by rwa [isZ, isZAt, ← hagree.head]
    obtain ⟨hstands, hsize⟩ := h.1.advance hz
    obtain ⟨hstands', hsize'⟩ := h.2.advance hz'
    exact ⟨⟨hstands, hstands'⟩, hsize, hsize'⟩

end Delivering

end Reader

open Scanner Brackets

/-- In every run of the scanner over the reader the open blocks are a chain of columns from -1 on and there
is a place for a simple key on every flow level, so that no stack is found empty; and where the end of the
stream is handed over outside flow collections the tokens of the blocks are balanced. -/
theorem stacks_in_order {σ : Type} [ReadHandler σ] (S : Source σ) (setting : Encoding) (memory : View) (handler : σ)
    (h : S.After [] handler) {delivered : List Token} {s t : Scanner (Reader σ)}
    (hs : Reached (Reader.init handler setting memory) delivered s) (ht : Inside s t) :
    (t.streamStartProduced = true → Stacked t)
      ∧ (∀ e u, scan s = .error e u → ∃ problem, e = .reported problem
          ∧ (problem ≠ .memory → u.streamStartProduced = true → Stacked u))
      ∧ (∀ e u, fetchMoreTokens s = .error e u → ∃ problem, e = .reported problem
          ∧ (problem ≠ .memory → u.streamStartProduced = true → Stacked u))
      ∧ (∀ e u, fetchNextToken t = .error e u → ∃ problem, e = .reported problem
          ∧ (problem ≠ .memory → u.streamStartProduced = true → Stacked u))
      ∧ ((∃ token ∈ delivered, token.type = .streamEnd) → s.flowLevel = 0 →
          ∃ w : DyckWord, w.toList = brackets delivered) := by
  have hstart : (Reader.terminal S setting).lockstep.Rel 0 0 (Reader.init handler setting memory)
      (Reader.init handler setting memory) := ⟨rfl, Reader.standing_init h⟩
  have hbeside := hs.beside (Terminal.beside hstart)
  have hresting := hs.resting
  refine ⟨(ht.between hresting.between).stacked, fun e u hu => ?_, fun e u hu => ?_, fun e u hu => ?_,
    fun hend hflow => ?_⟩
  · obtain ⟨v, -, hended, heq⟩ := scan_ended hresting hu
    have hfault := scan_beside s s hbeside
    rw [hu] at hfault
    obtain ⟨problem, rfl, -⟩ := hended.resolve_left hfault.2.fault
    refine ⟨problem, rfl, fun hm hstarted => ?_⟩
    rw [heq] at hstarted ⊢
    have hv := hended.stacked hm hstarted
    exact ⟨hv.columns, hv.bottom, hv.levels⟩
  · have hended := fetchMoreTokens_spec.error hresting.between hu
    have hfault := fetchMoreTokens_beside s s hbeside
    rw [hu] at hfault
    obtain ⟨problem, rfl, -⟩ := hended.resolve_left hfault.2.fault
    exact ⟨problem, rfl, hended.stacked⟩
  · have hended := fetchNextToken_spec.error (ht.between hresting.between) hu
    have hfault := fetchNextToken_further t t (ht.beside hbeside).here
    rw [hu] at hfault
    obtain ⟨problem, rfl, -⟩ := hended.resolve_left hfault.2.fault
    exact ⟨problem, rfl, hended.stacked⟩
  · exact ((hs.course hstart).balanced hresting.between hend hflow).balanced

/-- A block sequence of one scalar. -/
theorem stacks_in_order_sequence : ∃ delivered, ∃ s : Scanner (Reader Pieces),
    Reached (Reader.init ⟨[['-'].map octet, [' ', 'a'].map octet]⟩ .any fun _ => 0xFF) delivered s
      ∧ delivered.map (·.type) = [.streamStart, .blockSequenceStart, .blockEntry, .scalar, .blockEnd, .streamEnd]
      ∧ Stacked s ∧ ∃ w : DyckWord, w.toList = brackets delivered := by
  have hstart : (Reader.pieces.source (['-', ' ', 'a'].map octet)).After [] ⟨[['-'].map octet, [' ', 'a'].map octet]⟩ :=
    ⟨_, rfl, rfl, by decide⟩
  have hrun : (calls 6 (init (Reader.init (⟨[['-'].map octet, [' ', 'a'].map octet]⟩ : Pieces) .any fun _ => 0xFF))).1.map
      (fun x => x.toOption.map (·.type)) = [some .streamStart, some .blockSequenceStart, some .blockEntry, some .scalar,
        some .blockEnd, some .streamEnd] := by decide +kernel
  have hflow : (calls 6 (init (Reader.init (⟨[['-'].map octet, [' ', 'a'].map octet]⟩ : Pieces) .any
      fun _ => 0xFF))).2.flowLevel = 0 := by decide +kernel
  have hstarted : (calls 6 (init (Reader.init (⟨[['-'].map octet, [' ', 'a'].map octet]⟩ : Pieces) .any
      fun _ => 0xFF))).2.streamStartProduced = true := by decide +kernel
  obtain ⟨delivered, hreached, hcalls⟩ := reached_calls 6 .start fun x hx => by
    have := List.mem_map_of_mem (f := fun x : Except Fault Token => x.toOption.map (·.type)) hx
    rw [hrun] at this
    cases x with
    | error e => simp [Except.toOption] at this
    | ok token =>
      refine ⟨token, rfl, fun h => ?_⟩
      simp [Except.toOption, h] at this
  have htypes : delivered.map (·.type)
      = [.streamStart, .blockSequenceStart, .blockEntry, .scalar, .blockEnd, .streamEnd] := by
    rw [hcalls, List.map_map] at hrun
    exact List.map_injective_iff.mpr (Option.some_injective _) (by rw [List.map_map]; exact hrun)
  obtain ⟨hstacked, -, -, -, hbalanced⟩ := stacks_in_order _ .any _ _ hstart hreached .start
  refine ⟨_, _, hreached, htypes, hstacked hstarted, hbalanced ?_ hflow⟩
  have hmem : TokenType.streamEnd ∈ delivered.map (·.type) := by
    rw [htypes]
    decide
  exact List.mem_map.mp hmem

/-- Whether the end of the stream is among what the calls return. -/
def reachesEnd (results : List (Except Fault Token)) : Prop := ∃ token, .ok token ∈ results ∧ token.type = .streamEnd

/-- Only where the input can be decoded as a whole the end of the stream is found. -/
theorem readable_of_end {σ : Type} [ReadHandler σ] {F : Reader.Feed σ} {setting : Encoding} {memory : View} {b : Bytes}
    {handler : σ} (h : F.Gives b handler) {n : Nat}
    (hend : reachesEnd (calls n (init (Reader.init handler setting memory))).1) : Reader.Readable setting b := by
  have hgives : (F.source b).After [] handler := ⟨b, rfl, h⟩
  obtain ⟨token, hm, htoken⟩ := hend
  have hstart : (Reader.terminal (F.source b) setting).lockstep.Rel 0 0 (Reader.init handler setting memory)
      (Reader.init handler setting memory) := ⟨rfl, Reader.standing_init hgives⟩
  have hreached : Reached (Reader.init handler setting memory) [] (init (Reader.init handler setting memory)) := .start
  obtain ⟨later, t, hcourse, hlater⟩ := calls_course htoken n hreached.resting (Terminal.beside hstart)
    (hreached.course hstart) hm
  obtain ⟨heof, d, done, hr⟩ := hcourse.atEnd ⟨token, hlater, htoken⟩
  obtain ⟨values, rest, hdecodes⟩ := Reader.exists_decodes setting b
  obtain ⟨-, rfl, hlen⟩ := hr.whole heof hdecodes
  exact ⟨hlen, values, hdecodes⟩

/-- Whatever the pieces are in which two handlers hand over an input that can be decoded, the scanner returns
the same; and the end of the stream is reached with both of them or with neither, whatever the input is. -/
theorem scan_pieces {σ τ : Type} [ReadHandler σ] [ReadHandler τ] (F : Reader.Feed σ) (G : Reader.Feed τ) (setting : Encoding)
    (memory memory' : View) {b : Bytes} {handler : σ} {handler' : τ} (h : F.Gives b handler) (h' : G.Gives b handler') :
    let left n := (calls n (init (Reader.init handler setting memory))).1
    let right n := (calls n (init (Reader.init handler' setting memory'))).1
    (Reader.Readable setting b → ∀ n, left n = right n)
      ∧ ((∃ n, reachesEnd (left n)) ↔ ∃ n, reachesEnd (right n)) := by
  intro left right
  have hsame (hb : Reader.Readable setting b) (n : Nat) : left n = right n :=
    (calls_abreast n (abreast_init (R := (F.lockstep G hb).simulation)
      ⟨Reader.standing_init ⟨b, rfl, h⟩, Reader.standing_init ⟨b, rfl, h'⟩⟩)).1
  exact ⟨hsame, fun ⟨n, hn⟩ => ⟨n, hsame (readable_of_end h hn) n ▸ hn⟩,
    fun ⟨n, hn⟩ => ⟨n, hsame (readable_of_end h' hn) n ▸ hn⟩⟩

/-- A surrogate pair, whole and cut to pieces. -/
theorem scan_pieces_surrogates : Reader.Readable .any [0xFF, 0xFE, 0x3D, 0xD8, 0x00, 0xDE] ∧ ∀ n,
    (calls n (init (Reader.init (⟨[0xFF, 0xFE, 0x3D, 0xD8, 0x00, 0xDE]⟩ : StringInput) .any fun _ => 0))).1
      = (calls n (init (Reader.init (⟨[[0xFF], [0xFE, 0x3D], [0xD8, 0x00], [0xDE]]⟩ : Pieces) .any fun _ => 0xFF))).1 := by
  have hreadable : Reader.Readable .any [0xFF, 0xFE, 0x3D, 0xD8, 0x00, 0xDE] :=
    ⟨by decide, [0x1F600], List.forall_mem_singleton.mpr ⟨by decide, by decide⟩, by decide, Reader.stuck_nil⟩
  have hleft : Reader.strings.Gives [0xFF, 0xFE, 0x3D, 0xD8, 0x00, 0xDE] ⟨[0xFF, 0xFE, 0x3D, 0xD8, 0x00, 0xDE]⟩ := rfl
  have hright : Reader.pieces.Gives [0xFF, 0xFE, 0x3D, 0xD8, 0x00, 0xDE] ⟨[[0xFF], [0xFE, 0x3D], [0xD8, 0x00], [0xDE]]⟩ :=
    ⟨rfl, by decide⟩
  exact ⟨hreadable, (scan_pieces Reader.strings Reader.pieces .any _ _ hleft hright).1 hreadable⟩

end LibYaml
