import LibYaml.Reader.Updating
import LibYaml.Scanner.Calls

/-!
# What the scanner sees of the reader

Between two calls the buffer shows the characters to come, as far as they are there, and the pointer
steps over one of them at a time.
-/

namespace LibYaml

open Fallible

theorem encodeOctets_character {value : Nat} (h : isScalarValue value = true) : IsCharacter (encodeOctets value) :=
  (encodeOctets_spec (isScalarValue_le h)).1.character

namespace Reader

section Shown

variable {values : List Nat} {v : View} {rest : Bytes} {n : Nat}

/-- The first of the characters that are shown. -/
theorem Shown.first {value : Nat} (h : isScalarValue value = true) (hv : Shown (encodeOctets value ++ rest) v)
    {b : Bytes} :
    v 0 = view (encodeOctets value ++ b) 0 ∧ 0 < width v
      ∧ (∀ k < width v, v k = view (encodeOctets value ++ b) k) ∧ width v = (encodeOctets value).length := by
  have hc := encodeOctets_character h
  have hpos := hc.length_pos
  have hbyte {k : Nat} (hk : k < (encodeOctets value).length) : v k = view (encodeOctets value ++ b) k := by
    rw [hv k (by rw [List.length_append]; omega), view_append_lt hk, view_append_lt hk]
  have hwidth : width v = (encodeOctets value).length := (width_congr (hbyte hpos)).trans (width_character hc)
  exact ⟨hbyte hpos, by rwa [hwidth], fun k hk => hbyte (by rwa [hwidth] at hk), hwidth⟩

/-- As many characters as are shown. -/
theorem Shown.agree : ∀ {values : List Nat} {v : View} {n : Nat}, (∀ value ∈ values, isScalarValue value = true) →
    Shown (values.flatMap encodeOctets) v → n ≤ values.length → Agree n v (view (values.flatMap encodeOctets ++ rest))
  | _, _, 0, _, _, _ => trivial
  | value :: values, v, n + 1, hs, hv, hn => by
    rw [List.flatMap_cons] at hv
    have hvalue := hs value List.mem_cons_self
    rw [List.flatMap_cons, List.append_assoc]
    obtain ⟨h0, hpos, hbytes, hwidth⟩ := hv.first hvalue (b := values.flatMap encodeOctets ++ rest)
    refine ⟨h0, fun _ => ⟨hpos, hbytes, ?_⟩⟩
    have hnext : next (view (encodeOctets value ++ (values.flatMap encodeOctets ++ rest)))
        = view (values.flatMap encodeOctets ++ rest) := by
      funext k
      rw [next, behind, width_character (encodeOctets_character hvalue), view_append_add]
    rw [hnext, next, hwidth]
    exact Shown.agree (fun value h => hs value (List.mem_cons_of_mem _ h)) hv.right (Nat.le_of_succ_le_succ hn)

/-- All the characters, and the NUL behind them. -/
theorem Shown.agree_ended : ∀ {values : List Nat} {v : View} {n : Nat}, (∀ value ∈ values, isScalarValue value = true) →
    Shown (values.flatMap encodeOctets ++ [0]) v → Agree n v (view (values.flatMap encodeOctets))
  | _, _, 0, _, _ => trivial
  | [], v, n + 1, _, hv => by
    have h0 : v 0 = 0 := hv 0 (by decide)
    exact ⟨h0, fun h => absurd h0 h⟩
  | value :: values, v, n + 1, hs, hv => by
    rw [List.flatMap_cons, List.append_assoc] at hv
    have hvalue := hs value List.mem_cons_self
    rw [List.flatMap_cons]
    obtain ⟨h0, hpos, hbytes, hwidth⟩ := hv.first hvalue (b := values.flatMap encodeOctets)
    refine ⟨h0, fun _ => ⟨hpos, hbytes, ?_⟩⟩
    have hnext : next (view (encodeOctets value ++ values.flatMap encodeOctets)) = view (values.flatMap encodeOctets) := by
      funext k
      rw [next, behind, width_character (encodeOctets_character hvalue), view_append_add]
    rw [hnext, next, hwidth]
    exact Shown.agree_ended (fun value h => hs value (List.mem_cons_of_mem _ h)) hv.right

end Shown

variable {σ : Type} [ReadHandler σ] {S : Source σ} {setting : Encoding} {d : Bytes} {done here : List Nat} {value : Nat}
  {n k m : Nat} {r : Reader σ}

/-- There are so many characters in the buffer, or all there are and the NUL behind them. -/
def Has (n : Nat) (here : List Nat) (r : Reader σ) : Prop := n ≤ here.length ∨ r.eof = true

/-- The parser as it is initialised. -/
theorem rests_init {handler : σ} {memory : View} (h : S.After [] handler) :
    Rests S setting [] [] [] (init handler setting memory) := by
  have hshown : Shown [] (behind 0 memory) := fun k hk => absurd hk (Nat.not_lt_zero k)
  refine ⟨⟨h, fun he => absurd he Bool.false_ne_true, Nat.zero_le _, ?_, nofun⟩,
    ⟨le_rfl, Nat.zero_le _, rfl, hshown, rfl⟩, fun he => absurd he Bool.false_ne_true⟩
  by_cases hs : setting = .any
  · exact .inl ⟨hs, hs, rfl, rfl, rfl⟩
  · have hopening : opening setting [] = (setting, []) := if_neg hs
    refine .inr ⟨hs, ?_, fun h => absurd h hs, ?_, rfl⟩
    · rw [hopening]
      rfl
    · rw [hopening]
      rfl

theorem Rests.permitted (h : Rests S setting d done here r) : ∀ value ∈ here, Permitted value :=
  fun value hv => h.taken.permitted value (List.mem_append_right _ hv)

theorem Rests.has (h : Rests S setting d done here r) (hn : n ≤ r.unread ∨ r.eof = true) : Has n here r := by
  rcases hn with hn | hn
  · have hunread := h.held.unread
    cases he : r.eof with
    | true => exact .inr he
    | false =>
      rw [he] at hunread
      exact .inl (by simpa [hunread] using hn)
  · exact .inr hn

/-- What the pointer sees are the characters that have not been passed. -/
theorem Rests.agree (h : Rests S setting d done here r) (hn : Has n here r) {l : List Nat}
    (hrest : r.eof = true → l = []) : Agree n (Input.view r) (view ((here ++ l).flatMap encodeOctets)) := by
  have hs : ∀ value ∈ here, isScalarValue value = true := fun value hv => (h.permitted value hv).1
  have hshown := h.held.shown
  rw [List.flatMap_append]
  cases he : r.eof with
  | true =>
    rw [he] at hshown
    rw [hrest he, List.flatMap_nil, List.append_nil]
    exact hshown.agree_ended hs
  | false => exact hshown.left.agree hs (hn.resolve_right (by rw [he]; exact Bool.false_ne_true))

/-- The pointer may step over what is not the NUL. -/
theorem Rests.nonempty (h : Rests S setting d done here r) (hn : Has (n + 1) here r) (hz : isZ (Input.view r) = false) :
    ∃ value rest, here = value :: rest := by
  rcases here with _ | ⟨value, rest⟩
  · have hagree := (h.agree (l := []) hn fun _ => rfl).head
    rw [isZ, isZAt, hagree] at hz
    exact absurd hz (by decide)
  · exact ⟨value, rest, rfl⟩

theorem Rests.advance (h : Rests S setting d done (value :: here) r) :
    width (Input.view r) = (encodeOctets value).length
      ∧ Rests S setting d (done ++ [value]) here (Input.advance (width (Input.view r)) r)
      ∧ Input.size (Input.advance (width (Input.view r)) r) < Input.size r := by
  have hvalue := (h.permitted value List.mem_cons_self).1
  have hheld := h.held
  have hpassed := hheld.passed
  have hlen := hheld.length
  have hshown := hheld.shown
  have hunread := hheld.unread
  have hle := hheld.unread_le
  have hroom := hheld.room
  rw [List.flatMap_cons, List.append_assoc] at hlen hshown
  rw [List.length_append] at hlen
  rw [List.length_cons] at hunread
  have hwidth : width (Input.view r) = (encodeOctets value).length := (hshown.first hvalue (b := [])).2.2.2
  have hsmall : bufferSize < 2 ^ 64 := by decide
  have hwrap : wrapping (r.unread + (2 ^ 64 - 1)) = here.length + if r.eof = true then 1 else 0 := by
    rw [wrapping]
    omega
  rw [hwidth]
  refine ⟨rfl, ⟨⟨h.taken.source, h.taken.whole, h.taken.room, ?_, ?_⟩, ⟨?_, hroom, ?_, ?_, hwrap⟩, h.ended⟩, ?_⟩
  · rw [List.append_assoc]
    exact h.taken.decided
  · rw [List.append_assoc]
    exact h.taken.permitted
  · change r.pointer + (encodeOctets value).length ≤ r.last
    omega
  · change r.last - (r.pointer + (encodeOctets value).length) = _
    rw [Nat.sub_add_eq, hlen, Nat.add_sub_cancel_left]
    rfl
  · have := hshown.right
    change Shown _ (behind (r.pointer + (encodeOctets value).length) r.memory)
    intro j hj
    have := this j hj
    rw [behind] at this ⊢
    rw [behind, ← Nat.add_assoc] at this
    exact this
  · change wrapping (r.unread + (2 ^ 64 - 1)) + r.raw.length + ReadHandler.left r.handler + r.unended
      < r.unread + r.raw.length + ReadHandler.left r.handler + r.unended
    omega

/-- The reader stands between two calls, `k` characters into the text, with so many in the buffer. -/
def Standing (S : Source σ) (setting : Encoding) (k n : Nat) (r : Reader σ) : Prop :=
  ∃ d done here, Rests S setting d done here r ∧ done.length = k ∧ Has n here r

/-- A call of the reader, from where it stands. -/
theorem Standing.cache {k m n : Nat} {r : Reader σ} (h : Standing S setting k n r) (hm : m ≤ 8) :
    match Reader.cache m r with
    | .ok _ r' => Standing S setting k m r' ∧ Agree n (Input.view r) (Input.view r') ∧ Input.size r' ≤ Input.size r
    | .error e r' => ∃ done, done.length = k ∧ Failing S setting done e r' := by
  obtain ⟨d, done, here, hr, rfl, hhas⟩ := h
  have hcache := cache_holds (n := m) (by omega) hr r rfl
  cases hx : Reader.cache m r with
  | error e r' =>
    rw [hx] at hcache
    exact ⟨done, rfl, hcache⟩
  | ok u r' =>
    rw [hx] at hcache
    obtain ⟨d', more, hr', hn, hsize⟩ := hcache
    refine ⟨⟨d', done, here ++ more, hr', rfl, hr'.has hn⟩, ?_, hsize⟩
    cases he : r.eof with
    | true =>
      have hsame : r = r' := by
        rw [cache_of_eof hr he] at hx
        cases hx
        rfl
      rw [← hsame]
      have hagree := hr.agree (l := []) hhas fun _ => rfl
      exact hagree.trans hagree.symm
    | false =>
      have hle := hhas.resolve_right (by rw [he]; exact Bool.false_ne_true)
      have hagree := hr.agree (l := more) hhas fun h => absurd (he.symm.trans h) Bool.false_ne_true
      have hhas' : Has n (here ++ more) r' := .inl (by rw [List.length_append]; omega)
      have hagree' := hr'.agree (l := []) hhas' fun _ => rfl
      rw [List.append_nil] at hagree'
      exact hagree.trans hagree'.symm

theorem Standing.advance {k n : Nat} {r : Reader σ} (h : Standing S setting k (n + 1) r)
    (hz : isZ (Input.view r) = false) :
    Standing S setting (k + 1) n (Input.advance (width (Input.view r)) r)
      ∧ Input.size (Input.advance (width (Input.view r)) r) < Input.size r := by
  obtain ⟨d, done, here, hr, rfl, hhas⟩ := h
  obtain ⟨value, rest, rfl⟩ := hr.nonempty hhas hz
  obtain ⟨-, hr', hsize⟩ := hr.advance
  exact ⟨⟨d, done ++ [value], rest, hr', by simp, hhas.imp (fun h => Nat.le_of_succ_le_succ h) id⟩, hsize⟩

theorem cache_of_ok {m : Nat} {r r' : Reader σ} (h : Reader.cache m r = .ok () r') : Input.cache m r = .ok () r' := by
  simp only [Input.cache, h]

theorem cache_of_error {m : Nat} {r r' : Reader σ} {problem : Problem}
    (h : Reader.cache m r = .error (.reported problem) r') : Input.cache m r = .error problem r' := by
  simp only [Input.cache, h]

theorem Standing.mono (h : Standing S setting k n r) (hm : m ≤ n) : Standing S setting k m r := by
  obtain ⟨d, done, here, hr, hk, hhas⟩ := h
  exact ⟨d, done, here, hr, hk, hhas.imp (fun h => hm.trans h) id⟩

theorem standing_init {handler : σ} {memory : View} (h : S.After [] handler) :
    Standing S setting 0 0 (init handler setting memory) :=
  ⟨[], [], [], rests_init h, rfl, .inl le_rfl⟩

end Reader

end LibYaml
