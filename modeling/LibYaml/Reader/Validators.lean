import LibYaml.Reader.Decoding
import Mathlib.Data.List.Basic
import Mathlib.Order.Basic

/-!
# What the two checks of UTF-8 accept

`yaml_check_utf8` accepts the strings of characters in their shortest form, the reader those of them
that are Unicode scalar values.
-/

namespace LibYaml

/-- A character in its shortest form, which may stand for no scalar value. -/
structure Shortest (c : Bytes) : Prop where
  character : IsCharacter c
  trailing : ∀ b ∈ c.tail, b &&& 0xC0 = 0x80
  length : validLength c.length (codePoint c) = true

section Characters

variable {b : UInt8} {bs : Bytes} {c : Bytes} {cs : List Bytes}

/-- The first character of a string, and the rest. -/
theorem splits_cons : Splits (b :: bs) cs ↔ 0 < octetWidth b ∧ octetWidth b ≤ bs.length + 1 ∧
    ∃ cs', cs = (b :: bs).take (octetWidth b) :: cs' ∧ Splits ((b :: bs).drop (octetWidth b)) cs' := by
  rw [← charactersUpTo_eq_some (bs.length + 1) (by simp), charactersUpTo]
  split_ifs with h
  · refine ⟨nofun, fun h' => ?_⟩
    omega
  · rw [Option.map_eq_some_iff]
    have hl : ((b :: bs).drop (octetWidth b)).length ≤ bs.length := by
      simp only [List.length_drop, List.length_cons]
      omega
    simp only [charactersUpTo_eq_some _ hl]
    constructor
    · rintro ⟨cs', hcs', rfl⟩
      exact ⟨by omega, by omega, cs', rfl, hcs'⟩
    · rintro ⟨-, -, cs', rfl, hcs'⟩
      exact ⟨cs', hcs', rfl⟩

theorem trailingBits_ok : ∀ {bs : Bytes} {value k v : Nat}, trailingBits value k bs = .ok v ↔
    (∀ b ∈ bs, b &&& 0xC0 = 0x80)
      ∧ bs.foldl (fun value octet => value * 64 + (octet &&& 0x3F).toNat) value = v
  | [], value, k, v => by simp [trailingBits]
  | b :: bs, value, k, v => by
    unfold trailingBits
    split_ifs with h
    · rw [trailingBits_ok]
      simp only [List.forall_mem_cons, List.foldl_cons, beq_iff_eq.mp h, true_and]
    · refine ⟨nofun, fun hb => absurd (hb.1 b List.mem_cons_self) ?_⟩
      simpa using h

theorem codePoint_eq (h : octetWidth (c.headD 0) ≠ 0) : codePoint c =
    c.tail.foldl (fun value octet => value * 64 + (octet &&& 0x3F).toNat) (leadBits (c.headD 0)).toNat := by
  unfold octetWidth at h
  unfold codePoint leadBits
  simp only []
  split_ifs at h ⊢ <;> first | rfl | exact absurd rfl h

theorem codePoint_take {value : Nat} (hw : 0 < octetWidth b)
    (h : trailingBits (leadBits b).toNat 1 (bs.take (octetWidth b - 1)) = .ok value) :
    codePoint ((b :: bs).take (octetWidth b)) = value := by
  obtain ⟨w, hw'⟩ : ∃ w, octetWidth b = w + 1 := ⟨octetWidth b - 1, by omega⟩
  rw [hw', Nat.add_sub_cancel] at h
  rw [hw', List.take_succ_cons, codePoint_eq (by rw [List.headD_cons]; omega)]
  exact (trailingBits_ok.mp h).2

/-- What both checks find of the next character. -/
theorem shortest_take (hw : 0 < octetWidth b) (hl : octetWidth b ≤ bs.length + 1) :
    Shortest ((b :: bs).take (octetWidth b)) ↔
      ∃ value, trailingBits (leadBits b).toNat 1 (bs.take (octetWidth b - 1)) = .ok value
        ∧ validLength (octetWidth b) value = true := by
  have hlen : ((b :: bs).take (octetWidth b)).length = octetWidth b := by
    rw [List.length_take, List.length_cons]
    omega
  obtain ⟨w, hw'⟩ : ∃ w, octetWidth b = w + 1 := ⟨octetWidth b - 1, by omega⟩
  have htail : ((b :: bs).take (octetWidth b)).tail = bs.take (octetWidth b - 1) := by
    rw [hw', List.take_succ_cons, List.tail_cons, Nat.add_sub_cancel]
  have hhead : ((b :: bs).take (octetWidth b)).headD 0 = b := by
    rw [hw', List.take_succ_cons, List.headD_cons]
  constructor
  · intro h
    have ht : trailingBits (leadBits b).toNat 1 (bs.take (octetWidth b - 1)) = .ok _ :=
      trailingBits_ok.mpr ⟨htail ▸ h.trailing, rfl⟩
    have hv := h.length
    rw [hlen, codePoint_take hw ht] at hv
    exact ⟨_, ht, hv⟩
  · rintro ⟨value, ht, hv⟩
    refine ⟨⟨?_, by rw [hhead, hlen]⟩, ?_, ?_⟩
    · rw [← List.length_pos_iff, hlen]
      exact hw
    · rw [htail]
      exact (trailingBits_ok.mp ht).1
    · rwa [hlen, codePoint_take hw ht]

end Characters

/-! ## `yaml_check_utf8` -/

theorem checkUtf8UpTo_iff : ∀ {n : Nat} {b : Bytes}, b.length ≤ n →
    (checkUtf8UpTo n b = true ↔ ∃ cs, Splits b cs ∧ ∀ c ∈ cs, Shortest c)
  | n, [], _ => by
    have h : checkUtf8UpTo n [] = true := by cases n <;> rfl
    exact ⟨fun _ => ⟨[], .nil, nofun⟩, fun _ => h⟩
  | 0, _ :: _, hn => by simp at hn
  | n + 1, b :: bs, hn => by
    have hn : bs.length ≤ n := by simpa using hn
    simp only [splits_cons]
    unfold checkUtf8UpTo
    split_ifs with hw hl
    · exact ⟨nofun, fun ⟨_, ⟨h, _⟩, _⟩ => by omega⟩
    · exact ⟨nofun, fun ⟨_, ⟨_, h, _⟩, _⟩ => by omega⟩
    · have hw : 0 < octetWidth b := by omega
      have hl : octetWidth b ≤ bs.length + 1 := by omega
      have hrest : ((b :: bs).drop (octetWidth b)).length ≤ n := by
        simp only [List.length_drop, List.length_cons]
        omega
      have ih := checkUtf8UpTo_iff hrest
      have hfirst := shortest_take hw hl
      cases ht : trailingBits (leadBits b).toNat 1 (bs.take (octetWidth b - 1)) with
      | error e =>
        refine ⟨nofun, ?_⟩
        rintro ⟨_, ⟨-, -, cs, rfl, -⟩, hs⟩
        obtain ⟨value, hv, -⟩ := hfirst.mp (hs _ List.mem_cons_self)
        rw [ht] at hv
        cases hv
      | ok value =>
        simp only [Bool.and_eq_true, ih]
        constructor
        · rintro ⟨hv, cs, hcs, hs⟩
          exact ⟨_, ⟨hw, hl, cs, rfl, hcs⟩,
            List.forall_mem_cons.mpr ⟨hfirst.mpr ⟨value, ht, hv⟩, hs⟩⟩
        · rintro ⟨_, ⟨-, -, cs, rfl, hcs⟩, hs⟩
          obtain ⟨v, hv, hvalid⟩ := hfirst.mp (hs _ List.mem_cons_self)
          rw [ht] at hv
          cases hv
          exact ⟨hvalid, cs, hcs, fun c hc => hs c (List.mem_cons_of_mem _ hc)⟩

theorem checkUtf8_iff {b : Bytes} :
    checkUtf8 b = true ↔ ∃ cs, Splits b cs ∧ ∀ c ∈ cs, Shortest c :=
  checkUtf8UpTo_iff (Nat.le_refl _)

/-! ## The reader -/

/-- What the reader makes of a whole character. -/
theorem decodeUtf8_eq {eof : Bool} {b : UInt8} {bs : Bytes} (hw : 0 < octetWidth b)
    (hl : octetWidth b ≤ bs.length + 1) {value width : Nat} :
    decodeUtf8 eof (b :: bs) = .character value width ↔
      Shortest ((b :: bs).take (octetWidth b)) ∧ isScalarValue value = true
        ∧ codePoint ((b :: bs).take (octetWidth b)) = value ∧ octetWidth b = width := by
  rw [shortest_take hw hl]
  rw [decodeUtf8, if_neg (by omega), if_neg (by omega)]
  cases ht : trailingBits (leadBits b).toNat 1 (bs.take (octetWidth b - 1)) with
  | error e => simp
  | ok v =>
    have hv := codePoint_take hw ht
    have hs : ((0xD800 ≤ v && v ≤ 0xDFFF) || 0x10FFFF < v) = !isScalarValue v := by
      rw [isScalarValue, Bool.not_and, Bool.not_not]
      simp only [← decide_not, Nat.not_le]
    simp only [hs, hv, Except.ok.injEq, exists_eq_left']
    cases hl : validLength (octetWidth b) v with
    | false => simp
    | true =>
      cases hsv : isScalarValue v with
      | false =>
        refine ⟨nofun, ?_⟩
        rintro ⟨-, h, rfl, -⟩
        rw [hsv] at h
        cases h
      | true =>
        constructor
        · rintro ⟨⟩
          exact ⟨rfl, hsv, rfl, rfl⟩
        · rintro ⟨-, -, rfl, rfl⟩
          rfl

theorem splits_nil {cs : List Bytes} : Splits [] cs ↔ cs = [] := by
  rw [← charactersUpTo_eq_some 0 (Nat.le_refl _)]
  exact ⟨fun h => (Option.some.inj h).symm, fun h => h ▸ rfl⟩

/-- What the reader does not take is no character that it accepts. -/
theorem not_decoded {eof : Bool} {b : UInt8} {bs : Bytes} {cs : List Bytes}
    (h : ∀ value width, decodeUtf8 eof (b :: bs) ≠ .character value width)
    (hcs : Splits (b :: bs) cs) :
    ¬∀ c ∈ cs, Shortest c ∧ isScalarValue (codePoint c) = true := by
  intro hs
  obtain ⟨hw, hl, cs, rfl, -⟩ := splits_cons.mp hcs
  obtain ⟨hc, hv⟩ := hs _ List.mem_cons_self
  exact h _ _ ((decodeUtf8_eq hw hl).mpr ⟨hc, hv, rfl, rfl⟩)

theorem decodeUpTo_utf8_iff : ∀ {n offset : Nat} {b : Bytes} {values : List Nat}, b.length ≤ n →
    (decodeUpTo .utf8 n offset b = .ok values ↔ ∃ cs, Splits b cs ∧
      (∀ c ∈ cs, Shortest c ∧ isScalarValue (codePoint c) = true) ∧ cs.map codePoint = values)
  | n, offset, [], values, _ => by
    have h : decodeUpTo .utf8 n offset [] = .ok [] := by cases n <;> rfl
    rw [h]
    constructor
    · rintro ⟨⟩
      exact ⟨[], .nil, nofun, rfl⟩
    · rintro ⟨cs, hcs, -, rfl⟩
      rw [splits_nil.mp hcs]
      rfl
  | 0, _, _ :: _, _, hn => by simp at hn
  | n + 1, offset, b :: bs, values, hn => by
    have hn : bs.length ≤ n := by simpa using hn
    have hdecode : decode .utf8 true (b :: bs) = decodeUtf8 true (b :: bs) := if_neg (by decide)
    rw [decodeUpTo, hdecode]
    cases hd : decodeUtf8 true (b :: bs) with
    | incomplete =>
      refine ⟨nofun, ?_⟩
      rintro ⟨cs, hcs, hs, -⟩
      exact absurd hs (not_decoded (by rw [hd]; nofun) hcs)
    | invalid problem k value =>
      refine ⟨nofun, ?_⟩
      rintro ⟨cs, hcs, hs, -⟩
      exact absurd hs (not_decoded (by rw [hd]; nofun) hcs)
    | character value width =>
      have hw : 0 < octetWidth b ∧ octetWidth b ≤ bs.length + 1 := by
        rw [decodeUtf8] at hd
        split_ifs at hd with h0 hl
        · exact absurd hd (by simp [cutShort])
        · omega
      obtain ⟨hc, hv, rfl, rfl⟩ := (decodeUtf8_eq hw.1 hw.2).mp hd
      have hrest : ((b :: bs).drop (octetWidth b)).length ≤ n := by
        simp only [List.length_drop, List.length_cons]
        omega
      have ih (values : List Nat) : decodeUpTo .utf8 n (offset + octetWidth b) _ = .ok values ↔ _ :=
        decodeUpTo_utf8_iff hrest
      simp only []
      constructor
      · intro h
        cases hr : decodeUpTo .utf8 n (offset + octetWidth b) ((b :: bs).drop (octetWidth b)) with
        | error e =>
          rw [hr] at h
          cases h
        | ok rest =>
          rw [hr] at h
          obtain ⟨cs, hcs, hs, rfl⟩ := (ih rest).mp hr
          obtain rfl := Except.ok.inj h
          exact ⟨_, splits_cons.mpr ⟨hw.1, hw.2, cs, rfl, hcs⟩,
            List.forall_mem_cons.mpr ⟨⟨hc, hv⟩, hs⟩, rfl⟩
      · rintro ⟨_, hcs', hs, rfl⟩
        obtain ⟨-, -, cs, rfl, hcs⟩ := splits_cons.mp hcs'
        rw [(ih _).mpr ⟨cs, hcs, fun c hc => hs c (List.mem_cons_of_mem _ hc), rfl⟩]
        rfl

theorem decodeAll_utf8_iff {b : Bytes} {values : List Nat} :
    decodeAll .utf8 b = .ok values ↔ ∃ cs, Splits b cs ∧
      (∀ c ∈ cs, Shortest c ∧ isScalarValue (codePoint c) = true) ∧ cs.map codePoint = values :=
  decodeUpTo_utf8_iff (Nat.le_refl _)

/-- A text that is not decoded is reported. -/
theorem decodeUpTo_utf8_error : ∀ {n offset : Nat} {b : Bytes} {e : Fault}, b.length ≤ n →
    decodeUpTo .utf8 n offset b = .error e → ∃ problem k value, e = .reported (.reader problem k value)
  | n, _, [], e, _, h => by cases n <;> cases h
  | 0, _, _ :: _, _, hn, _ => by simp at hn
  | n + 1, offset, b :: bs, e, hn, h => by
    have hn : bs.length ≤ n := by simpa using hn
    have hdecode : decode .utf8 true (b :: bs) = decodeUtf8 true (b :: bs) := if_neg (by decide)
    rw [decodeUpTo, hdecode, decodeUtf8] at h
    split_ifs at h with h0 hl
    · exact ⟨_, _, _, (Except.error.inj h).symm⟩
    · exact ⟨_, _, _, (Except.error.inj h).symm⟩
    have hrest : ((b :: bs).drop (octetWidth b)).length ≤ n := by
      simp only [List.length_drop, List.length_cons]
      omega
    cases ht : trailingBits (leadBits b).toNat 1 (bs.take (octetWidth b - 1)) with
    | error e =>
      rw [ht] at h
      exact ⟨_, _, _, (Except.error.inj h).symm⟩
    | ok value =>
      rw [ht] at h
      simp only [] at h
      split_ifs at h
      · exact ⟨_, _, _, (Except.error.inj h).symm⟩
      · exact ⟨_, _, _, (Except.error.inj h).symm⟩
      · simp only [] at h
        cases hr : decodeUpTo .utf8 n (offset + octetWidth b) ((b :: bs).drop (octetWidth b)) with
        | ok rest =>
          rw [hr] at h
          cases h
        | error e' =>
          rw [hr] at h
          exact Except.error.inj h ▸ decodeUpTo_utf8_error hrest hr

/-! ## The two checks side by side -/

/-- The string is a sequence of characters in their shortest form, and each is a scalar value where
all are. -/
def OfScalarValues (b : Bytes) : Prop :=
  ∀ cs, Splits b cs → (∀ c ∈ cs, Shortest c) → ∀ c ∈ cs, isScalarValue (codePoint c) = true

theorem decodeAll_isOk_iff {b : Bytes} :
    (¬∃ problem offset value, decodeAll .utf8 b = .error (.reported (.reader problem offset value)))
      ↔ ∃ values, decodeAll .utf8 b = .ok values := by
  constructor
  · intro h
    cases hd : decodeAll .utf8 b with
    | ok values => exact ⟨values, rfl⟩
    | error e =>
      obtain ⟨problem, k, value, rfl⟩ := decodeUpTo_utf8_error (Nat.le_refl _) hd
      exact absurd ⟨problem, k, value, hd⟩ h
  · rintro ⟨values, h⟩ ⟨_, _, _, h'⟩
    rw [h] at h'
    cases h'

/-- The two checks agree exactly on the strings that hold no surrogate and no value beyond the last
scalar value, or that neither accepts. -/
theorem utf8_checks_agree_iff (b : Bytes) :
    (checkUtf8 b = true ↔ ¬∃ problem offset value,
        decodeAll .utf8 b = .error (.reported (.reader problem offset value)))
      ↔ OfScalarValues b := by
  simp only [decodeAll_isOk_iff, checkUtf8_iff, decodeAll_utf8_iff]
  constructor
  · intro h cs hcs hs c hc
    obtain ⟨_, cs', hcs', hs', -⟩ := h.mp ⟨cs, hcs, hs⟩
    obtain rfl : cs = cs' :=
      Option.some.inj ((characters_eq_some.mpr hcs).symm.trans (characters_eq_some.mpr hcs'))
    exact (hs' c hc).2
  · intro h
    constructor
    · rintro ⟨cs, hcs, hs⟩
      exact ⟨_, cs, hcs, fun c hc => ⟨hs c hc, h cs hcs hs c hc⟩, rfl⟩
    · rintro ⟨_, cs, hcs, hs, -⟩
      exact ⟨cs, hcs, fun c hc => (hs c hc).1⟩

/-- U+D800 as an application may pass it. -/
theorem surrogate_disagrees : ¬(checkUtf8 [0xED, 0xA0, 0x80] = true ↔ ¬∃ problem offset value,
    decodeAll .utf8 [0xED, 0xA0, 0x80] = .error (.reported (.reader problem offset value))) := by
  intro h
  refine h.mp (by decide) ⟨"invalid Unicode character", 0, 0xD800, ?_⟩
  rfl

end LibYaml
