import LibYaml.Emitter.Utf16

/-!
# What the reader decodes

A character is decoded just where the bytes start with its encoding, and what is found of it does not
depend on how much more has been read.
-/

namespace LibYaml

/-- The bytes of a code point in an encoding. -/
def encoded (encoding : Encoding) (value : Nat) : Bytes :=
  if encoding = .utf16le ∨ encoding = .utf16be then utf16 encoding value else encodeOctets value

/-! ## Shortest forms -/

section Shortest

variable {c : Bytes} {b : UInt8} {value : Nat}

theorem octet_cases (P : UInt8 → Prop) (h : ∀ n < 256, P (UInt8.ofNat n)) (b : UInt8) : P b := by
  have := h b.toNat b.toNat_lt
  rwa [UInt8.ofNat_toNat] at this

theorem single_octet_inv (b : UInt8) : octetWidth b = 1 → (leadBits b).toNat.toUInt8 = b ∧ (leadBits b).toNat < 128 :=
  octet_cases (fun b => octetWidth b = 1 → (leadBits b).toNat.toUInt8 = b ∧ (leadBits b).toNat < 128)
    (by decide +kernel) b

theorem lead_two_inv (b : UInt8) :
    octetWidth b = 2 → (0xC0 + (leadBits b).toNat).toUInt8 = b ∧ (leadBits b).toNat < 32 :=
  octet_cases (fun b => octetWidth b = 2 → (0xC0 + (leadBits b).toNat).toUInt8 = b ∧ (leadBits b).toNat < 32)
    (by decide +kernel) b

theorem lead_three_inv (b : UInt8) :
    octetWidth b = 3 → (0xE0 + (leadBits b).toNat).toUInt8 = b ∧ (leadBits b).toNat < 16 :=
  octet_cases (fun b => octetWidth b = 3 → (0xE0 + (leadBits b).toNat).toUInt8 = b ∧ (leadBits b).toNat < 16)
    (by decide +kernel) b

theorem lead_four_inv (b : UInt8) :
    octetWidth b = 4 → (0xF0 + (leadBits b).toNat).toUInt8 = b ∧ (leadBits b).toNat < 8 :=
  octet_cases (fun b => octetWidth b = 4 → (0xF0 + (leadBits b).toNat).toUInt8 = b ∧ (leadBits b).toNat < 8)
    (by decide +kernel) b

theorem trailing_octet_inv (b : UInt8) :
    b &&& 0xC0 = 0x80 → (0x80 + (b &&& 0x3F).toNat).toUInt8 = b ∧ (b &&& 0x3F).toNat < 64 :=
  octet_cases (fun b => b &&& 0xC0 = 0x80 → (0x80 + (b &&& 0x3F).toNat).toUInt8 = b ∧ (b &&& 0x3F).toNat < 64)
    (by decide +kernel) b

/-- A character in its shortest form is what is written for its code point. -/
theorem Shortest.eq_encodeOctets (h : Shortest c) : c = encodeOctets (codePoint c) := by
  have hlen := h.length
  have hle := h.character.length_le
  have ht := h.trailing
  obtain ⟨hne, hw⟩ := h.character
  have hp := codePoint_eq (c := c) (by have := h.character.length_pos; omega)
  rcases c with _ | ⟨b, _ | ⟨b₁, _ | ⟨b₂, _ | ⟨b₃, _ | ⟨b₄, c⟩⟩⟩⟩⟩
  · exact absurd rfl hne
  · obtain ⟨hb, hlt⟩ := single_octet_inv b hw
    have hp : codePoint [b] = (leadBits b).toNat := hp
    rw [hp, encodeOctets, if_pos (by omega), hb]
  · obtain ⟨hb, hlt⟩ := lead_two_inv b hw
    obtain ⟨hb₁, hlt₁⟩ := trailing_octet_inv b₁ (ht b₁ List.mem_cons_self)
    have hp : codePoint [b, b₁] = (leadBits b).toNat * 64 + (b₁ &&& 0x3F).toNat := hp
    rw [hp] at hlen ⊢
    generalize (leadBits b).toNat = x at *
    generalize (b₁ &&& 0x3F).toNat = y at *
    simp [validLength] at hlen
    rw [encodeOctets, if_neg (by omega), if_pos (by omega)]
    have h1 : (x * 64 + y) / 64 = x := by omega
    have h2 : (x * 64 + y) % 64 = y := by omega
    rw [h1, h2, hb, hb₁]
  · obtain ⟨hb, hlt⟩ := lead_three_inv b hw
    obtain ⟨hb₁, hlt₁⟩ := trailing_octet_inv b₁ (ht b₁ (by simp))
    obtain ⟨hb₂, hlt₂⟩ := trailing_octet_inv b₂ (ht b₂ (by simp))
    have hp : codePoint [b, b₁, b₂]
        = ((leadBits b).toNat * 64 + (b₁ &&& 0x3F).toNat) * 64 + (b₂ &&& 0x3F).toNat := hp
    rw [hp] at hlen ⊢
    generalize (leadBits b).toNat = x at *
    generalize (b₁ &&& 0x3F).toNat = y at *
    generalize (b₂ &&& 0x3F).toNat = z at *
    simp [validLength] at hlen
    rw [encodeOctets, if_neg (by omega), if_neg (by omega), if_pos (by omega)]
    have h1 : ((x * 64 + y) * 64 + z) / 4096 = x := by omega
    have h2 : ((x * 64 + y) * 64 + z) / 64 % 64 = y := by omega
    have h3 : ((x * 64 + y) * 64 + z) % 64 = z := by omega
    rw [h1, h2, h3, hb, hb₁, hb₂]
  · obtain ⟨hb, hlt⟩ := lead_four_inv b hw
    obtain ⟨hb₁, hlt₁⟩ := trailing_octet_inv b₁ (ht b₁ (by simp))
    obtain ⟨hb₂, hlt₂⟩ := trailing_octet_inv b₂ (ht b₂ (by simp))
    obtain ⟨hb₃, hlt₃⟩ := trailing_octet_inv b₃ (ht b₃ (by simp))
    have hp : codePoint [b, b₁, b₂, b₃] = (((leadBits b).toNat * 64 + (b₁ &&& 0x3F).toNat) * 64
        + (b₂ &&& 0x3F).toNat) * 64 + (b₃ &&& 0x3F).toNat := hp
    rw [hp] at hlen ⊢
    generalize (leadBits b).toNat = x at *
    generalize (b₁ &&& 0x3F).toNat = y at *
    generalize (b₂ &&& 0x3F).toNat = z at *
    generalize (b₃ &&& 0x3F).toNat = u at *
    simp [validLength] at hlen
    rw [encodeOctets, if_neg (by omega), if_neg (by omega), if_neg (by omega)]
    have h1 : (((x * 64 + y) * 64 + z) * 64 + u) / 262144 = x := by omega
    have h2 : (((x * 64 + y) * 64 + z) * 64 + u) / 4096 % 64 = y := by omega
    have h3 : (((x * 64 + y) * 64 + z) * 64 + u) / 64 % 64 = z := by omega
    have h4 : (((x * 64 + y) * 64 + z) * 64 + u) % 64 = u := by omega
    rw [h1, h2, h3, h4, hb, hb₁, hb₂, hb₃]
  · simp only [List.length_cons] at hle
    omega

end Shortest

/-! ## Characters -/

section Decode

variable {encoding : Encoding} {eof : Bool} {raw rest : Bytes} {value width k : Nat} {a b : UInt8} {bs : Bytes}

theorem encoded_utf16 (he : encoding = .utf16le ∨ encoding = .utf16be) : encoded encoding value = utf16 encoding value :=
  if_pos he

theorem encoded_octets (he : ¬(encoding = .utf16le ∨ encoding = .utf16be)) : encoded encoding value = encodeOctets value :=
  if_neg he

/-- Where the bytes start with a character it is decoded. -/
theorem decode_encoded (h : isScalarValue value = true) :
    decode encoding eof (encoded encoding value ++ rest) = .character value (encoded encoding value).length := by
  by_cases he : encoding = .utf16le ∨ encoding = .utf16be
  · rw [encoded_utf16 he]
    exact decode_utf16 he h
  · rw [encoded_octets he, decode, if_neg he]
    obtain ⟨hs, hv⟩ := encodeOctets_spec (isScalarValue_le h)
    obtain ⟨hne, hw⟩ := hs.character
    cases hc : encodeOctets value with
    | nil => exact absurd hc hne
    | cons b bs =>
      rw [hc] at hs hv hw
      have hw : octetWidth b = (b :: bs).length := hw
      have htake : (b :: (bs ++ rest)).take (octetWidth b) = b :: bs := by
        rw [hw, ← List.cons_append, List.take_left]
      rw [List.cons_append]
      refine (decodeUtf8_eq (by rw [hw]; exact Nat.succ_pos _) ?_).mpr ⟨?_, h, ?_, hw⟩
      · rw [hw, List.length_append, List.length_cons]
        omega
      · rwa [htake]
      · rwa [htake]

theorem unitOctets_unitAt :
    unitOctets encoding (unitAt encoding (a :: b :: raw) 0) = [a, b] ∧ unitAt encoding (a :: b :: raw) 0 < 0x10000 := by
  have ha := a.toNat_lt
  have hb := b.toNat_lt
  unfold unitOctets unitAt
  split_ifs with hle
  · have h1 : (((a :: b :: raw).getD 0 0).toNat + ((a :: b :: raw).getD (0 + 1) 0).toNat * 2 ^ 8) % 0x100 = a.toNat := by
      change (a.toNat + b.toNat * 2 ^ 8) % 0x100 = a.toNat
      omega
    have h2 : (((a :: b :: raw).getD 0 0).toNat + ((a :: b :: raw).getD (0 + 1) 0).toNat * 2 ^ 8) / 0x100 = b.toNat := by
      change (a.toNat + b.toNat * 2 ^ 8) / 0x100 = b.toNat
      omega
    rw [h1, h2]
    refine ⟨by simp, ?_⟩
    change a.toNat + b.toNat * 2 ^ 8 < 0x10000
    omega
  · have h1 : (((a :: b :: raw).getD (0 + 1) 0).toNat + ((a :: b :: raw).getD 0 0).toNat * 2 ^ 8) / 0x100 = a.toNat := by
      change (b.toNat + a.toNat * 2 ^ 8) / 0x100 = a.toNat
      omega
    have h2 : (((a :: b :: raw).getD (0 + 1) 0).toNat + ((a :: b :: raw).getD 0 0).toNat * 2 ^ 8) % 0x100 = b.toNat := by
      change (b.toNat + a.toNat * 2 ^ 8) % 0x100 = b.toNat
      omega
    rw [h1, h2]
    refine ⟨by simp, ?_⟩
    change b.toNat + a.toNat * 2 ^ 8 < 0x10000
    omega

/-- What is made of two units. -/
theorem decodeUtf16_cons : decodeUtf16 encoding eof (a :: b :: raw) =
    if isLowSurrogate (unitAt encoding [a, b] 0) then
      .invalid "unexpected low surrogate area" 0 (unitAt encoding [a, b] 0)
    else if isHighSurrogate (unitAt encoding [a, b] 0) then
      if raw.length < 2 then cutShort eof "incomplete UTF-16 surrogate pair"
      else if !isLowSurrogate (unitAt encoding raw 0) then
        .invalid "expected low surrogate area" 2 (unitAt encoding raw 0)
      else .character (0x10000 + unitAt encoding [a, b] 0 % 2 ^ 10 * 2 ^ 10 + unitAt encoding raw 0 % 2 ^ 10) 4
    else .character (unitAt encoding [a, b] 0) 2 := by
  have hfirst : unitAt encoding (a :: b :: raw) 0 = unitAt encoding [a, b] 0 := rfl
  have hsecond : unitAt encoding (a :: b :: raw) 2 = unitAt encoding raw 0 := rfl
  have hlen : ((a :: b :: raw).length < 4) = (raw.length < 2) := by
    rw [List.length_cons, List.length_cons]
    exact propext (by omega)
  rw [decodeUtf16, if_neg (by simp), hfirst, hsecond]
  simp only [hlen]

/-- What is decoded is what the bytes start with. -/
theorem encoded_of_decode (h : decode encoding eof raw = .character value width) :
    isScalarValue value = true ∧ width = (encoded encoding value).length ∧ ∃ rest, raw = encoded encoding value ++ rest := by
  by_cases he : encoding = .utf16le ∨ encoding = .utf16be
  · rw [decode, if_pos he] at h
    rw [encoded_utf16 he]
    rcases raw with _ | ⟨a, _ | ⟨b, raw⟩⟩
    · cases eof <;> cases h
    · cases eof <;> cases h
    obtain ⟨hunit, hlt⟩ := @unitOctets_unitAt encoding [] a b
    rw [decodeUtf16_cons] at h
    obtain ⟨unit, hu⟩ : ∃ unit, unitAt encoding [a, b] 0 = unit := ⟨_, rfl⟩
    rw [hu] at h hunit hlt
    cases hlow : isLowSurrogate unit with
    | true =>
      rw [hlow, if_pos rfl] at h
      cases h
    | false =>
      rw [hlow, if_neg Bool.false_ne_true] at h
      rw [isLowSurrogate, decide_eq_false_iff_not] at hlow
      cases hhigh : isHighSurrogate unit with
      | false =>
        rw [hhigh, if_neg Bool.false_ne_true] at h
        obtain ⟨rfl, rfl⟩ := Decoded.character.inj h
        rw [isHighSurrogate, decide_eq_false_iff_not] at hhigh
        have hvalue : utf16 encoding unit = [a, b] := by
          rw [utf16, utf16Units, if_pos hlt, List.flatMap_cons, List.flatMap_nil, List.append_nil, hunit]
        rw [hvalue]
        refine ⟨?_, rfl, raw, rfl⟩
        simp [isScalarValue]
        omega
      | true =>
        rw [hhigh, if_pos rfl] at h
        rw [isHighSurrogate, decide_eq_true_iff] at hhigh
        rcases raw with _ | ⟨c, _ | ⟨d, raw⟩⟩
        · cases eof <;> cases h
        · cases eof <;> cases h
        obtain ⟨hunit₂, hlt₂⟩ := @unitOctets_unitAt encoding raw c d
        obtain ⟨unit₂, hu₂⟩ : ∃ unit, unitAt encoding (c :: d :: raw) 0 = unit := ⟨_, rfl⟩
        rw [if_neg (by simp)] at h
        rw [hu₂] at h hunit₂ hlt₂
        cases hlow₂ : isLowSurrogate unit₂ with
        | false =>
          rw [hlow₂, Bool.not_false, if_pos rfl] at h
          cases h
        | true =>
          rw [hlow₂, Bool.not_true, if_neg Bool.false_ne_true] at h
          obtain ⟨rfl, rfl⟩ := Decoded.character.inj h
          rw [isLowSurrogate, decide_eq_true_iff] at hlow₂
          have h1 : 0xD800 + (0x10000 + unit % 2 ^ 10 * 2 ^ 10 + unit₂ % 2 ^ 10 - 0x10000) / 0x400 = unit := by omega
          have h2 : 0xDC00 + (0x10000 + unit % 2 ^ 10 * 2 ^ 10 + unit₂ % 2 ^ 10 - 0x10000) % 0x400 = unit₂ := by omega
          have hvalue : utf16 encoding (0x10000 + unit % 2 ^ 10 * 2 ^ 10 + unit₂ % 2 ^ 10) = [a, b, c, d] := by
            rw [utf16, utf16Units, if_neg (by omega), h1, h2, List.flatMap_cons, List.flatMap_cons, List.flatMap_nil,
              List.append_nil, hunit, hunit₂]
            rfl
          rw [hvalue]
          refine ⟨?_, rfl, raw, rfl⟩
          simp [isScalarValue]
          omega
  · rw [decode, if_neg he] at h
    rw [encoded_octets he]
    cases raw with
    | nil => cases h
    | cons b bs =>
      have hw : 0 < octetWidth b ∧ octetWidth b ≤ bs.length + 1 := by
        rw [decodeUtf8] at h
        split_ifs at h with h0 hl
        · cases eof <;> cases h
        · omega
      obtain ⟨hc, hv, hp, rfl⟩ := (decodeUtf8_eq hw.1 hw.2).mp h
      have htake : (b :: bs).take (octetWidth b) = encodeOctets value := by
        rw [hc.eq_encodeOctets, hp]
      refine ⟨hv, ?_, (b :: bs).drop (octetWidth b), ?_⟩
      · rw [← htake, List.length_take, List.length_cons]
        omega
      · rw [← htake, List.take_append_drop]

/-- What is decoded or refused stays so, however much more is read. -/
theorem decode_more (hne : raw ≠ []) (h : decode encoding false raw ≠ .incomplete) :
    decode encoding eof (raw ++ rest) = decode encoding false raw := by
  by_cases he : encoding = .utf16le ∨ encoding = .utf16be
  · rw [decode, if_pos he] at h ⊢
    rw [decode, if_pos he]
    rcases raw with _ | ⟨a, _ | ⟨b, raw⟩⟩
    · exact absurd rfl hne
    · exact absurd rfl h
    rw [decodeUtf16_cons] at h ⊢
    rw [List.cons_append, List.cons_append, decodeUtf16_cons]
    cases hlow : isLowSurrogate (unitAt encoding [a, b] 0) with
    | true => rfl
    | false =>
      cases hhigh : isHighSurrogate (unitAt encoding [a, b] 0) with
      | false => rfl
      | true =>
        rw [hlow, hhigh] at h
        rcases raw with _ | ⟨c, _ | ⟨d, raw⟩⟩
        · exact absurd rfl h
        · exact absurd rfl h
        · have hsecond : unitAt encoding (c :: d :: raw ++ rest) 0 = unitAt encoding (c :: d :: raw) 0 := rfl
          rw [hsecond, if_neg (c := (c :: d :: raw ++ rest).length < 2) (by simp),
            if_neg (c := (c :: d :: raw).length < 2) (by simp)]
  · rw [decode, if_neg he] at h ⊢
    rw [decode, if_neg he]
    cases raw with
    | nil => exact absurd rfl hne
    | cons b bs =>
      rw [decodeUtf8] at h ⊢
      rw [List.cons_append, decodeUtf8]
      split_ifs at h with hw hl
      · rw [if_pos hw, if_pos hw]
      · exact absurd rfl h
      · have hlen : octetWidth b - 1 ≤ bs.length := by omega
        rw [if_neg hw, if_neg (by rw [List.length_append]; omega), if_neg hw, if_neg hl,
          List.take_append_of_le_length hlen]

/-- A character that is cut short is short. -/
theorem decode_incomplete (hne : raw ≠ []) (h : decode encoding eof raw = .incomplete) : eof = false ∧ raw.length < 4 := by
  have hcut {problem : String} (h : cutShort eof problem = .incomplete) : eof = false := by
    cases eof with
    | false => rfl
    | true => cases h
  by_cases he : encoding = .utf16le ∨ encoding = .utf16be
  · rw [decode, if_pos he, decodeUtf16] at h
    simp only [] at h
    split_ifs at h with h1 h2 h3 h4
    · exact ⟨hcut h, by omega⟩
    · exact ⟨hcut h, h4⟩
  · rw [decode, if_neg he] at h
    cases raw with
    | nil => exact absurd rfl hne
    | cons b bs =>
      rw [decodeUtf8] at h
      have := octetWidth_le b
      split_ifs at h with h1 h2
      · exact ⟨hcut h, by rw [List.length_cons]; omega⟩
      · split at h
        · cases h
        · split_ifs at h

end Decode

end LibYaml
