import LibYaml.Emitter.Machine
import LibYaml.Reader.Validators

/-!
# UTF-16 output

The recoding loop keeps eight bits of a low surrogate's high byte where two belong, so it is right
for the basic plane and for the first 1024 characters of each plane above it.
-/

namespace LibYaml

/-! ## UTF-8 back and forth -/

section Octets

theorem lead_two : ∀ k < 32, octetWidth (0xC0 + k).toUInt8 = 2
    ∧ (leadBits (0xC0 + k).toUInt8).toNat = k := by decide

theorem lead_three : ∀ k < 16, octetWidth (0xE0 + k).toUInt8 = 3
    ∧ (leadBits (0xE0 + k).toUInt8).toNat = k := by decide

theorem lead_four : ∀ k < 8, octetWidth (0xF0 + k).toUInt8 = 4
    ∧ (leadBits (0xF0 + k).toUInt8).toNat = k := by decide

theorem trailing_octet : ∀ k < 64, (0x80 + k).toUInt8 &&& 0xC0 = 0x80
    ∧ ((0x80 + k).toUInt8 &&& 0x3F).toNat = k := by decide

theorem single_octet : ∀ k < 128, octetWidth k.toUInt8 = 1 ∧ (leadBits k.toUInt8).toNat = k := by
  decide

variable {value : Nat}

theorem shortest_cons {b : UInt8} {bs : Bytes} (hw : octetWidth b = bs.length + 1)
    (ht : ∀ octet ∈ bs, octet &&& 0xC0 = 0x80)
    (hv : bs.foldl (fun value octet => value * 64 + (octet &&& 0x3F).toNat) (leadBits b).toNat = value)
    (hl : validLength (bs.length + 1) value = true) :
    Shortest (b :: bs) ∧ codePoint (b :: bs) = value := by
  have hc : codePoint (b :: bs) = value := by
    rw [codePoint_eq (by rw [List.headD_cons]; omega)]
    exact hv
  refine ⟨⟨⟨List.cons_ne_nil _ _, hw⟩, ht, ?_⟩, hc⟩
  rwa [List.length_cons, hc]

/-- What is written for a code point is a character that stands for it. -/
theorem encodeOctets_spec (h : value ≤ 0x10FFFF) :
    Shortest (encodeOctets value) ∧ codePoint (encodeOctets value) = value := by
  have t (k : Nat) := trailing_octet (k % 64) (Nat.mod_lt k (by decide))
  unfold encodeOctets
  split_ifs with h1 h2 h3
  · obtain ⟨hw, hl⟩ := single_octet value (by omega)
    exact shortest_cons hw nofun hl rfl
  · obtain ⟨hw, hl⟩ := lead_two (value / 64) (by omega)
    refine shortest_cons hw ?_ ?_ ?_
    · exact List.forall_mem_cons.mpr ⟨(t _).1, nofun⟩
    · simp only [List.foldl_cons, List.foldl_nil, hl, (t value).2]
      omega
    · simp [validLength]
      omega
  · obtain ⟨hw, hl⟩ := lead_three (value / 4096) (by omega)
    refine shortest_cons hw ?_ ?_ ?_
    · exact List.forall_mem_cons.mpr ⟨(t _).1, List.forall_mem_cons.mpr ⟨(t _).1, nofun⟩⟩
    · simp only [List.foldl_cons, List.foldl_nil, hl, (t value).2, (t (value / 64)).2]
      omega
    · simp [validLength]
      omega
  · obtain ⟨hw, hl⟩ := lead_four (value / 262144) (by omega)
    refine shortest_cons hw ?_ ?_ ?_
    · exact List.forall_mem_cons.mpr ⟨(t _).1, List.forall_mem_cons.mpr ⟨(t _).1,
        List.forall_mem_cons.mpr ⟨(t _).1, nofun⟩⟩⟩
    · simp only [List.foldl_cons, List.foldl_nil, hl, (t value).2, (t (value / 64)).2,
        (t (value / 4096)).2]
      omega
    · simp [validLength]
      omega

theorem splits_encode {values : List Nat} (h : ∀ value ∈ values, value ≤ 0x10FFFF) :
    Splits (values.flatMap encodeOctets) (values.map encodeOctets) := by
  refine ⟨(List.flatMap_def).symm, fun c hc => ?_⟩
  obtain ⟨value, hv, rfl⟩ := List.mem_map.mp hc
  exact (encodeOctets_spec (h value hv)).1.character

theorem isScalarValue_le (h : isScalarValue value = true) : value ≤ 0x10FFFF := by
  simp only [isScalarValue, Bool.and_eq_true, decide_eq_true_eq] at h
  exact h.2

end Octets

/-! ## UTF-16 -/

/-- The 16-bit units of a code point. -/
def utf16Units (value : Nat) : List Nat :=
  if value < 0x10000 then [value]
  else [0xD800 + (value - 0x10000) / 0x400, 0xDC00 + (value - 0x10000) % 0x400]

/-- The bytes of a 16-bit unit in the byte order of the encoding. -/
def unitOctets (encoding : Encoding) (unit : Nat) : Bytes :=
  if encoding = .utf16le then [(unit % 0x100).toUInt8, (unit / 0x100).toUInt8]
  else [(unit / 0x100).toUInt8, (unit % 0x100).toUInt8]

/-- UTF-16 in that byte order. -/
def utf16 (encoding : Encoding) (value : Nat) : Bytes :=
  (utf16Units value).flatMap (unitOctets encoding)

/-- The six middle bits that spoil a low surrogate are clear. -/
def MiddleClear (value : Nat) : Prop := 0x10000 ≤ value → (value - 0x10000) / 0x400 % 0x40 = 0

section Recode

variable {encoding : Encoding} {value : Nat}

theorem toUInt8_inj {m n : Nat} : m.toUInt8 = n.toUInt8 ↔ m % 256 = n % 256 := by
  rw [← UInt8.toNat_inj]
  simp

theorem unitBytes_eq {high low unit : Nat} (h : unit < 0x10000) :
    Emitter.unitBytes encoding high low = unitOctets encoding unit ↔
      high % 256 = unit / 256 ∧ low % 256 = unit % 256 := by
  unfold Emitter.unitBytes unitOctets
  split_ifs <;> simp only [List.cons.injEq, toUInt8_inj, and_true] <;> omega

/-- The writer's recoding of a character is right exactly when the middle bits are clear. -/
theorem recode_eq_iff (h : value ≤ 0x10FFFF) :
    Emitter.recode encoding (encodeOctets value) = utf16 encoding value ↔ MiddleClear value := by
  unfold Emitter.recode utf16 utf16Units MiddleClear
  simp only [(encodeOctets_spec h).2]
  split_ifs with hb
  · simp only [List.flatMap_cons, List.flatMap_nil, List.append_nil, unitBytes_eq hb]
    exact ⟨fun _ hle => absurd hb (Nat.not_lt.mpr hle), fun _ => ⟨by omega, trivial⟩⟩
  · have hlen {e : Encoding} {high low : Nat} : (Emitter.unitBytes e high low).length = 2 := by
      unfold Emitter.unitBytes
      split <;> rfl
    have hlen' {e : Encoding} {unit : Nat} : (unitOctets e unit).length = 2 := by
      unfold unitOctets
      split <;> rfl
    simp only [List.flatMap_cons, List.flatMap_nil, List.append_nil]
    have hinj {a b c d : Bytes} (h : a.length = c.length) : a ++ b = c ++ d ↔ a = c ∧ b = d :=
      ⟨fun h' => List.append_inj h' h, fun h' => by rw [h'.1, h'.2]⟩
    rw [hinj (hlen.trans hlen'.symm), unitBytes_eq (by omega), unitBytes_eq (by omega)]
    have hle : 0x10000 ≤ value := Nat.not_lt.mp hb
    refine ⟨fun h _ => by omega, fun h => ?_⟩
    have := h hle
    omega

theorem length_unitOctets {unit : Nat} : (unitOctets encoding unit).length = 2 := by
  unfold unitOctets
  split <;> rfl

theorem recode_length (h : value ≤ 0x10FFFF) :
    (Emitter.recode encoding (encodeOctets value)).length = (utf16 encoding value).length := by
  have hlen {high low : Nat} : (Emitter.unitBytes encoding high low).length = 2 := by
    unfold Emitter.unitBytes
    split <;> rfl
  unfold Emitter.recode utf16 utf16Units
  simp only [(encodeOctets_spec h).2]
  split_ifs <;> simp [hlen, length_unitOctets]

/-- A text is recoded rightly exactly when each of its characters is. -/
theorem recode_all_iff : ∀ {values : List Nat}, (∀ value ∈ values, value ≤ 0x10FFFF) →
    ((values.map encodeOctets).flatMap (Emitter.recode encoding) = values.flatMap (utf16 encoding)
      ↔ ∀ value ∈ values, MiddleClear value)
  | [], _ => by simp
  | value :: values, h => by
    obtain ⟨hv, h⟩ := List.forall_mem_cons.mp h
    have ih := recode_all_iff h
    simp only [List.map_cons, List.flatMap_cons, List.forall_mem_cons, ← ih]
    rw [← recode_eq_iff hv]
    exact ⟨fun h' => List.append_inj h' (recode_length hv), fun h' => by rw [h'.1, h'.2]⟩

/-! ## Reading it back -/

theorem unitAt_unitOctets (he : encoding = .utf16le ∨ encoding = .utf16be) {unit : Nat}
    (h : unit < 0x10000) {rest : Bytes} :
    unitAt encoding (unitOctets encoding unit ++ rest) 0 = unit := by
  have h1 : (unit % 0x100).toUInt8.toNat = unit % 0x100 := by simp
  have h2 : (unit / 0x100).toUInt8.toNat = unit / 0x100 := by
    simp
    omega
  rcases he with rfl | rfl
  · show (unit % 0x100).toUInt8.toNat + (unit / 0x100).toUInt8.toNat * 2 ^ 8 = unit
    rw [h1, h2]
    omega
  · show (unit % 0x100).toUInt8.toNat + (unit / 0x100).toUInt8.toNat * 2 ^ 8 = unit
    rw [h1, h2]
    omega

theorem unitAt_second {high : Nat} {rest : Bytes} :
    unitAt encoding (unitOctets encoding high ++ rest) 2 = unitAt encoding rest 0 := by
  unfold unitOctets
  split <;> rfl

theorem decodeUtf16_unit (he : encoding = .utf16le ∨ encoding = .utf16be) {unit : Nat}
    (h : unit < 0x10000) (hs : ¬(0xD800 ≤ unit ∧ unit ≤ 0xDFFF)) {eof : Bool} {rest : Bytes} :
    decodeUtf16 encoding eof (unitOctets encoding unit ++ rest) = .character unit 2 := by
  have hlen : ¬(unitOctets encoding unit ++ rest).length < 2 := by
    rw [List.length_append, length_unitOctets]
    omega
  have hlow : isLowSurrogate unit = false := by
    rw [isLowSurrogate, decide_eq_false_iff_not]
    omega
  have hhigh : isHighSurrogate unit = false := by
    rw [isHighSurrogate, decide_eq_false_iff_not]
    omega
  rw [decodeUtf16, if_neg hlen, unitAt_unitOctets he h]
  simp [hlow, hhigh]

theorem decodeUtf16_pair (he : encoding = .utf16le ∨ encoding = .utf16be) {high low : Nat}
    (hhigh : 0xD800 ≤ high ∧ high ≤ 0xDBFF) (hlow : 0xDC00 ≤ low ∧ low ≤ 0xDFFF) {eof : Bool}
    {rest : Bytes} :
    decodeUtf16 encoding eof (unitOctets encoding high ++ (unitOctets encoding low ++ rest))
      = .character (0x10000 + high % 2 ^ 10 * 2 ^ 10 + low % 2 ^ 10) 4 := by
  have hlen : (unitOctets encoding high ++ (unitOctets encoding low ++ rest)).length
      = rest.length + 4 := by
    simp only [List.length_append, length_unitOctets]
    omega
  have h1 : isLowSurrogate high = false := by
    rw [isLowSurrogate, decide_eq_false_iff_not]
    omega
  have h2 : isHighSurrogate high = true := by
    rw [isHighSurrogate, decide_eq_true_eq]
    omega
  have h3 : isLowSurrogate low = true := by
    rw [isLowSurrogate, decide_eq_true_eq]
    omega
  rw [decodeUtf16, if_neg (by omega), unitAt_unitOctets he (by omega), unitAt_second,
    unitAt_unitOctets he (by omega)]
  simp only [h1, h2, h3, hlen, Bool.false_eq_true, if_false, if_true, Bool.not_true]
  rw [if_neg (by omega)]

theorem decode_utf16 (he : encoding = .utf16le ∨ encoding = .utf16be)
    (h : isScalarValue value = true) {eof : Bool} {rest : Bytes} :
    decode encoding eof (utf16 encoding value ++ rest)
      = .character value (utf16 encoding value).length := by
  have hle := isScalarValue_le h
  have hs : ¬(0xD800 ≤ value ∧ value ≤ 0xDFFF) := by
    simp only [isScalarValue, Bool.and_eq_true, Bool.not_eq_true', Bool.and_eq_false_iff,
      decide_eq_false_iff_not] at h
    omega
  rw [decode, if_pos he]
  unfold utf16 utf16Units
  split_ifs with hb
  · simp only [List.flatMap_cons, List.flatMap_nil, List.append_nil, length_unitOctets]
    exact decodeUtf16_unit he hb hs
  · simp only [List.flatMap_cons, List.flatMap_nil, List.append_nil, List.length_append,
      length_unitOctets, List.append_assoc]
    have hv : 0x10000 + (0xD800 + (value - 0x10000) / 0x400) % 2 ^ 10 * 2 ^ 10
        + (0xDC00 + (value - 0x10000) % 0x400) % 2 ^ 10 = value := by omega
    rw [decodeUtf16_pair he (by omega) (by omega), hv]

theorem decodeUpTo_utf16 (he : encoding = .utf16le ∨ encoding = .utf16be) :
    ∀ {values : List Nat} {n offset : Nat}, (∀ value ∈ values, isScalarValue value = true) →
      (values.flatMap (utf16 encoding)).length ≤ n →
      decodeUpTo encoding n offset (values.flatMap (utf16 encoding)) = .ok values
  | [], n, _, _, _ => by cases n <;> rfl
  | value :: values, n, offset, hs, hn => by
    obtain ⟨hv, hs⟩ := List.forall_mem_cons.mp hs
    have hpos : 0 < (utf16 encoding value).length := by
      unfold utf16 utf16Units
      split_ifs <;> simp [length_unitOctets]
    rw [List.flatMap_cons, List.length_append] at hn
    have hd : decode encoding true (utf16 encoding value ++ values.flatMap (utf16 encoding)) = _ :=
      decode_utf16 he hv
    obtain ⟨n, rfl⟩ : ∃ m, n = m + 1 := ⟨n - 1, by omega⟩
    have ih (offset : Nat) : decodeUpTo encoding n offset (values.flatMap (utf16 encoding)) = _ :=
      decodeUpTo_utf16 he hs (by omega)
    have hdrop : (utf16 encoding value ++ values.flatMap (utf16 encoding)).drop
        (utf16 encoding value).length = values.flatMap (utf16 encoding) := List.drop_left
    rw [List.flatMap_cons]
    generalize utf16 encoding value ++ values.flatMap (utf16 encoding) = raw at hd hdrop
    cases raw with
    | nil =>
      rw [decode, if_pos he] at hd
      cases hd
    | cons b bs =>
      simp only [decodeUpTo, hd, hdrop, ih]
      rfl

end Recode

/-! ## What a flush hands over -/

namespace Emitter

variable {σ : Type} [WriteHandler σ]

/-- A flush whose handler accepts passes on the buffered characters in UTF-16, from which the reader
gets them back, exactly when none of them has one of the middle bits set. -/
theorem flush_utf16_iff (s : Emitter σ) (values : List Nat)
    (he : s.encoding = .utf16le ∨ s.encoding = .utf16be)
    (hs : ∀ value ∈ values, isScalarValue value = true)
    (hb : s.buffer = values.flatMap encodeOctets) (hr : s.rawBuffer = [])
    (hw : ∀ chunk, (WriteHandler.write chunk s.handler).1 = true) :
    ∃ t flushes, flush s = .ok () t ∧ t.flushes = flushes ++ s.flushes ∧
      ((handedOver flushes = values.flatMap (utf16 s.encoding)
          ∧ decodeAll s.encoding (handedOver flushes) = .ok values)
        ↔ ∀ value ∈ values, MiddleClear value) := by
  have hle : ∀ value ∈ values, value ≤ 0x10FFFF := fun value hv => isScalarValue_le (hs value hv)
  have hback : decodeAll s.encoding (values.flatMap (utf16 s.encoding)) = .ok values :=
    decodeUpTo_utf16 he hs (Nat.le_refl _)
  have hiff : ∀ chunk : Bytes, chunk = (values.map encodeOctets).flatMap (recode s.encoding) →
      ((chunk = values.flatMap (utf16 s.encoding) ∧ decodeAll s.encoding chunk = .ok values)
        ↔ ∀ value ∈ values, MiddleClear value) := by
    rintro _ rfl
    rw [← @recode_all_iff s.encoding values hle]
    exact ⟨And.left, fun h => ⟨h, h ▸ hback⟩⟩
  have hsplit := splits_encode hle
  rw [← hb] at hsplit
  unfold flush
  split_ifs with hnil hutf
  · refine ⟨s, [], rfl, rfl, hiff _ ?_⟩
    rw [hnil, splits_nil] at hsplit
    rw [hsplit]
    rfl
  · rw [hutf] at he
    rcases he with he | he <;> cases he
  · rw [characters_eq_some.mpr hsplit]
    have hw := hw (s.rawBuffer ++ (values.map encodeOctets).flatMap (recode s.encoding))
    simp only []
    split
    · refine ⟨_, [_], rfl, rfl, hiff _ ?_⟩
      simp [handedOver, hr]
    · rename_i heq
      rw [heq] at hw
      cases hw

/-- An emitter that has this text in its buffer. -/
def holding (text : Bytes) : Emitter (List Bool) :=
  { initial { encoding := .utf16le } ([] : List Bool) with buffer := text }

/-- An 'a' in UTF-16LE. -/
theorem flush_utf16_iff_ascii : ∃ t flushes, flush (holding (encodeOctets 0x61)) = .ok () t ∧
    t.flushes = flushes ++ (holding (encodeOctets 0x61)).flushes ∧
      ((handedOver flushes = [0x61].flatMap (utf16 .utf16le)
          ∧ decodeAll .utf16le (handedOver flushes) = .ok [0x61])
        ↔ ∀ value ∈ [0x61], MiddleClear value) :=
  flush_utf16_iff (holding (encodeOctets 0x61)) [0x61] (.inl rfl) (by decide) rfl rfl fun _ => rfl

set_option maxRecDepth 2000 in
/-- U+10400 comes out as D801 E000, which is no surrogate pair. -/
theorem flush_utf16_spoiled : ∃ t f, flush (holding (encodeOctets 0x10400)) = .ok () t ∧
    t.flushes = [f] ∧ f.chunk = [0x01, 0xD8, 0x00, 0xE0] ∧ f.chunk ≠ utf16 .utf16le 0x10400 ∧
    decodeAll .utf16le f.chunk
      = .error (.reported (.reader "expected low surrogate area" 2 0xE000)) :=
  ⟨_, ⟨encodeOctets 0x10400, [0x01, 0xD8, 0x00, 0xE0], true⟩, rfl, rfl, rfl, by decide, rfl⟩

end Emitter

end LibYaml
