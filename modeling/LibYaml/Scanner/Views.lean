import LibYaml.Scanner.Machine

/-!
# What a check can see

Two views agree as far as `n` characters when they show the same characters that far, or up to the
same NUL.  A check is local to `n` characters when it cannot tell such views apart: it looks at
nothing behind a NUL and at nothing behind the `n` characters.
-/

namespace LibYaml

/-- What the pointer sees behind its first character. -/
def next (v : View) : View := behind (width v) v

def Agree : Nat → View → View → Prop
  | 0, _, _ => True
  | n + 1, v, w => v 0 = w 0 ∧ (v 0 ≠ 0 →
      0 < width v ∧ (∀ k < width v, v k = w k) ∧ Agree n (next v) (next w))

theorem width_congr {v w : View} (h : v 0 = w 0) : width v = width w := by
  unfold width widthAt
  rw [h]

namespace Agree

theorem mono : ∀ {n m : Nat} {v w : View}, m ≤ n → Agree n v w → Agree m v w
  | _, 0, _, _, _, _ => trivial
  | 0, m + 1, _, _, hm, _ => absurd hm (by omega)
  | n + 1, m + 1, _, _, hm, ⟨h0, h⟩ => by
    refine ⟨h0, fun hne => ?_⟩
    obtain ⟨hw, hk, hn⟩ := h hne
    exact ⟨hw, hk, hn.mono (Nat.le_of_succ_le_succ hm)⟩

theorem head {n : Nat} {v w : View} (h : Agree (n + 1) v w) : v 0 = w 0 := h.1

theorem within {n k : Nat} {v w : View} (h : Agree (n + 1) v w) (hne : v 0 ≠ 0)
    (hk : k < width v) : v k = w k :=
  (h.2 hne).2.1 k hk

theorem next {n : Nat} {v w : View} (h : Agree (n + 1) v w) (hne : v 0 ≠ 0) :
    Agree n (next v) (next w) :=
  (h.2 hne).2.2

end Agree

theorem octetWidth_ascii {b : UInt8} (h : b < 0x80) : octetWidth b = 1 := by
  have each : ∀ n < 128, octetWidth (UInt8.ofNat n) = 1 := by decide +kernel
  simpa using each b.toNat (UInt8.lt_iff_toNat_lt.mp h)

theorem width_ascii {v : View} (h : v 0 < 0x80) : width v = 1 := octetWidth_ascii h

theorem next_ascii {v : View} (h : v 0 < 0x80) : next v = behind 1 v := by
  unfold next
  rw [width_ascii h]

theorem Agree.behind {n : Nat} {v w : View} (h : Agree (n + 1) v w) (hne : v 0 ≠ 0)
    (ha : v 0 < 0x80) : Agree n (behind 1 v) (behind 1 w) := by
  have := h.next hne
  rwa [next_ascii ha, next_ascii (h.head ▸ ha)] at this

/-- Views that agree for `n` characters, and of which the first has `P`, give `f` the same value. -/
def LocalOn {α : Type} (P : View → Prop) (n : Nat) (f : View → α) : Prop :=
  ∀ v w, Agree n v w → P v → f v = f w

def Local {α : Type} (n : Nat) (f : View → α) : Prop := ∀ v w, Agree n v w → f v = f w

namespace Local

variable {α : Type} {n : Nat} {c d : View → Bool}

theorem on {P : View → Prop} {f : View → α} (h : Local n f) : LocalOn P n f :=
  fun v w hvw _ => h v w hvw

theorem mono {f : View → α} {m : Nat} (h : Local m f) (hm : m ≤ n) : Local n f :=
  fun v w hvw => h v w (hvw.mono hm)

theorem const {a : α} : Local n fun _ => a := fun _ _ _ => rfl

theorem not (h : Local n c) : Local n fun v => !c v :=
  fun v w hvw => congrArg _ (h v w hvw)

theorem and (hc : Local n c) (hd : Local n d) : Local n fun v => c v && d v := by
  intro v w hvw
  simp only [hc v w hvw, hd v w hvw]

theorem or (hc : Local n c) (hd : Local n d) : Local n fun v => c v || d v := by
  intro v w hvw
  simp only [hc v w hvw, hd v w hvw]

theorem any {β : Type} {f : View → β → Bool} (l : List β) (hf : ∀ b, Local n (f · b)) :
    Local n fun v => l.any (f v) := by
  intro v w hvw
  have : f v = f w := funext fun b => hf b v w hvw
  simp only [this]

/-- A check behind an ASCII character. -/
theorem behind {c : Char} (hd : Local n d) (ha : octet c < 0x80 ∧ octet c ≠ 0) :
    Local (n + 1) fun v => checkAt v c 0 && d (behind 1 v) := by
  intro v w hvw
  simp only [checkAt, ← hvw.head]
  by_cases h : v 0 = octet c
  · have := hd _ _ (hvw.behind (h ▸ ha.2) (h ▸ ha.1))
    rw [this]
  · rw [beq_eq_false_iff_ne.mpr h, Bool.false_and, Bool.false_and]

theorem first {f : View → α} (g : UInt8 → α) (hf : ∀ v, f v = g (v 0)) : Local (n + 1) f :=
  fun v w hvw => by rw [hf, hf, hvw.head]

theorem check {c : Char} : Local (n + 1) (check · c) := first (· == octet c) fun _ => rfl

theorem checkAt_zero {c : Char} : Local (n + 1) (checkAt · c 0) := check

theorem isZ : Local (n + 1) isZ := first (· == 0) fun _ => rfl

theorem isAlpha : Local (n + 1) isAlpha := first isAlphaOctet fun _ => rfl

theorem isDigit : Local (n + 1) isDigit :=
  first (fun b => octet '0' ≤ b && b ≤ octet '9') fun _ => rfl

theorem asDigit : Local (n + 1) asDigit := first (fun b => (b - octet '0').toNat) fun _ => rfl

theorem isSpace : Local (n + 1) isSpace := check

theorem isTab : Local (n + 1) isTab := check

theorem isBlank : Local (n + 1) isBlank := or check check

theorem isHex : Local (n + 1) (isHexAt · 0) :=
  first (fun b => (octet '0' ≤ b && b ≤ octet '9') || (octet 'A' ≤ b && b ≤ octet 'F')
    || (octet 'a' ≤ b && b ≤ octet 'f')) fun _ => rfl

theorem width : Local (n + 1) width := first octetWidth fun _ => rfl

theorem character : Local (n + 1) character := by
  intro v w hvw
  unfold LibYaml.character
  rw [← width_congr hvw.head]
  by_cases h0 : v 0 = 0
  · -- a NUL is one byte
    have hw : LibYaml.width v = 1 := width_ascii (by rw [h0]; decide)
    simp [hw, hvw.head]
  · exact List.map_congr_left fun k hk => hvw.within h0 (List.mem_range.mp hk)

theorem width_two : (octetWidth 0xC2 = 2 ∧ octetWidth 0xE2 = 3) ∧ octetWidth 0xEF = 3 := by decide

/-- A check of two bytes of which the first announces a second. -/
theorem pair {b : UInt8} {g : UInt8 → Bool} (hb : b ≠ 0) (hw : 1 < octetWidth b) :
    Local (n + 1) fun v => v 0 == b && g (v 1) := by
  intro v w hvw
  simp only [← hvw.head]
  by_cases h : v 0 = b
  · have hlt : 1 < LibYaml.width v := by
      unfold LibYaml.width widthAt
      rwa [h]
    rw [hvw.within (h ▸ hb) hlt]
  · rw [beq_eq_false_iff_ne.mpr h, Bool.false_and, Bool.false_and]

/-- A check of three bytes of which the first announces two more. -/
theorem triple {b : UInt8} {g : UInt8 → UInt8 → Bool} (hb : b ≠ 0) (hw : 2 < octetWidth b) :
    Local (n + 1) fun v => v 0 == b && g (v 1) (v 2) := by
  intro v w hvw
  simp only [← hvw.head]
  by_cases h : v 0 = b
  · have hlt : 2 < LibYaml.width v := by
      unfold LibYaml.width widthAt
      rwa [h]
    rw [hvw.within (h ▸ hb) hlt, hvw.within (h ▸ hb) (by omega : 1 < LibYaml.width v)]
  · rw [beq_eq_false_iff_ne.mpr h, Bool.false_and, Bool.false_and]

theorem isBreak : Local (n + 1) isBreak := by
  have h2 : Local (n + 1) fun v => v 0 == 0xC2 && v 1 == 0x85 :=
    pair (b := 0xC2) (g := (· == 0x85)) (by decide) (by decide)
  have h3 (b : UInt8) : Local (n + 1) fun v => v 0 == 0xE2 && (v 1 == 0x80 && v 2 == b) :=
    triple (b := 0xE2) (g := fun x y => x == 0x80 && y == b) (by decide) (by decide)
  intro v w hvw
  have e2 := h2 v w hvw
  have e3 := h3 0xA8 v w hvw
  have e4 := h3 0xA9 v w hvw
  unfold LibYaml.isBreak isBreakAt checkAt
  simp only [Bool.and_assoc, Nat.zero_add] at e2 e3 e4 ⊢
  rw [e2, e3, e4, hvw.head]

theorem isBreakz : Local (n + 1) isBreakz := or isBreak isZ

theorem isBlankz : Local (n + 1) isBlankz := or isBlank isBreakz

theorem isBom : Local (n + 1) isBom := by
  have h : Local (n + 1) fun v => v 0 == 0xEF && (v 1 == 0xBB && v 2 == 0xBF) :=
    triple (b := 0xEF) (g := fun x y => x == 0xBB && y == 0xBF) (by decide) (by decide)
  intro v w hvw
  have := h v w hvw
  simp only [← Bool.and_assoc] at this
  exact this

theorem isCrlf : Local (n + 2) isCrlf :=
  behind (c := '\r') (d := (LibYaml.check · '\n')) check (by decide)

theorem blankzBehind {c : Char} (ha : octet c < 0x80 ∧ octet c ≠ 0) :
    Local (n + 2) fun v => LibYaml.check v c && isBlankzAt v 1 :=
  behind (d := LibYaml.isBlankz) isBlankz ha

/-- Two ASCII characters of a kind, then a third and what may end a line behind it. -/
theorem indicator {c : Char} (ha : octet c < 0x80 ∧ octet c ≠ 0) : Local 4 fun v =>
    checkAt v c 0 && checkAt v c 1 && checkAt v c 2 && isBlankzAt v 3 := by
  have h : Local 4 fun v => checkAt v c 0 && (checkAt v c 1 && (checkAt v c 2 && isBlankzAt v 3)) :=
    behind (d := fun v => checkAt v c 0 && (checkAt v c 1 && isBlankzAt v 2))
      (behind (d := fun v => checkAt v c 0 && isBlankzAt v 1) (blankzBehind ha) ha) ha
  intro v w hvw
  have := h v w hvw
  simpa only [Bool.and_assoc] using this

theorem isDocumentIndicator : Local 4 Scanner.isDocumentIndicator := by
  have h : Local 4 fun v => (checkAt v '-' 0 && checkAt v '-' 1 && checkAt v '-' 2
      && isBlankzAt v 3) || (checkAt v '.' 0 && checkAt v '.' 1 && checkAt v '.' 2
      && isBlankzAt v 3) :=
    or (indicator (by decide)) (indicator (by decide))
  intro v w hvw
  have := h v w hvw
  simpa only [Scanner.isDocumentIndicator, ← Bool.and_or_distrib_right] using this

theorem isUriChar {uriChar : Bool} : Local (n + 1) (Scanner.isUriChar uriChar) :=
  or (or isAlpha (any _ fun _ => check)) (and const (any _ fun _ => check))

theorem endsAnchor : Local (n + 1) Scanner.endsAnchor :=
  or isBlankz (any _ fun _ => check)

theorem isPlusMinus : Local (n + 1) Scanner.isPlusMinus := or check check

theorem isQuote {single : Bool} : Local (n + 1) (Scanner.isQuote single) := check

theorem isStrayColon {flow : Bool} : Local (n + 2) (Scanner.isStrayColon flow) := by
  have h : Local (n + 2) fun v => flow && (LibYaml.check v ':'
      && [',', '?', '[', ']', '{', '}'].any (checkAt v · 1)) :=
    and const (behind (d := fun v => [',', '?', '[', ']', '{', '}'].any (LibYaml.check v ·))
      (any _ fun _ => check) (by decide))
  intro v w hvw
  have := h v w hvw
  simpa only [Scanner.isStrayColon, Bool.and_assoc] using this

theorem endsPlainText {flow : Bool} : Local (n + 2) (Scanner.endsPlainText flow) :=
  or (blankzBehind (by decide)) (and const (any _ fun _ => check))

end Local

/-! ## Characters that are surely there -/

/-- The next character is there, and no line break. -/
def Inline (v : View) : Prop := v 0 ≠ 0 ∧ isBreak v = false

/-- The first `k` characters are there, and no line breaks. -/
def Solid : Nat → View → Prop
  | 0, _ => True
  | k + 1, v => Inline v ∧ Solid k (next v)

theorem Solid.mono : ∀ {k l : Nat} {v : View}, l ≤ k → Solid k v → Solid l v
  | _, 0, _, _, _ => trivial
  | 0, l + 1, _, hl, _ => absurd hl (by omega)
  | _ + 1, _ + 1, _, hl, ⟨h0, h⟩ => ⟨h0, h.mono (Nat.le_of_succ_le_succ hl)⟩

theorem Agree.inline {n : Nat} {v w : View} (h : Agree (n + 1) v w) (hv : Inline v) : Inline w :=
  ⟨fun hw => hv.1 (h.head.trans hw), (Local.isBreak v w h).symm.trans hv.2⟩

theorem Agree.solid : ∀ {n k : Nat} {v w : View}, Agree n v w → k ≤ n → Solid k v → Solid k w
  | _, 0, _, _, _, _, _ => trivial
  | 0, k + 1, _, _, _, hk, _ => absurd hk (by omega)
  | n + 1, k + 1, _, _, h, hk, ⟨h0, hs⟩ =>
    ⟨h.inline h0, (h.next h0.1).solid (Nat.le_of_succ_le_succ hk) hs⟩

/-- A byte is seen alike if there are as many characters before it. -/
theorem Agree.byte : ∀ {n k j : Nat} {v w : View}, Agree n v w → Solid k v → j ≤ k → j < n →
    v j = w j
  | 0, _, _, _, _, _, _, _, hj => absurd hj (by omega)
  | n + 1, _, 0, _, _, h, _, _, _ => h.head
  | n + 1, 0, j + 1, _, _, _, _, hj, _ => absurd hj (by omega)
  | n + 1, k + 1, j + 1, v, w, h, ⟨h0, hs⟩, hj, hn => by
    have hw := (h.2 h0.1).1
    rcases Nat.lt_or_ge (j + 1) (width v) with hlt | hge
    · exact h.within h0.1 hlt
    · have ih := (h.next h0.1).byte hs (j := j + 1 - width v) (by omega) (by omega)
      unfold LibYaml.next LibYaml.behind at ih
      rw [← width_congr h.head] at ih
      rwa [show width v + (j + 1 - width v) = j + 1 by omega] at ih

/-- What a character starts with that is a break, or the NUL. -/
def breakOctets : List UInt8 := [0, octet '\r', octet '\n', 0xC2, 0xE2]

theorem isBreak_octet {v : View} (h : isBreak v = true) : v 0 ∈ breakOctets := by
  simp only [isBreak, isBreakAt, checkAt, Bool.or_eq_true, Bool.and_eq_true, beq_iff_eq] at h
  simp only [breakOctets, List.mem_cons]
  tauto

theorem inline_of_octet {v : View} (h : v 0 ∉ breakOctets) : Inline v := by
  refine ⟨fun h0 => h (h0 ▸ List.mem_cons_self), ?_⟩
  cases hb : isBreak v with
  | true => exact absurd (isBreak_octet hb) h
  | false => rfl

/-- A check of the first octet that no break and no NUL passes. -/
theorem inline_first {c : View → Bool} (hc : ∀ v, c v = c fun _ => v 0)
    (h : (breakOctets.any fun b => c fun _ => b) = false) {v : View} (hv : c v = true) : Inline v := by
  refine inline_of_octet fun hb => List.any_eq_false.mp h _ hb ?_
  rwa [← hc]

theorem check_inline {v : View} {c : Char} (h : check v c = true) (hc : octet c ∉ breakOctets) :
    Inline v := by
  have h0 : v 0 = octet c := by simpa [check, checkAt] using h
  exact inline_of_octet (h0 ▸ hc)

theorem inline_breakz {v : View} (h : isBreakz v = false) : Inline v := by
  have hb : (isBreak v || isZ v) = false := h
  rw [Bool.or_eq_false_iff] at hb
  exact ⟨fun h0 => by simp [isZ, isZAt, h0] at hb, hb.1⟩

theorem inline_blankz {v : View} (h : isBlankz v = false) : Inline v := by
  have hb : (isBlank v || isBreakz v) = false := h
  rw [Bool.or_eq_false_iff] at hb
  exact inline_breakz hb.2

theorem Inline.solid {v : View} (h : Inline v) : Solid 1 v := ⟨h, trivial⟩

theorem Solid.behind {k : Nat} {v : View} (ha : v 0 < 0x80) (h0 : Inline v)
    (h : Solid k (behind 1 v)) : Solid (k + 1) v :=
  ⟨h0, by rwa [next_ascii ha]⟩

section Hexadecimal

/-- An ASCII character, but no break and no NUL. -/
def IsInline (b : UInt8) : Prop := b < 0x80 ∧ b ∉ breakOctets

instance (b : UInt8) : Decidable (IsInline b) := inferInstanceAs (Decidable (_ ∧ _))

theorem isHexAt_inline {v : View} {k : Nat} (h : isHexAt v k = true) : IsInline (v k) := by
  have each : ∀ n < 256, ((octet '0' ≤ UInt8.ofNat n && UInt8.ofNat n ≤ octet '9')
      || (octet 'A' ≤ UInt8.ofNat n && UInt8.ofNat n ≤ octet 'F')
      || (octet 'a' ≤ UInt8.ofNat n && UInt8.ofNat n ≤ octet 'f')) = true →
      UInt8.ofNat n < 0x80 ∧ UInt8.ofNat n ∉ breakOctets := by decide +kernel
  have := each (v k).toNat (v k).toNat_lt
  rw [UInt8.ofNat_toNat] at this
  exact this h

/-- ASCII characters are characters of one byte. -/
theorem solid_ascii : ∀ {k : Nat} {v : View}, (∀ j < k, IsInline (v j)) → Solid k v
  | 0, _, _ => trivial
  | k + 1, v, h => by
    obtain ⟨ha, h0⟩ := h 0 (Nat.succ_pos k)
    refine .behind ha (inline_of_octet h0) (solid_ascii fun j hj => ?_)
    have := h (1 + j) (by omega)
    exact this

theorem Agree.symm : ∀ {n : Nat} {v w : View}, Agree n v w → Agree n w v
  | 0, _, _, _ => trivial
  | n + 1, v, w, ⟨h0, h⟩ => by
    refine ⟨h0.symm, fun hne => ?_⟩
    obtain ⟨hw, hk, hn⟩ := h (h0 ▸ hne)
    rw [width_congr h0] at hw hk
    exact ⟨hw, fun k hlt => (hk k hlt).symm, hn.symm⟩

theorem areHex_iff {n : Nat} {v : View} :
    Scanner.areHex n v = true ↔ ∀ j < n, isHexAt v j = true := by
  simp [Scanner.areHex]

theorem areHex_solid {n : Nat} {v : View} (h : Scanner.areHex n v = true) : Solid n v :=
  solid_ascii fun j hj => isHexAt_inline (areHex_iff.mp h j hj)

theorem Agree.areHex {n : Nat} {v w : View} (h : Agree n v w) (hv : Scanner.areHex n v = true) :
    Scanner.areHex n w = true := by
  rw [areHex_iff] at hv ⊢
  intro j hj
  have := h.byte (areHex_solid (areHex_iff.mpr hv)) (Nat.le_of_lt hj) hj
  unfold isHexAt at hv ⊢
  rw [← this]
  exact hv j hj

theorem Local.areHex {n : Nat} : Local n (Scanner.areHex n) :=
  fun _ _ h => Bool.eq_iff_iff.mpr ⟨h.areHex, h.symm.areHex⟩

theorem asHex_congr {n : Nat} {v w : View} (h : ∀ j < n, v j = w j) :
    Scanner.asHex n v = Scanner.asHex n w := by
  refine List.foldl_ext _ _ _ fun value k hk => ?_
  unfold asHexAt
  rw [h k (List.mem_range.mp hk)]

theorem isEscapedOctet_inline {v : View} (h : Scanner.isEscapedOctet v = true) :
    ∀ j < 3, IsInline (v j) := by
  simp only [Scanner.isEscapedOctet, Bool.and_eq_true] at h
  obtain ⟨⟨h0, h1⟩, h2⟩ := h
  have h0 : v 0 = octet '%' := by simpa [check, checkAt] using h0
  intro j hj
  match j, hj with
  | 0, _ => rw [h0]; exact ⟨by decide, by decide⟩
  | 1, _ => exact isHexAt_inline h1
  | 2, _ => exact isHexAt_inline h2

theorem Agree.isEscapedOctet {v w : View} (h : Agree 3 v w)
    (hv : Scanner.isEscapedOctet v = true) : Scanner.isEscapedOctet w = true := by
  have same : ∀ j < 3, v j = w j := fun j hj =>
    h.byte (solid_ascii (isEscapedOctet_inline hv)) (Nat.le_of_lt hj) hj
  simpa only [Scanner.isEscapedOctet, check, checkAt, isHexAt, same 0 (by decide),
    same 1 (by decide), same 2 (by decide)] using hv

theorem Local.isEscapedOctet : Local 3 Scanner.isEscapedOctet :=
  fun _ _ h => Bool.eq_iff_iff.mpr ⟨h.isEscapedOctet, h.symm.isEscapedOctet⟩

end Hexadecimal

end LibYaml
