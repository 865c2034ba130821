import LibYaml.Types

/-!
# Characters

The macros the scanner and the emitter look at a string with.  What a pointer sees is a function:
the byte at each offset from it.  A string the emitter reads is a list of its characters, each the
list of its bytes; behind the last there is a NUL.
-/

namespace LibYaml

/-- The byte at each offset from a pointer. -/
abbrev View := Nat → UInt8

def octet (c : Char) : UInt8 := c.toNat.toUInt8

section Tests

variable (p : View)

def checkAt (c : Char) (offset : Nat) : Bool := p offset == octet c

def check (c : Char) : Bool := checkAt p c 0

def isAlphaOctet (b : UInt8) : Bool :=
  (octet '0' ≤ b && b ≤ octet '9') || (octet 'A' ≤ b && b ≤ octet 'Z')
    || (octet 'a' ≤ b && b ≤ octet 'z') || b == octet '_' || b == octet '-'

def isAlpha : Bool := isAlphaOctet (p 0)

def isDigit : Bool := octet '0' ≤ p 0 && p 0 ≤ octet '9'

def asDigit : Nat := (p 0 - octet '0').toNat

def isHexAt (offset : Nat) : Bool :=
  (octet '0' ≤ p offset && p offset ≤ octet '9') || (octet 'A' ≤ p offset && p offset ≤ octet 'F')
    || (octet 'a' ≤ p offset && p offset ≤ octet 'f')

def asHexAt (offset : Nat) : Nat :=
  if octet 'A' ≤ p offset && p offset ≤ octet 'F' then (p offset - octet 'A' + 10).toNat
  else if octet 'a' ≤ p offset && p offset ≤ octet 'f' then (p offset - octet 'a' + 10).toNat
  else (p offset - octet '0').toNat

def isAscii : Bool := p 0 ≤ 0x7F

def isPrintable : Bool :=
  p 0 == 0x0A || (0x20 ≤ p 0 && p 0 ≤ 0x7E) || (p 0 == 0xC2 && 0xA0 ≤ p 1)
    || (0xC2 < p 0 && p 0 < 0xED) || (p 0 == 0xED && p 1 < 0xA0) || p 0 == 0xEE
    || (p 0 == 0xEF && !(p 1 == 0xBB && p 2 == 0xBF)
      && !(p 1 == 0xBF && (p 2 == 0xBE || p 2 == 0xBF)))

def isZAt (offset : Nat) : Bool := p offset == 0

def isZ : Bool := isZAt p 0

def isBom : Bool := p 0 == 0xEF && p 1 == 0xBB && p 2 == 0xBF

def isSpaceAt (offset : Nat) : Bool := checkAt p ' ' offset

def isSpace : Bool := isSpaceAt p 0

def isTabAt (offset : Nat) : Bool := checkAt p '\t' offset

def isTab : Bool := isTabAt p 0

def isBlankAt (offset : Nat) : Bool := isSpaceAt p offset || isTabAt p offset

def isBlank : Bool := isBlankAt p 0

def isBreakAt (offset : Nat) : Bool :=
  checkAt p '\r' offset || checkAt p '\n' offset
    || (p offset == 0xC2 && p (offset + 1) == 0x85)
    || (p offset == 0xE2 && p (offset + 1) == 0x80 && p (offset + 2) == 0xA8)
    || (p offset == 0xE2 && p (offset + 1) == 0x80 && p (offset + 2) == 0xA9)

def isBreak : Bool := isBreakAt p 0

def isCrlf : Bool := checkAt p '\r' 0 && checkAt p '\n' 1

def isBreakzAt (offset : Nat) : Bool := isBreakAt p offset || isZAt p offset

def isBreakz : Bool := isBreakzAt p 0

def isBlankzAt (offset : Nat) : Bool := isBlankAt p offset || isBreakzAt p offset

def isBlankz : Bool := isBlankzAt p 0

/-- How many bytes a character has that starts with `b`; 0 when none does. -/
def octetWidth (b : UInt8) : Nat :=
  if b &&& 0x80 == 0x00 then 1
  else if b &&& 0xE0 == 0xC0 then 2
  else if b &&& 0xF0 == 0xE0 then 3
  else if b &&& 0xF8 == 0xF0 then 4
  else 0

def widthAt (offset : Nat) : Nat := octetWidth (p offset)

def width : Nat := widthAt p 0

end Tests

/-- What the pointer sees from `k` bytes on. -/
def behind (k : Nat) (p : View) : View := fun j => p (k + j)

/-- The bytes `COPY` takes. -/
def character (p : View) : Bytes := (List.range (width p)).map p

/-- The UTF-8 encoding of a code point, as the reader and the scanner write it. -/
def encodeOctets (value : Nat) : Bytes :=
  if value ≤ 0x7F then [value.toUInt8]
  else if value ≤ 0x7FF then [(0xC0 + value / 64).toUInt8, (0x80 + value % 64).toUInt8]
  else if value ≤ 0xFFFF then
    [(0xE0 + value / 4096).toUInt8, (0x80 + value / 64 % 64).toUInt8, (0x80 + value % 64).toUInt8]
  else
    [(0xF0 + value / 262144).toUInt8, (0x80 + value / 4096 % 64).toUInt8,
      (0x80 + value / 64 % 64).toUInt8, (0x80 + value % 64).toUInt8]

/-- What a pointer to a string sees. -/
def view (b : Bytes) : View := fun k => b.getD k 0

/-- The characters of a string, read until `n` are found. -/
def charactersUpTo : Nat → Bytes → Option (List Bytes)
  | _, [] => some []
  | 0, _ :: _ => none
  | n + 1, b :: bs =>
    if octetWidth b = 0 ∨ bs.length + 1 < octetWidth b then none
    else (charactersUpTo n ((b :: bs).drop (octetWidth b))).map ((b :: bs).take (octetWidth b) :: ·)

/-- The characters of a string: what `MOVE` steps over until the end.  Where no character starts,
or the last one is cut short, there are none: `MOVE` then never meets the end. -/
def characters (b : Bytes) : Option (List Bytes) := charactersUpTo b.length b

section Splitting

/-- The bytes of one character, as its first byte announces them. -/
def IsCharacter (c : Bytes) : Prop := c ≠ [] ∧ octetWidth (c.headD 0) = c.length

/-- The string is these characters. -/
def Splits (b : Bytes) (cs : List Bytes) : Prop := cs.flatten = b ∧ ∀ c ∈ cs, IsCharacter c

theorem octetWidth_le (b : UInt8) : octetWidth b ≤ 4 := by
  unfold octetWidth
  split_ifs <;> omega

theorem IsCharacter.length_le {c : Bytes} (h : IsCharacter c) : c.length ≤ 4 :=
  h.2 ▸ octetWidth_le _

theorem IsCharacter.length_pos {c : Bytes} (h : IsCharacter c) : 0 < c.length :=
  List.length_pos_iff.mpr h.1

theorem isCharacter_singleton {b : UInt8} (h : octetWidth b = 1) : IsCharacter [b] :=
  ⟨by simp, h⟩

/-- Each byte is a character. -/
def OneByte (b : Bytes) : Prop := ∀ c ∈ b, octetWidth c = 1

instance (b : Bytes) : Decidable (OneByte b) := List.decidableBAll _ b

theorem Splits.nil : Splits [] [] := ⟨rfl, by simp⟩

theorem OneByte.splits {b : Bytes} (h : OneByte b) : Splits b (b.map ([·])) := by
  refine ⟨by rw [← List.flatMap_def, List.flatMap_singleton'], fun c hc => ?_⟩
  obtain ⟨d, hd, rfl⟩ := List.mem_map.mp hc
  exact isCharacter_singleton (h d hd)

theorem Splits.append {a b : Bytes} {as bs : List Bytes} (ha : Splits a as) (hb : Splits b bs) :
    Splits (a ++ b) (as ++ bs) := by
  obtain ⟨rfl, ha⟩ := ha
  obtain ⟨rfl, hb⟩ := hb
  exact ⟨by simp, fun c hc => (List.mem_append.mp hc).elim (ha c) (hb c)⟩

theorem IsCharacter.splits {c : Bytes} (h : IsCharacter c) : Splits c [c] :=
  ⟨by simp, by simpa using h⟩

theorem charactersUpTo_eq_some : ∀ (n : Nat) {b : Bytes} {cs : List Bytes}, b.length ≤ n →
    (charactersUpTo n b = some cs ↔ Splits b cs)
  | n, [], cs, _ => by
    have h : charactersUpTo n [] = some [] := by cases n <;> rfl
    rw [h]
    constructor
    · intro h
      exact Option.some.inj h ▸ .nil
    · rintro ⟨hf, hc⟩
      cases cs with
      | nil => rfl
      | cons c cs =>
        have hne := (hc c List.mem_cons_self).1
        simp_all
  | 0, _ :: _, _, hn => by simp at hn
  | n + 1, b :: bs, cs, hn => by
    have hn : bs.length ≤ n := by simpa using hn
    unfold charactersUpTo
    split_ifs with hw
    · -- no character starts here, or it is cut short
      refine ⟨nofun, fun ⟨hf, hc⟩ => ?_⟩
      rcases cs with _ | ⟨_ | ⟨d, c⟩, cs⟩
      · simp at hf
      · exact absurd rfl (hc [] List.mem_cons_self).1
      · have hd := (hc _ List.mem_cons_self).2
        obtain ⟨rfl, rfl⟩ : d = b ∧ c ++ cs.flatten = bs := by simpa using hf
        simp only [List.headD_cons, List.length_cons, List.length_append] at hd hw
        omega
    · have hw : 0 < octetWidth b ∧ octetWidth b ≤ bs.length + 1 := by omega
      have hlen : ((b :: bs).drop (octetWidth b)).length ≤ n := by simp; omega
      have ih := @charactersUpTo_eq_some n ((b :: bs).drop (octetWidth b))
      rw [Option.map_eq_some_iff]
      constructor
      · rintro ⟨cs, hcs, rfl⟩
        obtain ⟨hf, hc⟩ := (ih hlen).mp hcs
        refine ⟨by simp [hf], fun c h => ?_⟩
        rcases List.mem_cons.mp h with rfl | h
        · refine ⟨by simp; omega, ?_⟩
          obtain ⟨w, hw'⟩ : ∃ w, octetWidth b = w + 1 := ⟨_, (Nat.succ_pred_eq_of_pos hw.1).symm⟩
          simp only [hw', List.take_succ_cons, List.headD_cons, List.length_cons, List.length_take]
          omega
        · exact hc c h
      · rintro ⟨hf, hc⟩
        rcases cs with _ | ⟨_ | ⟨d, c⟩, cs⟩
        · simp at hf
        · exact absurd rfl (hc [] List.mem_cons_self).1
        · have hd := (hc _ List.mem_cons_self).2
          obtain ⟨rfl, rfl⟩ : d = b ∧ c ++ cs.flatten = bs := by simpa using hf
          simp only [List.headD_cons, List.length_cons] at hd
          refine ⟨cs, (ih hlen).mpr ⟨by simp [hd], fun c h => hc c (List.mem_cons_of_mem _ h)⟩, ?_⟩
          simp [hd]

theorem characters_eq_some {b : Bytes} {cs : List Bytes} : characters b = some cs ↔ Splits b cs :=
  charactersUpTo_eq_some _ (Nat.le_refl _)

end Splitting

/-- The code point of a character. -/
def codePoint (c : Bytes) : Nat :=
  let b := c.headD 0
  let lead : UInt8 :=
    if b &&& 0x80 == 0 then b &&& 0x7F
    else if b &&& 0xE0 == 0xC0 then b &&& 0x1F
    else if b &&& 0xF0 == 0xE0 then b &&& 0x0F
    else if b &&& 0xF8 == 0xF0 then b &&& 0x07
    else 0
  c.tail.foldl (fun value octet => value * 64 + (octet &&& 0x3F).toNat) lead.toNat

end LibYaml
