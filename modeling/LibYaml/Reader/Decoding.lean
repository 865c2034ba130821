import LibYaml.Characters

/-!
# Decoding the input

How the reader takes one character off its raw buffer, in UTF-8 and in UTF-16, and the check that
guards the strings an application passes in.
-/

namespace LibYaml

/-- The bits of a character that its first byte holds. -/
def leadBits (b : UInt8) : UInt8 :=
  if b &&& 0x80 == 0 then b &&& 0x7F
  else if b &&& 0xE0 == 0xC0 then b &&& 0x1F
  else if b &&& 0xF0 == 0xE0 then b &&& 0x0F
  else b &&& 0x07

/-- The value of a character with the bytes behind its first one, or which of them is none that
could follow. -/
def trailingBits (value k : Nat) : Bytes → Except (Nat × UInt8) Nat
  | [] => .ok value
  | octet :: octets =>
    if octet &&& 0xC0 == 0x80 then trailingBits (value * 64 + (octet &&& 0x3F).toNat) (k + 1) octets
    else .error (k, octet)

/-- Whether a value needs as many bytes as it has. -/
def validLength (width value : Nat) : Bool :=
  width = 1 || (width = 2 && 0x80 ≤ value) || (width = 3 && 0x800 ≤ value)
    || (width = 4 && 0x10000 ≤ value)

/-- A Unicode scalar value. -/
def isScalarValue (value : Nat) : Bool :=
  !(0xD800 ≤ value && value ≤ 0xDFFF) && value ≤ 0x10FFFF

/-! ## The strings of an application -/

def checkUtf8UpTo : Nat → Bytes → Bool
  | _, [] => true
  | 0, _ :: _ => false
  | n + 1, b :: bs =>
    if octetWidth b = 0 then false
    else if bs.length + 1 < octetWidth b then false
    else
      match trailingBits (leadBits b).toNat 1 (bs.take (octetWidth b - 1)) with
      | .error _ => false
      | .ok value =>
        validLength (octetWidth b) value && checkUtf8UpTo n ((b :: bs).drop (octetWidth b))

/-- `yaml_check_utf8` -/
def checkUtf8 (b : Bytes) : Bool := checkUtf8UpTo b.length b

/-! ## The reader -/

/-- What the reader finds at the head of its raw buffer; an error lies so many bytes behind it. -/
inductive Decoded
  | character (value width : Nat)
  | incomplete
  | invalid (problem : String) (offset : Nat) (value : Int)
deriving DecidableEq, Repr

/-- What a character that is cut short comes to. -/
def cutShort (eof : Bool) (problem : String) : Decoded :=
  if eof then .invalid problem 0 (-1) else .incomplete

/-- The raw buffer is not empty where this is done. -/
def decodeUtf8 (eof : Bool) : Bytes → Decoded
  | [] => .incomplete
  | b :: bs =>
    if octetWidth b = 0 then .invalid "invalid leading UTF-8 octet" 0 b.toNat
    else if bs.length + 1 < octetWidth b then cutShort eof "incomplete UTF-8 octet sequence"
    else
      match trailingBits (leadBits b).toNat 1 (bs.take (octetWidth b - 1)) with
      | .error (k, octet) => .invalid "invalid trailing UTF-8 octet" k octet.toNat
      | .ok value =>
        if !validLength (octetWidth b) value then
          .invalid "invalid length of a UTF-8 sequence" 0 (-1)
        else if (0xD800 ≤ value && value ≤ 0xDFFF) || 0x10FFFF < value then
          .invalid "invalid Unicode character" 0 value
        else .character value (octetWidth b)

/-- The 16-bit unit at an offset. -/
def unitAt (encoding : Encoding) (raw : Bytes) (k : Nat) : Nat :=
  if encoding = .utf16le then (raw.getD k 0).toNat + (raw.getD (k + 1) 0).toNat * 2 ^ 8
  else (raw.getD (k + 1) 0).toNat + (raw.getD k 0).toNat * 2 ^ 8

/-- `value & 0xFC00 == 0xD800` -/
def isHighSurrogate (value : Nat) : Bool := value / 2 ^ 10 % 2 ^ 6 = 0x36

/-- `value & 0xFC00 == 0xDC00` -/
def isLowSurrogate (value : Nat) : Bool := value / 2 ^ 10 % 2 ^ 6 = 0x37

def decodeUtf16 (encoding : Encoding) (eof : Bool) (raw : Bytes) : Decoded :=
  if raw.length < 2 then cutShort eof "incomplete UTF-16 character"
  else
    let value := unitAt encoding raw 0
    if isLowSurrogate value then .invalid "unexpected low surrogate area" 0 value
    else if isHighSurrogate value then
      if raw.length < 4 then cutShort eof "incomplete UTF-16 surrogate pair"
      else
        let value2 := unitAt encoding raw 2
        if !isLowSurrogate value2 then .invalid "expected low surrogate area" 2 value2
        else .character (0x10000 + value % 2 ^ 10 * 2 ^ 10 + value2 % 2 ^ 10) 4
    else .character value 2

def decode (encoding : Encoding) (eof : Bool) (raw : Bytes) : Decoded :=
  if encoding = .utf16le ∨ encoding = .utf16be then decodeUtf16 encoding eof raw
  else decodeUtf8 eof raw

/-- The characters of a text of which no more comes, read until `n` are found. -/
def decodeUpTo (encoding : Encoding) : Nat → Nat → Bytes → Except Fault (List Nat)
  | _, _, [] => .ok []
  | 0, _, _ :: _ => .error .outOfFuel
  | n + 1, offset, b :: bs =>
    match decode encoding true (b :: bs) with
    | .character value width =>
      (decodeUpTo encoding n (offset + width) ((b :: bs).drop width)).map (value :: ·)
    | .incomplete => .error .undefined
    | .invalid problem k value => .error (.reported (.reader problem (offset + k) value))

def decodeAll (encoding : Encoding) (raw : Bytes) : Except Fault (List Nat) :=
  decodeUpTo encoding raw.length 0 raw

end LibYaml
