import Mathlib.Algebra.Ring.Int.Defs
import Mathlib.Algebra.Ring.Nat
import Mathlib.Data.List.Basic

/-!
# The library's data types

Marks, tokens, events and errors, as the C interface declares them.  A pointer to a byte string
is the list of its bytes, a null pointer `none`; a union tagged by a `type` field is an
inductive type; a flag kept in a `c_int` is a `Bool`.
-/

namespace LibYaml

/-- A byte string, without the terminating NUL the library allocates behind it. -/
abbrev Bytes := List UInt8

/-- The bytes of a text in ASCII. -/
def ascii (cs : List Char) : Bytes := cs.map fun c => c.toNat.toUInt8

/-- The C string that starts where `b` does: what `strlen`, `strcmp` and `strdup` see of it. -/
def cstr (b : Bytes) : Bytes := b.takeWhile (· ≠ 0)

/-- The `c_int` an integer is cast to, and what an operation on two of them wraps to. -/
@[irreducible] def toCInt (n : Int) : Int := n.bmod (2 ^ 32)

/-- A count as a `c_int`. -/
def cInt (n : Nat) : Int := toCInt n

theorem toCInt_eq {n : Int} (h : -(2 ^ 31) ≤ n ∧ n < 2 ^ 31) : toCInt n = n := by
  unfold toCInt
  exact Int.bmod_eq_of_le (by omega) (by omega)

theorem toCInt_of_lt {n : Int} (h0 : 0 ≤ n) (h : n < 2 ^ 31) : toCInt n = n := toCInt_eq ⟨by omega, h⟩

theorem cInt_of_lt {n : Nat} (h : n < 2 ^ 31) : cInt n = n := toCInt_of_lt (by omega) (by omega)

structure Mark where
  index : Nat
  line : Nat
  column : Nat
deriving DecidableEq, Repr

namespace Mark

def zero : Mark := ⟨0, 0, 0⟩

end Mark

inductive Encoding
  | any | utf8 | utf16le | utf16be
deriving DecidableEq, Repr

inductive Break
  | any | cr | ln | crln
deriving DecidableEq, Repr

inductive ScalarStyle
  | any | plain | singleQuoted | doubleQuoted | literal | folded
deriving DecidableEq, Repr

inductive SequenceStyle
  | any | block | flow
deriving DecidableEq, Repr

inductive MappingStyle
  | any | block | flow
deriving DecidableEq, Repr

structure VersionDirective where
  major : Int
  minor : Int
deriving DecidableEq, Repr

structure TagDirective where
  handle : Bytes
  prefixText : Bytes
deriving DecidableEq, Repr

/-- What a failed call leaves in `error`, `context`, `problem` and their marks. -/
inductive Problem
  | memory
  | reader (problem : String) (problemOffset : Nat) (problemValue : Int)
  | scanner (context : Option String) (contextMark : Mark) (problem : String) (problemMark : Mark)
  | parser (context : Option (String × Mark)) (problem : String) (problemMark : Mark)
  | composer (context : Option (String × Mark)) (problem : String) (problemMark : Mark)
  | writer (problem : String)
  | emitter (problem : String)
deriving DecidableEq, Repr

/-- Why a computation stops early.  The code can fail with a problem it has recorded or, `silent`,
without recording any; `undefined` is an access outside a stack or a queue, and `outOfFuel` a loop
the model cut off, neither of which the code reports. -/
inductive Fault
  | reported (problem : Problem)
  | silent
  | undefined
  | outOfFuel
deriving DecidableEq, Repr

inductive TokenType
  | noToken
  | streamStart | streamEnd
  | versionDirective | tagDirective | documentStart | documentEnd
  | blockSequenceStart | blockMappingStart | blockEnd
  | flowSequenceStart | flowSequenceEnd | flowMappingStart | flowMappingEnd
  | blockEntry | flowEntry | key | value
  | alias | anchor | tag | scalar
deriving DecidableEq, Repr

/-- A token's `type` together with the member of its `data` union that the type selects. -/
inductive TokenData
  | noToken
  | streamStart (encoding : Encoding)
  | streamEnd
  | versionDirective (major minor : Int)
  | tagDirective (handle prefixText : Bytes)
  | documentStart
  | documentEnd
  | blockSequenceStart
  | blockMappingStart
  | blockEnd
  | flowSequenceStart
  | flowSequenceEnd
  | flowMappingStart
  | flowMappingEnd
  | blockEntry
  | flowEntry
  | key
  | value
  | alias (value : Bytes)
  | anchor (value : Bytes)
  | tag (handle suffix : Bytes)
  | scalar (value : Bytes) (style : ScalarStyle)
deriving DecidableEq, Repr

namespace TokenData

def type : TokenData → TokenType
  | .noToken => .noToken
  | .streamStart _ => .streamStart
  | .streamEnd => .streamEnd
  | .versionDirective _ _ => .versionDirective
  | .tagDirective _ _ => .tagDirective
  | .documentStart => .documentStart
  | .documentEnd => .documentEnd
  | .blockSequenceStart => .blockSequenceStart
  | .blockMappingStart => .blockMappingStart
  | .blockEnd => .blockEnd
  | .flowSequenceStart => .flowSequenceStart
  | .flowSequenceEnd => .flowSequenceEnd
  | .flowMappingStart => .flowMappingStart
  | .flowMappingEnd => .flowMappingEnd
  | .blockEntry => .blockEntry
  | .flowEntry => .flowEntry
  | .key => .key
  | .value => .value
  | .alias _ => .alias
  | .anchor _ => .anchor
  | .tag _ _ => .tag
  | .scalar _ _ => .scalar

end TokenData

structure Token where
  data : TokenData
  startMark : Mark
  endMark : Mark
deriving DecidableEq, Repr

namespace Token

def type (t : Token) : TokenType := t.data.type

end Token

inductive EventType
  | noEvent
  | streamStart | streamEnd
  | documentStart | documentEnd
  | alias | scalar
  | sequenceStart | sequenceEnd
  | mappingStart | mappingEnd
deriving DecidableEq, Repr

inductive EventData
  | noEvent
  | streamStart (encoding : Encoding)
  | streamEnd
  | documentStart (versionDirective : Option VersionDirective) (tagDirectives : List TagDirective)
      (implicit : Bool)
  | documentEnd (implicit : Bool)
  | alias (anchor : Bytes)
  | scalar (anchor tag : Option Bytes) (value : Bytes) (plainImplicit quotedImplicit : Bool)
      (style : ScalarStyle)
  | sequenceStart (anchor tag : Option Bytes) (implicit : Bool) (style : SequenceStyle)
  | sequenceEnd
  | mappingStart (anchor tag : Option Bytes) (implicit : Bool) (style : MappingStyle)
  | mappingEnd
deriving DecidableEq, Repr

namespace EventData

def type : EventData → EventType
  | .noEvent => .noEvent
  | .streamStart _ => .streamStart
  | .streamEnd => .streamEnd
  | .documentStart _ _ _ => .documentStart
  | .documentEnd _ => .documentEnd
  | .alias _ => .alias
  | .scalar _ _ _ _ _ _ => .scalar
  | .sequenceStart _ _ _ _ => .sequenceStart
  | .sequenceEnd => .sequenceEnd
  | .mappingStart _ _ _ _ => .mappingStart
  | .mappingEnd => .mappingEnd

end EventData

structure Event where
  data : EventData
  startMark : Mark
  endMark : Mark
deriving DecidableEq, Repr

namespace Event

def type (e : Event) : EventType := e.data.type

/-- What `yaml_parser_parse` leaves in the event when it has nothing to deliver. -/
def empty : Event := ⟨.noEvent, .zero, .zero⟩

end Event

end LibYaml
