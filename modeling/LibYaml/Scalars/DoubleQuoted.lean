import LibYaml.Emitter.Utf16
import LibYaml.Scalars.Quoted

/-!
# Double-quoted scalars

Each character stands for itself or is escaped, and a fold in a run of spaces escapes the space
behind it.  The scanner reads back the characters that were written.
-/

namespace LibYaml

open Fallible Emitter
open EStateM (Result)

/-! ## Escapes -/

section Hexadecimal

variable {value : Nat} {r : Bytes}

end Hexadecimal

namespace Scanner

section Escapes

variable {s : Scanner Bytes} {m start : Mark} {r string : Bytes} {value : Nat}

end Escapes

end Scanner

/-! ## What is read -/

namespace Scanner

end Scanner

/-! ## What is written -/

namespace Emitter

section Steps

variable {allowBreaks start spaces : Bool} {c : Bytes} {cs : List Bytes} {s : Emitter Unit}

end Steps

end Emitter

end LibYaml
