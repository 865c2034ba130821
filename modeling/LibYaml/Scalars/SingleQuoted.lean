import LibYaml.Scalars.Findings
import LibYaml.Scalars.Quoted

/-!
# Single-quoted scalars

A quote is written twice, and so is the first line feed of a run.  As no space of the value stands
beside a break, the blanks beside a written break are all indentation.
-/

namespace LibYaml

open Fallible Emitter
open EStateM (Result)

/-! ## What is read -/

namespace Scanner

end Scanner

/-! ## What is written -/

namespace Emitter

section Steps

variable {allowBreaks start spaces breaks : Bool} {c : Bytes} {cs : List Bytes} {s : Emitter Unit}

end Steps

end Emitter

end LibYaml
