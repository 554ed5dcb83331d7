import ChipOS.Editor.Typing
import ChipOS.Memory.HeapTheorems
import ChipOS.Shell.Calls

namespace ChipOS
open Cuts Run
set_option autoImplicit true

section
variable {s s₁ : Session} {ls : List (List UInt8)}

end

end ChipOS
