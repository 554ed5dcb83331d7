import ChipOS.Editor.Replay

namespace ChipOS
open Run
set_option autoImplicit true

def SaveCommand (keys : Keys) : Prop :=
  typedCommand keys = (CStr.ofString "w").bytes ∨ typedCommand keys = (CStr.ofString "wq").bytes

def Saving (s : Session) : Prop :=
  s.running = true ∧ s.readOnly = false ∧ s.editor.insertMode = false ∧
    s.keys 0 = ':'.toUInt8 ∧ SaveCommand s.keys.tail

section
variable {s : Session}

end

section
variable {ed : EditorState} {fs : Filesystem}

end

end ChipOS
