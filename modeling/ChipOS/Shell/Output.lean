import ChipOS.Drivers.Console
import ChipOS.Shell.Highlight

namespace ChipOS
open Markup
set_option autoImplicit true

/-- One thing that a command prints. -/
inductive Print where
  | text (literal : String)
  | puts (str : List UInt8)
  | putHex (value : BitVec 32)
  | showLine (line : List UInt8) (ext : List UInt8)
deriving DecidableEq, Repr

/-- The characters on the console, without colour codes. -/
def Print.chars : Print → List UInt8
  | text literal => literal.toList.flatMap String.utf8EncodeChar
  | puts str => str
  | putHex value => hexChars value
  | showLine line ext => plain (displayLineWithHighlighting line (some ext))

/-- The lines passed to `display_line_with_highlighting`. -/
def shownLines (out : List Print) : List (List UInt8) :=
  out.filterMap fun
    | .showLine line _ => some line
    | _ => none

/-- The numbers passed to `console_put_hex`. -/
def shownNumbers (out : List Print) : List Nat :=
  out.filterMap fun
    | .putHex value => some value.toNat
    | _ => none

def Says (out : List Print) (message : String) : Prop := .text message ∈ out

instance : Decidable (Says out message) := inferInstanceAs (Decidable (_ ∈ _))

/-- A message that ends in the name of a file in quotes. -/
def nameMessage (message : String) (name : CStr) : List Print :=
  [.text message, .puts name.bytes, .text "'\n"]

def separator : Print := .text "----------------------------------------\n"

@[simp]
theorem says_nil : ¬Says [] m := List.not_mem_nil

@[simp]
theorem says_cons {x : Print} : Says (x :: out) m ↔ .text m = x ∨ Says out m := List.mem_cons

@[simp]
theorem says_append : Says (out ++ out') m ↔ Says out m ∨ Says out' m := List.mem_append

theorem shownLines_append : shownLines (out ++ out') = shownLines out ++ shownLines out' :=
  List.filterMap_append

end ChipOS
