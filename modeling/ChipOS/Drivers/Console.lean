import ChipOS.CString

namespace ChipOS
set_option autoImplicit true

def hexDigit (digit : Nat) : UInt8 :=
  if digit < 10 then '0'.toUInt8 + digit.toUInt8 else 'A'.toUInt8 + digit.toUInt8 - 10

/-- The digits of a value, from bit 28 on down. -/
def hexDigits (value : BitVec 32) : List Nat :=
  [28, 24, 20, 16, 12, 8, 4, 0].map fun i => value.toNat / 2 ^ i % 16

def hexChars (value : BitVec 32) : List UInt8 :=
  (CStr.ofString "0x").bytes ++ (hexDigits value).map hexDigit

def isEnter (c : UInt8) : Bool := c = '\r'.toUInt8 || c = '\n'.toUInt8

def editKey (line : List UInt8) (c : UInt8) : List UInt8 :=
  if c = 8 ∨ c = 127 then line.dropLast
  else if 32 ≤ c ∧ c ≤ 126 then line ++ [c]
  else line

/-- The loop of `console_gets`: the line it returns and the input that it leaves, or `none` while
it waits for more. -/
def getsLoop (maxLength : Nat) (line : List UInt8) : List UInt8 →
    Option (List UInt8 × List UInt8)
  | [] => if line.length < maxLength - 1 then none else some (line, [])
  | c :: input =>
    if line.length < maxLength - 1 then
      if isEnter c then some (line, input) else getsLoop maxLength (editKey line c) input
    else some (line, c :: input)

def consoleGets (maxLength : Nat) (input : List UInt8) : Option (List UInt8 × List UInt8) :=
  getsLoop maxLength [] input

/-- So many calls of `console_gets`, up to the first that waits: what they return, and the input
that is left. -/
def getsCalls (maxLength : Nat) : Nat → List UInt8 → List (List UInt8) × List UInt8
  | 0, input => ([], input)
  | calls + 1, input =>
    match consoleGets maxLength input with
    | none => ([], input)
    | some (line, input) =>
      let (lines, input) := getsCalls maxLength calls input
      (line :: lines, input)

end ChipOS
