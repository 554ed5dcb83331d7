import ChipOS.Lib.Run

namespace ChipOS
set_option autoImplicit true

/-- The fixed-size arrays of the kernel. Every access to one of them is checked. -/
inductive CArray where
  | heapMemory
  | fileTable
  | entryName
  | currentPath
  | dataStorage
  | fileBuffer
  | callerData
  | editorFilename
  | editorLines
  | loadBuffer
  | saveBuffer
  | commandLine
  | pathStack
  | pathBuffer
  | tempPath
  | inputBuffer
  | commandHistory
  | tempBuffer
  | digits
  | lineCopy
deriving DecidableEq, Repr

/-- Why a call stops without returning. -/
inductive Fault where
  | outOfRange (array : CArray)
  | panic (message : String)
  | outOfFuel
  | intOverflow
deriving DecidableEq, Repr

def intMax : Int := 2147483647

def intMin : Int := -2147483648

/-- The value of an `int` expression, undefined if it is not an `int`. -/
def intResult (v : Int) : Except Fault Int :=
  if intMin ≤ v ∧ v ≤ intMax then .ok v else .error .intOverflow

/-- An access to an array, out of range if it gives `none`. -/
def checked (array : CArray) : Option α → Except Fault α
  | some a => .ok a
  | none => .error (.outOfRange array)

theorem intResult_eq {v : Int} (h₀ : intMin ≤ v) (h₁ : v ≤ intMax) : intResult v = .ok v := if_pos ⟨h₀, h₁⟩

theorem intResult_overflow {v : Int} (h : ¬(intMin ≤ v ∧ v ≤ intMax)) :
    intResult v = .error .intOverflow :=
  if_neg h

theorem checked_eq_ok {o : Option α} : checked array o = .ok a ↔ o = some a := by
  cases o with
  | none =>
    constructor
    · intro h
      cases h
    · intro h
      cases h
  | some b =>
    constructor
    · intro h
      cases h
      rfl
    · intro h
      cases h
      rfl

end ChipOS
