import ChipOS.Drivers.Console
import ChipOS.Lib.Terminal

namespace ChipOS
open Terminal
set_option autoImplicit true

def rubout : List UInt8 := [8, 32, 8]

/-- What a key other than Enter prints. -/
def echoKey (line : List UInt8) (c : UInt8) : List UInt8 :=
  if c = 8 ∨ c = 127 then if line.length > 0 then rubout else []
  else if 32 ≤ c ∧ c ≤ 126 then [c]
  else []

/-- The loop of `console_gets`: what it prints, and what it returns. -/
def getsEcho (maxLength : Nat) (line : List UInt8) : List UInt8 →
    List UInt8 × Option (List UInt8 × List UInt8)
  | [] => ([], if line.length < maxLength - 1 then none else some (line, []))
  | c :: input =>
    if line.length < maxLength - 1 then
      if isEnter c then (['\n'.toUInt8], some (line, input))
      else
        let (out, result) := getsEcho maxLength (editKey line c) input
        (echoKey line c ++ out, result)
    else ([], some (line, c :: input))

/-- The line that a call has read, also while it waits for more of it. -/
def readSoFar (line input : List UInt8) : Option (List UInt8 × List UInt8) → List UInt8
  | none => input.foldl editKey line
  | some (line, _) => line

section
variable {line input : List UInt8} {row : Row UInt8}

theorem getsEcho_result : (getsEcho maxLength line input).2 = getsLoop maxLength line input := by
  induction input generalizing line with
  | nil => rfl
  | cons c input ih =>
    rw [getsEcho, getsLoop]
    split
    · split
      · rfl
      · exact ih
    · rfl

theorem echoKey_shows (hrow : row.before = base ++ line) (c : UInt8) :
    (row.print 8 (echoKey line c)).before = base ++ editKey line c ∧
      (row.Blank 32 → (row.print 8 (echoKey line c)).Blank 32) := by
  rw [echoKey, editKey]
  split
  · split
    · next hpos =>
      have hne : line ≠ [] := List.length_pos_iff.1 hpos
      have hcursor : 0 < row.cursor := by
        rw [← before_length, hrow, List.length_append]
        omega
      rw [rubout, before_rubout (by decide), hrow, List.dropLast_append_of_ne_nil hne]
      exact ⟨rfl, fun hb => hb.rubout (by decide) hcursor⟩
    · next hnone =>
      cases List.eq_nil_of_length_eq_zero (Nat.eq_zero_of_not_pos hnone)
      exact ⟨hrow, fun hb => hb⟩
  next hback =>
  split
  · have hc : c ≠ 8 := fun hc => hback (.inl hc)
    have hprint : row.print 8 [c] = row.put 8 c := rfl
    rw [hprint, before_char hc, hrow, List.append_assoc]
    exact ⟨rfl, fun hb => hb.char hc⟩
  · exact ⟨hrow, fun hb => hb⟩

theorem getsEcho_shows (hrow : row.before = base ++ line) :
    ∃ echo enter, (getsEcho maxLength line input).1 = echo ++ enter ∧
      (row.print 8 echo).before = base ++ readSoFar line input (getsEcho maxLength line input).2 ∧
      (row.Blank 32 → (row.print 8 echo).Blank 32) ∧
      (enter = [] ∨ enter = ['\n'.toUInt8] ∧ (getsEcho maxLength line input).2 ≠ none) := by
  induction input generalizing line row with
  | nil =>
    rw [getsEcho]
    refine ⟨[], [], rfl, ?_, fun hb => hb, .inl rfl⟩
    split
    · exact hrow
    · exact hrow
  | cons c input ih =>
    rw [getsEcho]
    split
    · split
      · exact ⟨[], _, rfl, hrow, fun hb => hb, .inr ⟨rfl, nofun⟩⟩
      · obtain ⟨hkey, hblank⟩ := echoKey_shows hrow c
        obtain ⟨echo, enter, hout, hshown, hmore, hend⟩ := ih hkey
        refine ⟨echoKey line c ++ echo, enter, ?_, ?_, ?_, hend⟩
        · dsimp only
          rw [hout, List.append_assoc]
        · rw [print_append]
          exact hshown
        · rw [print_append]
          exact fun hb => hmore (hblank hb)
    · exact ⟨[], [], rfl, hrow, fun hb => hb, .inl rfl⟩

end

/-- While `console_gets` waits and when it returns, its echo has left on the row, behind what stood
there before, exactly the line read so far, and blanks behind that if there were blanks before. Only
an Enter that ends the line is printed after it. -/
theorem gets_shows_line (maxLength : Nat) (input : List UInt8) (row : Row UInt8) :
    (getsEcho maxLength [] input).2 = consoleGets maxLength input ∧
      ∃ echo enter, (getsEcho maxLength [] input).1 = echo ++ enter ∧
        (row.print 8 echo).before =
          row.before ++ readSoFar [] input (consoleGets maxLength input) ∧
        (row.Blank 32 → (row.print 8 echo).Blank 32) ∧
        (enter = [] ∨ enter = ['\n'.toUInt8] ∧ consoleGets maxLength input ≠ none) := by
  have hresult : (getsEcho maxLength [] input).2 = consoleGets maxLength input := getsEcho_result
  rw [← hresult]
  exact ⟨rfl, getsEcho_shows (List.append_nil _).symm⟩

end ChipOS
