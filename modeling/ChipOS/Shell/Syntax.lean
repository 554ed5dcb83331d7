import ChipOS.Shell.FileLines

namespace ChipOS
open Cuts Run
set_option autoImplicit true

structure CCounts where
  braceCount : Int
  parenCount : Int
  lineNum : Int
deriving DecidableEq, Repr

def CCounts.count (s : CCounts) (c : UInt8) : CCounts :=
  if c = '{'.toUInt8 then { s with braceCount := s.braceCount + 1 }
  else if c = '}'.toUInt8 then { s with braceCount := s.braceCount - 1 }
  else if c = '('.toUInt8 then { s with parenCount := s.parenCount + 1 }
  else if c = ')'.toUInt8 then { s with parenCount := s.parenCount - 1 }
  else if c = '\n'.toUInt8 then { s with lineNum := s.lineNum + 1 }
  else s

def numberLine (message : String) (value : Int) : List Print :=
  [.text message, .putHex (BitVec.ofInt 32 value), .text "\n"]

def balanceLine (count : Int) (balanced unbalanced : String) : List Print :=
  if count = 0 then [.text balanced] else numberLine unbalanced count

def checkC (buffer : List UInt8) : List Print :=
  let s := buffer.foldl CCounts.count ⟨0, 0, 1⟩
  [.text "C/C++ syntax check:\n"] ++
    balanceLine s.braceCount "✓ Braces balanced\n" "✗ Unbalanced braces: " ++
    balanceLine s.parenCount "✓ Parentheses balanced\n" "✗ Unbalanced parentheses: " ++
    numberLine "Lines: " s.lineNum

/-- `while ((ptr = strstr(ptr, word)) != NULL)`, where the word is skipped each time, for at most
so many rounds. -/
def countFound (word : List UInt8) (counts : List UInt8 → Bool) : Nat → List UInt8 → Nat
  | 0, _ => 0
  | rounds + 1, ptr =>
    match strstr ptr word with
    | none => 0
    | some found =>
      (counts found).toNat + countFound word counts rounds (found.drop word.length)

def countBegin (buffer : List UInt8) : Nat :=
  countFound (CStr.ofString "begin").bytes (fun _ => true) buffer.length buffer

def countEnd (buffer : List UInt8) : Nat :=
  countFound (CStr.ofString "end").bytes
    (fun ptr => strncmp ptr (CStr.ofString "endmodule").bytes 9 ≠ 0) buffer.length buffer

def checkVerilog (buffer : List UInt8) : List Print :=
  [.text "Verilog syntax check:\n",
    .text (if contains buffer "module" && contains buffer "endmodule" then
      "✓ Module structure found\n" else "✗ Missing module/endmodule\n"),
    .text (if countBegin buffer = countEnd buffer then "✓ Begin/end blocks balanced\n"
      else "✗ Unbalanced begin/end blocks\n")]

structure AsmCounts where
  instructionCount : Int
  directiveCount : Int
deriving DecidableEq, Repr

def AsmCounts.count (s : AsmCounts) : List UInt8 → AsmCounts
  | [] => s
  | c :: _ =>
    if c ≠ '#'.toUInt8 ∧ c ≠ ';'.toUInt8 then
      if c = '.'.toUInt8 then { s with directiveCount := s.directiveCount + 1 }
      else { s with instructionCount := s.instructionCount + 1 }
    else s

/-- The loop over an assembly file and the NUL behind it. -/
def asmLoop (s : AsmCounts) (line : List UInt8) : List UInt8 → AsmCounts
  | [] => s
  | c :: buffer =>
    if isLineEnd c then asmLoop (s.count line) [] buffer
    else asmLoop s (push lineRoom line c) buffer

def checkAsm (buffer : List UInt8) : List Print :=
  let s := asmLoop ⟨0, 0⟩ [] (buffer ++ [0])
  [.text "Assembly syntax check:\n", .text "✓ Assembly file format\n"] ++
    numberLine "Instructions: " s.instructionCount ++ numberLine "Directives: " s.directiveCount

def checkOther (buffer : List UInt8) : List Print :=
  [.text "Unknown file type - basic text analysis:\n", .text "File size: ",
    .putHex (BitVec.ofInt 32 buffer.length), .text " bytes\n"]

def usageSyntax : List Print :=
  [.text "Usage: syntax <source_file>\n", .text "Check syntax for C, Verilog, or Assembly files\n"]

/-- What `cmd_syntax` prints about the bytes it has read. -/
def syntaxReport (ext : Option (List UInt8)) (buffer : List UInt8) : List Print :=
  if isCExt ext then checkC buffer
  else if isVerilogExt ext then checkVerilog (buffer.takeWhile (· != 0))
  else if isAsmExt ext then checkAsm buffer
  else checkOther buffer

def cmdSyntax (fs : Filesystem) : List CStr → Except Fault (List Print)
  | _ :: filename :: _ => do
    let ext := some (getFileExtension filename.bytes)
    let header := [.text "Syntax checking: ", .puts filename.bytes, .text "\n"]
    let (bytesRead, buffer) ← fsReadFile fs filename maxFileSize (maxFileSize - 1)
    if bytesRead < 0 then return header ++ nameMessage "Error: Cannot read file '" filename
    return header ++ [.text "Basic syntax analysis:\n", .text "----------------------\n"] ++
      syntaxReport ext buffer ++ [.text "Syntax check completed\n"]
  | _ => return usageSyntax

/-- Equally many opening and closing elements, and nowhere more closing ones on the way. -/
def WellNested (opener closer : UInt8) (as : List UInt8) : Prop :=
  as.count opener = as.count closer ∧ ∀ pre, pre <+: as → pre.count closer ≤ pre.count opener

theorem CCounts.count_brackets (s : CCounts) (c : UInt8) :
    (s.count c).braceCount + [c].count '}'.toUInt8 = s.braceCount + [c].count '{'.toUInt8 ∧
      (s.count c).parenCount + [c].count ')'.toUInt8 = s.parenCount + [c].count '('.toUInt8 := by
  rw [CCounts.count]
  split
  · next h => subst h; exact ⟨Int.add_zero _, rfl⟩
  split
  · next h => subst h; exact ⟨(Int.sub_add_cancel _ 1).trans (Int.add_zero _).symm, rfl⟩
  split
  · next h => subst h; exact ⟨rfl, Int.add_zero _⟩
  split
  · next h => subst h; exact ⟨rfl, (Int.sub_add_cancel _ 1).trans (Int.add_zero _).symm⟩
  next hopen hclose hparen hcloseParen =>
  have hnone : ∀ {x : UInt8}, ¬c = x → [c].count x = 0 := by
    intro x hx
    rw [List.count_singleton, if_neg (by rwa [beq_iff_eq])]
  rw [hnone hopen, hnone hclose, hnone hparen, hnone hcloseParen]
  split
  · exact ⟨rfl, rfl⟩
  · exact ⟨rfl, rfl⟩

theorem foldl_count_brackets (s : CCounts) (buffer : List UInt8) :
    (buffer.foldl CCounts.count s).braceCount + buffer.count '}'.toUInt8 =
        s.braceCount + buffer.count '{'.toUInt8 ∧
      (buffer.foldl CCounts.count s).parenCount + buffer.count ')'.toUInt8 =
        s.parenCount + buffer.count '('.toUInt8 := by
  induction buffer generalizing s with
  | nil => exact ⟨rfl, rfl⟩
  | cons c buffer ih =>
    obtain ⟨hbrace, hparen⟩ := s.count_brackets c
    obtain ⟨ihbrace, ihparen⟩ := ih (s.count c)
    rw [List.foldl_cons, ← List.singleton_append]
    simp only [List.count_append]
    omega

theorem says_numberLine {message m : String} {b : Int} :
    Says (numberLine message b) m ↔ m = message ∨ m = "\n" := by
  simp [numberLine]

theorem says_balanceLine {ok bad m : String} {b : Int} : Says (balanceLine b ok bad) m ↔
    b = 0 ∧ m = ok ∨ b ≠ 0 ∧ (m = bad ∨ m = "\n") := by
  rw [balanceLine]
  split
  · next h => simp [h]
  · next h => simp [h, says_numberLine]

theorem says_braces : Says (checkC buffer) "✓ Braces balanced\n" ↔
    buffer.count '{'.toUInt8 = buffer.count '}'.toUInt8 := by
  have hcount := (foldl_count_brackets ⟨0, 0, 1⟩ buffer).1
  simp only at hcount
  simp [checkC, says_balanceLine, says_numberLine]
  omega

theorem says_parens : Says (checkC buffer) "✓ Parentheses balanced\n" ↔
    buffer.count '('.toUInt8 = buffer.count ')'.toUInt8 := by
  have hcount := (foldl_count_brackets ⟨0, 0, 1⟩ buffer).2
  simp only at hcount
  simp [checkC, says_balanceLine, says_numberLine]
  omega

section
variable {fs : Filesystem} {cmd filename : CStr} {rest : List CStr} {data : List UInt8}

theorem cmdSyntax_c (cmd : CStr) (rest : List CStr) (h : FileHas fs filename data)
    (hext : isCExt (some (getFileExtension filename.bytes)) = true) :
    ∃ out, cmdSyntax fs (cmd :: filename :: rest) = .ok out ∧
      (Says out "✓ Braces balanced\n" ↔ Says (checkC (readPart data)) "✓ Braces balanced\n") ∧
      (Says out "✓ Parentheses balanced\n" ↔
        Says (checkC (readPart data)) "✓ Parentheses balanced\n") := by
  rw [cmdSyntax, h.readPart, ok_bind]
  simp only
  rw [if_neg (by omega), syntaxReport, if_pos hext]
  refine ⟨_, rfl, ?_, ?_⟩
  · simp
  · simp

/-- The check of a C file finds the brackets of a kind balanced if there are as many opening as
closing ones. So every well nested file passes, but the order does not matter. -/
theorem syntax_totals (h : FileHas fs filename data)
    (hext : isCExt (some (getFileExtension filename.bytes)) = true) :
    ∃ out, cmdSyntax fs (cmd :: filename :: rest) = .ok out ∧
      (Says out "✓ Braces balanced\n" ↔
        (readPart data).count '{'.toUInt8 = (readPart data).count '}'.toUInt8) ∧
      (Says out "✓ Parentheses balanced\n" ↔
        (readPart data).count '('.toUInt8 = (readPart data).count ')'.toUInt8) ∧
      (WellNested '{'.toUInt8 '}'.toUInt8 (readPart data) ↔ Says out "✓ Braces balanced\n" ∧
        ∀ pre, pre <+: readPart data → pre.count '}'.toUInt8 ≤ pre.count '{'.toUInt8) ∧
      (WellNested '('.toUInt8 ')'.toUInt8 (readPart data) ↔ Says out "✓ Parentheses balanced\n" ∧
        ∀ pre, pre <+: readPart data → pre.count ')'.toUInt8 ≤ pre.count '('.toUInt8) := by
  obtain ⟨out, hout, hbraces, hparens⟩ := cmdSyntax_c cmd rest h hext
  rw [says_braces] at hbraces
  rw [says_parens] at hparens
  refine ⟨out, hout, hbraces, hparens, ?_, ?_⟩
  · rw [hbraces, WellNested]
  · rw [hparens, WellNested]

theorem syntax_totals_braces : ∃ fs, FileHas fs (.ofString "f.c") [123, 125] ∧
    ∃ out, cmdSyntax fs [.ofString "syntax", .ofString "f.c"] = .ok out ∧
      (Says out "✓ Braces balanced\n" ↔ (readPart [123, 125]).count '{'.toUInt8 =
        (readPart [123, 125]).count '}'.toUInt8) ∧
      (Says out "✓ Parentheses balanced\n" ↔ (readPart [123, 125]).count '('.toUInt8 =
        (readPart [123, 125]).count ')'.toUInt8) ∧
      (WellNested '{'.toUInt8 '}'.toUInt8 (readPart [123, 125]) ↔
        Says out "✓ Braces balanced\n" ∧ ∀ pre, pre <+: readPart [123, 125] →
          pre.count '}'.toUInt8 ≤ pre.count '{'.toUInt8) ∧
      (WellNested '('.toUInt8 ')'.toUInt8 (readPart [123, 125]) ↔
        Says out "✓ Parentheses balanced\n" ∧ ∀ pre, pre <+: readPart [123, 125] →
          pre.count ')'.toUInt8 ≤ pre.count '('.toUInt8) := by
  obtain ⟨fs, _, hfile⟩ := exists_fileHas [123, 125] (by decide)
  exact ⟨fs, hfile, syntax_totals hfile (by decide)⟩

/-- A brace that is closed before it is opened passes. -/
theorem syntax_accepts_reversed : ∃ fs,
    fsWriteFile (fsInit 0) (.ofString "f.c") [125, 123] 2 = .ok (fsSuccess, fs) ∧
    FileHas fs (.ofString "f.c") [125, 123] ∧
    ∃ out, cmdSyntax fs [.ofString "syntax", .ofString "f.c"] = .ok out ∧
      Says out "✓ Braces balanced\n" ∧ ¬WellNested '{'.toUInt8 '}'.toUInt8 [125, 123] := by
  obtain ⟨fs, hw, hfile⟩ := exists_fileHas [125, 123] (by decide)
  obtain ⟨out, hout, hbraces, _⟩ := cmdSyntax_c (.ofString "syntax") [] hfile (by decide)
  refine ⟨fs, hw, hfile, out, hout, hbraces.2 (says_braces.2 (by decide)), fun hn => ?_⟩
  have hfirst : [125].count '}'.toUInt8 ≤ [125].count '{'.toUInt8 := hn.2 [125] ⟨[123], rfl⟩
  exact absurd hfirst (by decide)

end

end ChipOS
