import ChipOS.Fs.Contents
import ChipOS.Lib.Cuts
import ChipOS.Shell.Output

namespace ChipOS
open Cuts Run
set_option autoImplicit true

/-- The characters that end a line in the loops over a buffer. -/
def isLineEnd (c : UInt8) : Bool := c = '\n'.toUInt8 || c = 0

/-- The lines of a file. What the last newline ends has no empty line behind it. -/
def fileLines (data : List UInt8) : List (List UInt8) := lines (· == '\n'.toUInt8) data

/-- The length of a string in the arrays `line` of the commands, without its NUL. -/
def lineRoom : Nat := 255

/-- The part of a file that the commands read. -/
def readPart (data : List UInt8) : List UInt8 := data.take (maxFileSize - 1)

section
variable {data : List UInt8}

theorem isLineEnd_eq (h : c ≠ 0) : isLineEnd c = (c == '\n'.toUInt8) := by
  rw [isLineEnd, decide_eq_false h, Bool.or_false]
  rfl

theorem splitOnP_isLineEnd (h : 0 ∉ data) :
    data.splitOnP isLineEnd = data.splitOnP (· == '\n'.toUInt8) := by
  apply splitOnP_congr
  intro c hc
  apply isLineEnd_eq
  rintro rfl
  exact h hc

theorem ne_newline {l : List UInt8} (h : '\n'.toUInt8 ∉ l) :
    ∀ c ∈ l, (c == '\n'.toUInt8) = false := by
  intro c hc
  rw [beq_eq_false_iff_ne]
  rintro rfl
  exact h hc

theorem FileHas.readPart (h : FileHas fs name data) :
    fsReadFile fs name maxFileSize (maxFileSize - 1) =
      .ok (((readPart data).length : Int), readPart data) :=
  h.read_take (by decide) (by decide)

theorem FileHas.length_le (h : FileHas fs name data) : data.length ≤ 4096 := by
  have hmax : maxFileSize = 4096 := rfl
  have hlen := fsReadFile_data h
  omega

theorem no_nul_readPart (h : 0 ∉ data) : 0 ∉ readPart data := fun hm => h (List.mem_of_mem_take hm)

theorem takeWhile_readPart (h : 0 ∉ data) : (readPart data).takeWhile (· != 0) = readPart data := by
  rw [List.takeWhile_eq_self_iff]
  intro c hc
  rw [bne_iff_ne]
  rintro rfl
  exact no_nul_readPart h hc

theorem readPart_line {k : Nat} (h : ((readPart data).splitOnP (· == '\n'.toUInt8))[k]? = some l) :
    ∃ line, (data.splitOnP (· == '\n'.toUInt8))[k]? = some line ∧ l <+: line := by
  have hsplit : readPart data ++ data.drop (maxFileSize - 1) = data := List.take_append_drop _ data
  obtain ⟨line, hline, hstart⟩ := splitOnP_extends (data.drop (maxFileSize - 1)) h
  rw [hsplit] at hline
  exact ⟨line, hline, hstart⟩

theorem cut_isLineEnd (h : 0 ∉ data) : pieces isLineEnd lineRoom [] (readPart data) =
    ((readPart data).splitOnP (· == '\n'.toUInt8)).map (List.take lineRoom) := by
  rw [pieces_eq, splitOnP_isLineEnd (no_nul_readPart h)]

end

end ChipOS
