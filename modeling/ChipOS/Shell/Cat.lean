import ChipOS.Shell.FileLines

namespace ChipOS
open Cuts Run
set_option autoImplicit true

def usageCat : List Print := [.text "Usage: cat <file>\n"]

/-- `if (line_pos > 0) display_line_with_highlighting(line, ext)` -/
def showNonempty (ext line : List UInt8) : List Print :=
  if line.length > 0 then [.showLine line ext] else []

/-- The loop of `cmd_cat` and what follows it. `line` is what it has of the line it is in. -/
def catLoop (ext line : List UInt8) : List UInt8 → List Print
  | [] => showNonempty ext line
  | c :: buffer =>
    if isLineEnd c then showNonempty ext line ++ catLoop ext [] buffer
    else catLoop ext (push lineRoom line c) buffer

def cmdCat (fs : Filesystem) : List CStr → Except Fault (List Print)
  | _ :: name :: _ => do
    let (bytesRead, buffer) ← fsReadFile fs name maxFileSize (maxFileSize - 1)
    if bytesRead < 0 then return nameMessage "cat: cannot read file '" name
    let ext := getFileExtension name.bytes
    return [.text "File: ", .puts name.bytes, .text "\n", separator] ++ catLoop ext [] buffer ++
      [separator]
  | _ => return usageCat

section
variable {line buffer ext data : List UInt8}

theorem shownLines_showNonempty (h : line.length ≤ lineRoom) :
    shownLines (showNonempty ext line) = kept lineRoom [line] := by
  rw [kept, List.map_singleton, List.take_of_length_le h, showNonempty]
  cases line with
  | nil => rfl
  | cons c line => rfl

/-- The loop shows the lines that are not empty, as far as there is room for them. -/
theorem shownLines_catLoop (h : line.length ≤ lineRoom) :
    shownLines (catLoop ext line buffer) = kept lineRoom (pieces isLineEnd lineRoom line buffer) := by
  induction buffer generalizing line with
  | nil => exact shownLines_showNonempty h
  | cons c buffer ih =>
    rw [catLoop, pieces]
    split
    · rw [shownLines_append, shownLines_showNonempty h, ih (Nat.zero_le _), ← kept_cons]
    · exact ih (push_length h)

theorem shownLines_cat (h : 0 ∉ data) :
    shownLines (catLoop ext [] data) = kept lineRoom (data.splitOnP (· == '\n'.toUInt8)) := by
  rw [shownLines_catLoop (Nat.zero_le _), kept_pieces, splitOnP_isLineEnd h]

end

section
variable {fs : Filesystem} {cmd name : CStr} {rest : List CStr}

theorem cmdCat_eq (cmd : CStr) (rest : List CStr) (h : FileHas fs name data) (hnul : 0 ∉ data) :
    ∃ out, cmdCat fs (cmd :: name :: rest) = .ok out ∧
      shownLines out = kept lineRoom ((readPart data).splitOnP (· == '\n'.toUInt8)) := by
  rw [cmdCat, h.readPart, ok_bind]
  simp only
  rw [if_neg (by omega)]
  refine ⟨_, rfl, ?_⟩
  rw [shownLines_append, shownLines_append, shownLines_cat (no_nul_readPart hnul)]
  exact List.append_nil _

/-- `cmd_cat` shows the lines of a file as they are, unless one of them is empty or has more
than 255 characters, or the file has 4096 bytes and the last one is not a newline. -/
theorem cat_lossless (h : FileHas fs name data) (hnul : 0 ∉ data) :
    ∃ out, cmdCat fs (cmd :: name :: rest) = .ok out ∧ (shownLines out = fileLines data ↔
      (∀ l ∈ fileLines data, l ≠ [] ∧ l.length ≤ 255) ∧
      (data.length ≤ 4095 ∨ data.getLast? = some '\n'.toUInt8)) := by
  obtain ⟨out, hout, hshown⟩ := cmdCat_eq cmd rest h hnul
  refine ⟨out, hout, ?_⟩
  rw [hshown]
  by_cases hlen : data.length ≤ 4095
  · have hall : readPart data = data := List.take_of_length_le hlen
    rw [hall]
    exact kept_lines.trans (and_iff_left (.inl hlen)).symm
  · -- all but the last byte is read
    have hmax := h.length_le
    rcases List.eq_nil_or_concat data with rfl | ⟨as, a, rfl⟩
    · exact absurd (Nat.zero_le 4095) hlen
    rw [List.concat_eq_append] at hlen hmax ⊢
    rw [List.length_append, List.length_singleton] at hlen hmax
    have hinit : readPart (as ++ [a]) = as := List.take_left' (by omega : as.length = 4095)
    rw [hinit, List.getLast?_concat, Option.some.injEq]
    refine kept_lines_snoc.trans (and_congr_right fun _ => ?_)
    rw [beq_iff_eq]
    exact (or_iff_right (by rw [List.length_append, List.length_singleton]; omega)).symm

theorem cat_lossless_two : ∃ fs, FileHas fs (.ofString "f.c") [97, 10, 98] ∧
    ∃ out, cmdCat fs [.ofString "cat", .ofString "f.c"] = .ok out ∧
      (shownLines out = fileLines [97, 10, 98] ↔
        (∀ l ∈ fileLines [97, 10, 98], l ≠ [] ∧ l.length ≤ 255) ∧
        ([97, 10, 98].length ≤ 4095 ∨ [97, 10, 98].getLast? = some '\n'.toUInt8)) := by
  obtain ⟨fs, _, hfile⟩ := exists_fileHas [97, 10, 98] (by decide)
  exact ⟨fs, hfile, cat_lossless hfile (by decide)⟩

/-- A file of three lines, the second one empty. -/
theorem cat_skips_blank : ∃ fs, fsWriteFile (fsInit 0) (.ofString "f.c") [97, 10, 10, 98, 10] 5 =
      .ok (fsSuccess, fs) ∧ FileHas fs (.ofString "f.c") [97, 10, 10, 98, 10] ∧
    ∃ out, cmdCat fs [.ofString "cat", .ofString "f.c"] = .ok out ∧
      shownLines out = [[97], [98]] ∧ fileLines [97, 10, 10, 98, 10] = [[97], [], [98]] := by
  obtain ⟨fs, hw, hfile⟩ := exists_fileHas [97, 10, 10, 98, 10] (by decide)
  obtain ⟨out, hout, hshown⟩ := cmdCat_eq (.ofString "cat") [] hfile (by decide)
  exact ⟨fs, hw, hfile, out, hout, hshown.trans (by decide), by decide⟩

end

end ChipOS
