import ChipOS.Shell.FileLines

namespace ChipOS
open Cuts Run
set_option autoImplicit true

/-- The state of the loop of `cmd_edit`: the first `total_size` bytes of `file_buffer`, and the
file system. -/
structure Edit where
  fileBuffer : List UInt8
  fs : Filesystem

/-- How an iteration of the loop ends. -/
inductive Next where
  | again
  | leave (shouldSave : Bool)
deriving DecidableEq, Repr

def bufferFull : String := "Warning: File buffer full, line not added\n"

def finishedEditing : String := "Finished editing\n"

/-- `fs_write_file(filename, file_buffer, total_size)` -/
def writeBuffer (name : CStr) (s : Edit) : Except Fault (Int × Filesystem) :=
  fsWriteFile s.fs name s.fileBuffer s.fileBuffer.length

/-- An iteration of the loop, with the line that `console_gets` returns. -/
def editLine (name : CStr) (ext : List UInt8) (s : Edit) (line : List UInt8) :
    Except Fault (List Print × Edit × Next) :=
  if strcmp line (CStr.ofString ":q").bytes = 0 then
    .ok ([.text "Quit without saving\n"], s, .leave false)
  else if strcmp line (CStr.ofString ":w").bytes = 0 then do
    let (result, fs) ← writeBuffer name s
    return ([.text (if result = 0 then "File saved\n" else "Error saving file\n")],
      { s with fs }, .again)
  else if strcmp line (CStr.ofString ":wq").bytes = 0 then
    .ok ([.text "Save and quit\n"], s, .leave true)
  else if line.length = 0 then .ok ([.text finishedEditing], s, .leave true)
  else if s.fileBuffer.length + line.length + 1 < maxFileSize then
    .ok ([.showLine line ext],
      { s with fileBuffer := s.fileBuffer ++ line ++ ['\n'.toUInt8] }, .again)
  else .ok ([.text bufferFull], s, .again)

/-- The save behind the loop. -/
def saveEdited (name : CStr) (s : Edit) : Except Fault (List Print × Filesystem) := do
  let (result, fs) ← writeBuffer name s
  if result = 0 then return ([.text "File '", .puts name.bytes, .text "' saved successfully\n"], fs)
  return (nameMessage "Error: Could not save file '" name, fs)

/-- The loop on the lines that are typed, and the save behind it. -/
def editLoop (name : CStr) (ext : List UInt8) (s : Edit) :
    List (List UInt8) → Except Fault (List Print × Filesystem)
  | [] => .ok ([], s.fs)
  | line :: lines => do
    let (out, s, next) ← editLine name ext s line
    match next with
    | .again =>
      let (out', fs) ← editLoop name ext s lines
      return (.text "> " :: out ++ out', fs)
    | .leave false => return (.text "> " :: out, s.fs)
    | .leave true =>
      let (out', fs) ← saveEdited name s
      return (.text "> " :: out ++ out', fs)

/-- The loop that shows what is in the file. The display stops at a NUL. -/
def showExisting (ext line : List UInt8) : List UInt8 → List Print
  | [] => if line.length > 0 then [.showLine (line.takeWhile (· != 0)) ext] else []
  | c :: buffer =>
    if c = '\n'.toUInt8 then
      .showLine (line.takeWhile (· != 0)) ext :: showExisting ext [] buffer
    else showExisting ext (push lineRoom line c) buffer

def editHeader (name : CStr) : List Print :=
  [.text "Text Editor - Editing: ", .puts name.bytes, .text "\n",
    .text "Enter text line by line. Commands:\n", .text "  :w    - save file\n",
    .text "  :q    - quit without saving\n", .text "  :wq   - save and quit\n",
    .text "  (empty line) - finish editing and save\n", separator]

/-- `cmd_edit` as far as it gets with the lines that `console_gets` returns to it: what it prints,
and the file system. -/
def cmdEdit (fs : Filesystem) (lines : List (List UInt8)) :
    List CStr → Except Fault (List Print × Filesystem)
  | _ :: name :: _ => do
    let ext := getFileExtension name.bytes
    let (existingSize, buffer) ← fsReadFile fs name maxFileSize (maxFileSize - 1)
    if existingSize > 0 then
      let (out, fs) ← editLoop name ext ⟨buffer, fs⟩ lines
      return (editHeader name ++ [.text "Existing content:\n"] ++ showExisting ext [] buffer ++
        [separator, .text "Append new content:\n"] ++ out, fs)
    else
      let (out, fs) ← editLoop name ext ⟨[], fs⟩ lines
      return (editHeader name ++ out, fs)
  | _ => return ([.text "Usage: edit <filename>\n"], fs)

/-- A line that is text: not empty, no newline in it, and no command. -/
structure TextLine (l : List UInt8) : Prop where
  nonempty : l ≠ []
  no_newline : '\n'.toUInt8 ∉ l
  no_quit : strcmp l (CStr.ofString ":q").bytes ≠ 0
  no_save : strcmp l (CStr.ofString ":w").bytes ≠ 0
  no_save_quit : strcmp l (CStr.ofString ":wq").bytes ≠ 0

/-- The lines that save what was typed: `:w`, `:wq` and the empty one. -/
def SaveLine (l : List UInt8) : Prop :=
  l = (CStr.ofString ":w").bytes ∨ l = (CStr.ofString ":wq").bytes ∨ l = []

section
variable {name : CStr} {s : Edit} {fs fs' : Filesystem} {ext data : List UInt8}
  {ls more : List (List UInt8)} {out : List Print}

theorem editLine_text (hl : TextLine l) : editLine name ext s l =
    if s.fileBuffer.length + l.length + 1 < maxFileSize then
      .ok ([.showLine l ext], { s with fileBuffer := s.fileBuffer ++ l ++ ['\n'.toUInt8] }, .again)
    else .ok ([.text bufferFull], s, .again) := by
  rw [editLine, if_neg hl.no_quit, if_neg hl.no_save, if_neg hl.no_save_quit,
    if_neg fun hz => hl.nonempty (List.eq_nil_of_length_eq_zero hz)]

theorem editLoop_text (hls : ∀ l ∈ ls, TextLine l) (hlen : s.fileBuffer.length < maxFileSize)
    (he : editLoop name ext s (ls ++ more) = .ok (out, fs')) (hwarn : ¬Says out bufferFull) :
    (s.fileBuffer ++ ended '\n'.toUInt8 ls).length < maxFileSize ∧
      ∃ out', editLoop name ext { s with fileBuffer := s.fileBuffer ++ ended '\n'.toUInt8 ls } more =
        .ok (out', fs') := by
  induction ls generalizing s out with
  | nil =>
    have hnone : s.fileBuffer ++ ended '\n'.toUInt8 [] = s.fileBuffer := List.append_nil _
    rw [hnone]
    exact ⟨hlen, out, he⟩
  | cons l ls ih =>
    rw [List.cons_append, editLoop, editLine_text (hls l List.mem_cons_self)] at he
    split at he
    · next hroom =>
      rw [ok_bind] at he
      obtain ⟨⟨out', fs''⟩, hrec, he⟩ := bind_eq_ok.1 he
      cases he
      have hassoc : s.fileBuffer ++ l ++ ['\n'.toUInt8] ++ ended '\n'.toUInt8 ls =
          s.fileBuffer ++ ended '\n'.toUInt8 (l :: ls) := by
        rw [ended_cons, List.append_assoc, List.append_assoc]
        rfl
      have hfits : (s.fileBuffer ++ l ++ ['\n'.toUInt8]).length < maxFileSize := by
        rw [List.length_append, List.length_append]
        exact hroom
      have hrest := ih (fun m hm => hls m (List.mem_cons_of_mem l hm)) hfits hrec
        fun hw => hwarn (says_append.2 (.inr hw))
      simp only [hassoc] at hrest
      exact hrest
    · rw [ok_bind] at he
      obtain ⟨⟨out', fs''⟩, _, he⟩ := bind_eq_ok.1 he
      cases he
      exact absurd (by simp) hwarn

theorem saveEdited_eq_ok (h : saveEdited name s = .ok (out, fs')) :
    ∃ result, writeBuffer name s = .ok (result, fs') := by
  obtain ⟨⟨result, fs''⟩, hw, hr⟩ := bind_eq_ok.1 h
  by_cases hzero : result = 0
  · cases (if_pos hzero).symm.trans hr
    exact ⟨result, hw⟩
  · cases (if_neg hzero).symm.trans hr
    exact ⟨result, hw⟩

theorem editLoop_leave (h : editLine name ext s l = .ok (out₁, s, .leave true))
    (he : editLoop name ext s (l :: more) = .ok (out, fs')) :
    ∃ result, writeBuffer name s = .ok (result, fs') := by
  rw [editLoop, h, ok_bind] at he
  obtain ⟨⟨out', fs''⟩, hsave, hr⟩ := bind_eq_ok.1 he
  cases hr
  exact saveEdited_eq_ok hsave

theorem editLoop_save (hl : SaveLine l) (he : editLoop name ext s [l] = .ok (out, fs')) :
    ∃ result, writeBuffer name s = .ok (result, fs') := by
  rcases hl with rfl | rfl | rfl
  · obtain ⟨⟨out', s', next⟩, hline, he⟩ := bind_eq_ok.1 he
    obtain ⟨⟨result, fs''⟩, hw, hr⟩ := bind_eq_ok.1 hline
    cases hr
    cases he
    exact ⟨result, hw⟩
  · exact editLoop_leave rfl he
  · exact editLoop_leave rfl he

theorem cmdEdit_eq_ok (h : FileHas fs name data) (hlen : data.length < maxFileSize)
    (he : cmdEdit fs ls (cmd :: name :: rest) = .ok (out, fs')) :
    ∃ out', editLoop name (getFileExtension name.bytes) ⟨data, fs⟩ ls = .ok (out', fs') ∧
      ∀ m, Says out' m → Says out m := by
  have hall : readPart data = data := List.take_of_length_le (Nat.le_pred_of_lt hlen)
  rw [cmdEdit, h.readPart, ok_bind, hall] at he
  simp only at he
  split at he
  · obtain ⟨⟨out', fs''⟩, hloop, hr⟩ := bind_eq_ok.1 he
    cases hr
    exact ⟨out', hloop, fun m hm => says_append.2 (.inr hm)⟩
  · next hsize =>
    obtain ⟨⟨out', fs''⟩, hloop, hr⟩ := bind_eq_ok.1 he
    cases hr
    have hnil : data = [] := List.eq_nil_of_length_eq_zero (by omega)
    rw [hnil]
    exact ⟨out', hloop, fun m hm => says_append.2 (.inr hm)⟩

end

section
variable {fs fs' : Filesystem} {cmd name : CStr} {rest : List CStr} {data last : List UInt8}
  {ls : List (List UInt8)} {out : List Print}

/-- The lines typed into `cmd_edit` and saved are added to those of the file, except that the
first one goes on in the last line of a file that does not end in a newline. -/
theorem edit_appends (h : FileHas fs name data) (hlen : data.length < 4096)
    (hls : ∀ l ∈ ls, TextLine l) (hsave : SaveLine last)
    (he : cmdEdit fs (ls ++ [last]) (cmd :: name :: rest) = .ok (out, fs'))
    (hwarn : ¬Says out bufferFull) :
    ∃ saved, FileHas fs' name saved ∧ (fileLines saved = fileLines data ++ ls ↔
      ls = [] ∨ data = [] ∨ data.getLast? = some '\n'.toUInt8) := by
  obtain ⟨out', hloop, hprinted⟩ := cmdEdit_eq_ok h hlen he
  obtain ⟨hroom, out'', hlast⟩ := editLoop_text hls hlen hloop fun hm => hwarn (hprinted _ hm)
  obtain ⟨result, hw⟩ := editLoop_save hsave hlast
  cases h.write_ok hlen hw
  refine ⟨data ++ ended '\n'.toUInt8 ls, fileHas_written hw (Nat.le_of_lt hroom), ?_⟩
  have hopen : ∀ l ∈ ls, ∀ c ∈ l, (c == '\n'.toUInt8) = false :=
    fun l hl => ne_newline (hls l hl).no_newline
  refine (lines_append_ended hopen (beq_self_eq_true _)).trans ?_
  simp only [beq_iff_eq, exists_eq_right]

theorem edit_appends_two : ∃ fs out fs', FileHas fs (.ofString "f.c") [97, 10] ∧
    cmdEdit fs ([[98]] ++ [[]]) [.ofString "edit", .ofString "f.c"] = .ok (out, fs') ∧
    ¬Says out bufferFull ∧
    ∃ saved, FileHas fs' (.ofString "f.c") saved ∧
      (fileLines saved = fileLines [97, 10] ++ [[98]] ↔
        [[98]] = ([] : List (List UInt8)) ∨ [97, 10] = ([] : List UInt8) ∨
          [97, 10].getLast? = some '\n'.toUInt8) := by
  have hrun : ∃ fs out fs',
      fsWriteFile (fsInit 0) (.ofString "f.c") [97, 10] 2 = .ok (fsSuccess, fs) ∧
      cmdEdit fs ([[98]] ++ [[]]) [.ofString "edit", .ofString "f.c"] = .ok (out, fs') ∧
      ¬Says out bufferFull := ⟨_, _, _, rfl, rfl, by decide +kernel⟩
  obtain ⟨fs, out, fs', hw, he, hwarn⟩ := hrun
  have hfile : FileHas fs (.ofString "f.c") [97, 10] := fileHas_written hw (by decide)
  have htext : ∀ l ∈ [[98]], TextLine l := by
    intro l hl
    cases List.mem_singleton.1 hl
    exact ⟨by decide, by decide, by decide, by decide, by decide⟩
  exact ⟨fs, out, fs', hfile, he, hwarn,
    edit_appends hfile (by decide) htext (.inr (.inr rfl)) he hwarn⟩

/-- The line `b` typed into a file with the one line `a`, which no newline ends. -/
theorem edit_merges_line : ∃ fs out fs',
    fsWriteFile (fsInit 0) (.ofString "f.c") [97] 1 = .ok (fsSuccess, fs) ∧
    FileHas fs (.ofString "f.c") [97] ∧
    cmdEdit fs ([[98]] ++ [[]]) [.ofString "edit", .ofString "f.c"] = .ok (out, fs') ∧
    ¬Says out bufferFull ∧ Says out "' saved successfully\n" ∧
    FileHas fs' (.ofString "f.c") [97, 98, 10] ∧
    fileLines [97, 98, 10] = [[97, 98]] ∧ fileLines [97] ++ [[98]] = [[97], [98]] := by
  refine ⟨_, _, _, rfl, rfl, rfl, by decide +kernel, by decide +kernel, rfl, by decide, by decide⟩

end

end ChipOS
