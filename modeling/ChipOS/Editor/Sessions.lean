import ChipOS.Editor.Keys

namespace ChipOS
open CharArray Run
set_option autoImplicit true

/-- A session goes on with the invariant or stops in an array of the file system. -/
def SessionEnds (r : Except Fault Session) : Prop :=
  Ends (fun s => EditorInv s.editor) StorageFault r

section
variable {s : Session}

theorem Quiet.ends (hi : EditorInv s.editor) (hq : Quiet s r) : SessionEnds r := by
  obtain ⟨ed, m, k, b, hm, rfl⟩ := hq
  exact (hi.moved hm).flags

theorem EditsTo.ends (hi : EditorInv s.editor) (he : EditsTo s r) : SessionEnds r := by
  cases he with
  | edit hi' _ => exact hi'
  | save hsave =>
    rcases editorSaveFile_editor hsave with ⟨_, rfl⟩ | ⟨_, rfl⟩
    · exact hi.flags
    · exact hi
  | fault hf => exact hf

theorem editorStep_ends (hi : EditorInv s.editor) : SessionEnds (editorStep s ()) := by
  by_cases he : Edits s
  · exact (editorStep_edits hi he).ends hi
  · exact (editorStep_quiet hi he).ends hi

end

/-- The state that `editor_start` loads a file into. -/
structure BlankState (ed : EditorState) : Prop where
  lines : ∀ i, ed.lines i = fun _ => 0
  cursorLine : ed.cursorLine = 0
  cursorCol : ed.cursorCol = 0
  viewStartLine : ed.viewStartLine = 0

section
variable {ed ed' : EditorState} {E : Fault → Prop}

theorem ends_moved (hi : EditorInv ed) (hm : ∃ ed', r = .ok ed' ∧ Moved ed ed') :
    Ends EditorInv E r := by
  obtain ⟨ed', rfl, hm⟩ := hm
  exact hi.moved hm

theorem newLine_ends (hi : EditorInv ed) : Ends EditorInv E (editorNewLine ed) := by
  by_cases hroom : ed.lineCount < maxLines - 1
  · obtain ⟨ed', he, hi', _⟩ := newLine_marks hi hroom
    rw [he]
    exact hi'
  · rw [newLine_full hroom]
    exact hi

theorem BlankState.start (name : CBuf 256) :
    BlankState { editorZero name with language := l, viewHeight := h } :=
  ⟨fun _ => rfl, rfl, rfl, rfl⟩

theorem BlankState.loaded (hf : BlankState ed) (hl : Loaded ed ed' ls) (h₀ : 0 ≤ line)
    (h₁ : line < ed'.lineCount) : EditorInv { ed' with cursorLine := line } := by
  obtain ⟨lines, n, hframe⟩ := hl.frame
  have hcol : ed'.cursorCol = 0 := (congrArg EditorState.cursorCol hframe).trans hf.cursorCol
  have hview : ed'.viewStartLine = 0 :=
    (congrArg EditorState.viewStartLine hframe).trans hf.viewStartLine
  have hpos := hl.count_pos
  have hle := hl.count_le
  have hcount := hl.count
  refine ⟨?_, ?_, h₀, h₁, hl.terminated, ?_, ?_, ?_⟩
  · change 1 ≤ ed'.lineCount
    omega
  · change ed'.lineCount ≤ maxLines
    omega
  · exact hcol ▸ Int.le_refl 0
  · change ed'.cursorCol ≤ _
    rw [hcol]
    exact Int.natCast_nonneg _
  · exact hview ▸ Int.le_refl 0

theorem BlankState.loaded_start (hf : BlankState ed) (hl : Loaded ed ed' ls) : EditorInv ed' := by
  obtain ⟨lines, n, hframe⟩ := hl.frame
  have hline : ed'.cursorLine = 0 := (congrArg EditorState.cursorLine hframe).trans hf.cursorLine
  have hpos := hl.count_pos
  have hinv : EditorInv { ed' with cursorLine := ed'.cursorLine } :=
    hf.loaded hl (by omega) (by rw [hline, hl.count]; omega)
  exact hinv

theorem BlankState.emptyBuffer (hf : BlankState ed) :
    ∃ ed', ed.emptyBuffer = .ok ed' ∧ Loaded ed ed' [[]] := by
  apply emptyBuffer_loaded
  intro i _ _
  rw [EditorState.text, hf.lines, text_nil rfl]
  decide

theorem BlankState.load_ends (hf : BlankState ed) :
    Ends (fun p : Int × EditorState => ∃ ls, Loaded ed p.2 ls) StorageFault
      (editorLoadFile ed fs filename) := by
  cases hr : fsReadFile fs filename bufferSize (bufferSize - 1) with
  | error e =>
    rw [editorLoadFile, hr]
    rcases fsReadFile_error hr with rfl | ⟨_, hlt⟩
    · exact .inl rfl
    · exact absurd hlt (by decide)
  | ok p =>
    obtain ⟨ed', he, hl⟩ := editorLoadFile_loaded hf.lines hr
    rw [he]
    exact ⟨_, hl⟩

theorem BlankState.openExisting_ends (hf : BlankState ed) :
    Ends EditorInv StorageFault (openExisting ed fs filename choice) := by
  rw [openExisting]
  split
  · apply hf.load_ends.bind
    rintro ⟨_, ed'⟩ ⟨ls, hl⟩
    have hpos := hl.count_pos
    have hlast : EditorInv { ed' with cursorLine := ed'.lineCount - 1 } :=
      hf.loaded hl (by rw [hl.count]; omega) (by omega)
    apply (ends_moved hlast (moveEnd_eq hlast)).bind
    intro ed₁ hi
    rw [hi.current.lineLen, ok_bind]
    split
    · exact (newLine_ends hi).bind fun _ h => h.flags
    · exact hi.flags
  split
  · obtain ⟨ed', he, hl⟩ := hf.emptyBuffer
    rw [he]
    exact (hf.loaded_start hl).flags
  · exact hf.load_ends.bind fun _ ⟨_, hl⟩ => hf.loaded_start hl

end

theorem editorStart_ends (fs : Filesystem) (filename : CStr) (keys : Keys) :
    Ends (fun s => EditorInv s.editor)
      (fun e => StorageFault e ∨ e = .outOfRange .editorFilename ∧ 256 ≤ filename.bytes.length)
      (editorStart fs filename keys) := by
  rw [editorStart]
  by_cases hlen : filename.bytes.length < 256
  swap
  · rw [strcpy, dif_neg hlen]
    exact .inr ⟨rfl, Nat.le_of_not_lt hlen⟩
  rw [strcpy, dif_pos hlen]
  simp only [checked, ok_bind]
  obtain ⟨ed, hed⟩ : ∃ ed : EditorState, ed = { editorZero ⟨filename, hlen⟩ with
      language := detectLanguage filename, viewHeight := 20 } := ⟨_, rfl⟩
  have hf : BlankState ed := hed ▸ .start _
  rw [← hed]
  cases hr : fsReadFile fs filename bufferSize (bufferSize - 1) with
  | error e =>
    rcases fsReadFile_error hr with rfl | ⟨_, hlt⟩
    · exact .inl (.inl rfl)
    · exact absurd hlt (by decide)
  | ok p =>
    rw [ok_bind]
    split
    · have hopen : Ends EditorInv (fun e => StorageFault e ∨ e = .outOfRange .editorFilename ∧
          256 ≤ filename.bytes.length) (openExisting ed fs filename (keys 0)) :=
        hf.openExisting_ends.imp_error fun _ he => .inl he
      exact hopen.bind fun _ h => h
    · obtain ⟨ed', he, hl⟩ := hf.emptyBuffer
      rw [he]
      exact hf.loaded_start hl

/-- At every iteration of the main loop the editor's invariant holds, and a session stops
only in an array of the file system: no access of the editor is out of range. -/
theorem editor_invariant (fs : Filesystem) (filename : CStr) (keys : Keys) :
    (∀ e, editorStart fs filename keys = .error e →
      StorageFault e ∨ e = .outOfRange .editorFilename ∧ 256 ≤ filename.bytes.length) ∧
    ∀ s₀, editorStart fs filename keys = .ok s₀ → ∀ s, Reach editorStep s₀ s →
      EditorInv s.editor ∧ ∀ e, editorStep s () = .error e → StorageFault e := by
  have hstart := editorStart_ends fs filename keys
  refine ⟨fun e he => hstart.error he, fun s₀ hs₀ s hs => ?_⟩
  have hinv₀ : EditorInv s₀.editor := by
    rw [hs₀] at hstart
    exact hstart
  have hinv : EditorInv s.editor := by
    refine hs.invariant (P := fun s => EditorInv s.editor) hinv₀ fun s _ s' hi he => ?_
    have hstep := editorStep_ends hi
    rw [SessionEnds, he] at hstep
    exact hstep
  exact ⟨hinv, fun e he => (editorStep_ends hinv).error he⟩

end ChipOS
