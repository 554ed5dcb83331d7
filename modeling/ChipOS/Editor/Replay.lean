import ChipOS.Editor.ViewOnly
import ChipOS.Fs.Contents
import ChipOS.Lib.Simulation

namespace ChipOS
open CharArray Run
set_option autoImplicit true

def saveOp (name : CStr) (ed : EditorState) : FsOp :=
  let data := savedBytes 0 ed.buffer
  .writeFile name data data.length

def saveOps (name : CStr) (saves : List (Int × EditorState)) : List FsOp :=
  saves.reverse.map fun p => saveOp name p.2

/-- What `editor_save_file` returns for the result of its call. -/
def saveResult (r : Int) : Int := if r = fsSuccess then 0 else -1

/-- What the calls of the saves return, and that they leave the file system. -/
def Replays (fs : Filesystem) (name : CStr) (saves : List (Int × EditorState)) (fs' : Filesystem) :
    Prop :=
  ∃ rs, answers fsCall fs (saveOps name saves) = .ok (rs, fs') ∧
    rs.map saveResult = saves.reverse.map Prod.fst

def KeepsName (name : CBuf 256) (r : Except Fault EditorState) : Prop :=
  Ends (fun ed => ed.filename = name) (fun _ => True) r

def KeepsFile (name : CBuf 256) (r : Except Fault Session) : Prop :=
  Ends (fun s => s.editor.filename = name) (fun _ => True) r

section
variable {name : CBuf 256} {ed : EditorState} {s : Session}

theorem keepsName_bind {x : Except Fault α} {f : α → Except Fault EditorState}
    (hf : ∀ a, KeepsName name (f a)) : KeepsName name (x >>= f) := by
  cases x with
  | error e => trivial
  | ok a => exact hf a

theorem keepsFile_bind {x : Except Fault α} {f : α → Except Fault Session}
    (hf : ∀ a, KeepsFile name (f a)) : KeepsFile name (x >>= f) := by
  cases x with
  | error e => trivial
  | ok a => exact hf a

theorem keepsFile_editor {r : Except Fault EditorState} {f : EditorState → Session}
    (hr : KeepsName name r) (hf : ∀ ed, (f ed).editor.filename = ed.filename) :
    KeepsFile name (r >>= fun ed => .ok (f ed)) :=
  Ends.bind hr fun ed he => (hf ed).trans he

theorem keepsName_putChar (he : ed.filename = name) : KeepsName name (ed.putChar line col c) :=
  keepsName_bind fun _ => keepsName_bind fun _ => he

theorem keepsName_copyLine (he : ed.filename = name) : KeepsName name (ed.copyLine dst src col) :=
  keepsName_bind fun _ => keepsName_bind fun _ => keepsName_bind fun _ => he

theorem keepsName_eraseChar (he : ed.filename = name) : KeepsName name (ed.eraseChar low) :=
  keepsName_bind fun _ => keepsName_bind fun _ => keepsName_bind fun _ => he

theorem keepsName_empty (he : ed.filename = name) : KeepsName name ed.emptyBuffer :=
  keepsName_putChar he

theorem keepsName_loadLoop {i linePos : Int} (he : ed.filename = name) :
    KeepsName name (loadLoop buffer room i linePos ed) := by
  induction room generalizing i linePos ed with
  | zero => exact he
  | succ room ih =>
    rw [loadLoop]
    split
    swap
    · exact he
    refine keepsName_bind fun c => ?_
    split
    · exact (keepsName_putChar he).bind fun _ h => ih h
    split
    · exact (keepsName_putChar he).bind fun _ h => ih h
    · exact ih he

theorem keepsName_load (he : ed.filename = name) :
    Ends (fun p : Int × EditorState => p.2.filename = name) (fun _ => True)
      (editorLoadFile ed fs filename) := by
  rw [editorLoadFile]
  cases fsReadFile fs filename bufferSize (bufferSize - 1) with
  | error e => trivial
  | ok p =>
    obtain ⟨bytesRead, data⟩ := p
    rw [ok_bind]
    dsimp only
    split
    · exact (keepsName_empty he).bind fun _ h => h
    cases checked .loadBuffer
        (CharArray.set bufferSize (fun i => data[i.toNat]?.getD 0) bytesRead 0) with
    | error e => trivial
    | ok buffer =>
      rw [ok_bind]
      have hloop : KeepsName name (loadLoop buffer bytesRead.toNat 0 0 { ed with lineCount := 0 }) :=
        keepsName_loadLoop he
      refine hloop.bind fun ed' h => ?_
      split
      · exact (keepsName_empty h).bind fun _ h => h
      · exact h

theorem keepsName_up (he : ed.filename = name) : KeepsName name (moveUp ed) := by
  rw [moveUp]
  split
  · refine keepsName_bind fun lineLen => ?_
    simp only [pure_eq_ok, KeepsName, Ends]
    split <;> split <;> exact he
  · exact he

theorem keepsName_down (he : ed.filename = name) : KeepsName name (moveDown ed) := by
  rw [moveDown]
  split
  · refine keepsName_bind fun lineLen => ?_
    simp only [pure_eq_ok, KeepsName, Ends]
    split <;> split <;> exact he
  · exact he

theorem keepsName_right (he : ed.filename = name) : KeepsName name (moveRight ed) := by
  refine keepsName_bind fun lineLen => ?_
  simp only [pure_eq_ok, KeepsName, Ends]
  split <;> exact he

theorem filename_left : (moveLeft ed).filename = ed.filename := by
  rw [moveLeft]
  split <;> rfl

theorem keepsName_end (he : ed.filename = name) : KeepsName name (moveEnd ed) :=
  keepsName_bind fun _ => he

theorem keepsName_insertChar (he : ed.filename = name) : KeepsName name (editorInsertChar ed c) := by
  refine keepsName_bind fun lineLen => ?_
  split
  · exact keepsName_bind fun _ => keepsName_bind fun _ => keepsName_bind fun _ =>
      keepsName_bind fun _ => he
  · exact he

theorem keepsName_deleteChar (he : ed.filename = name) : KeepsName name (editorDeleteChar ed) := by
  rw [editorDeleteChar]
  split
  · exact (keepsName_eraseChar he).bind fun _ h => h
  · exact he

theorem keepsName_deleteUnder (he : ed.filename = name) : KeepsName name (deleteUnderCursor ed) := by
  refine keepsName_bind fun lineLen => ?_
  split
  · exact (keepsName_eraseChar he).bind fun _ h => h
  · exact he

theorem keepsName_shiftLines (he : ed.filename = name) : KeepsName name (shiftLines low n ed) := by
  induction n generalizing ed with
  | zero => exact he
  | succ n ih => exact (keepsName_copyLine he).bind fun _ h => ih h

theorem keepsName_newLine (he : ed.filename = name) : KeepsName name (editorNewLine ed) := by
  rw [editorNewLine]
  split
  · refine (keepsName_shiftLines he).bind fun ed₁ h₁ => ?_
    have hcopy : KeepsName name ({ ed₁ with lineCount := ed₁.lineCount + 1 }.copyLine
        (ed₁.cursorLine + 1) ed₁.cursorLine ed₁.cursorCol) := keepsName_copyLine h₁
    exact hcopy.bind fun ed₂ h₂ => (keepsName_putChar h₂).bind fun _ h => h
  · exact he

theorem keepsName_insertKey (he : ed.filename = name) : KeepsName name (insertKey ed c) := by
  rw [insertKey]
  split
  · exact keepsName_newLine he
  split
  · exact keepsName_deleteChar he
  split
  · exact keepsName_insertChar he
  · exact he

theorem keepsName_open (he : ed.filename = name) :
    KeepsName name (openExisting ed fs filename choice) := by
  rw [openExisting]
  split
  · refine (keepsName_load he).bind fun p h => ?_
    have hend : KeepsName name (moveEnd { p.2 with cursorLine := p.2.lineCount - 1 }) :=
      keepsName_end h
    refine hend.bind fun ed' h' => ?_
    refine keepsName_bind fun lineLen => ?_
    split
    · exact (keepsName_newLine h').bind fun _ h => h
    · exact h'
  split
  · exact (keepsName_empty he).bind fun _ h => h
  · exact (keepsName_load he).bind fun _ h => h

theorem keepsFile_leave (he : s.editor.filename = name) : s.leaveInsertMode.editor.filename = name := by
  rw [Session.leaveInsertMode]
  split <;> exact he

theorem keepsFile_escape (he : s.editor.filename = name) : KeepsFile name (escapeKey s) := by
  rw [escapeKey]
  dsimp only
  split
  · split
    · exact keepsFile_editor (keepsName_up he) fun _ => rfl
    split
    · exact keepsFile_editor (keepsName_down he) fun _ => rfl
    split
    · exact keepsFile_editor (keepsName_right he) fun _ => rfl
    split
    · exact filename_left.trans he
    · exact keepsFile_leave he
  · exact keepsFile_leave he

theorem keepsFile_readOnly (he : s.editor.filename = name) : KeepsFile name (readOnlyKey s c) := by
  rw [readOnlyKey]
  split
  · exact keepsFile_editor (keepsName_down he) fun _ => rfl
  split
  · exact keepsFile_editor (keepsName_up he) fun _ => rfl
  split
  · exact filename_left.trans he
  split
  · exact keepsFile_editor (keepsName_right he) fun _ => rfl
  split
  · refine keepsFile_bind fun p => ?_
    dsimp only
    split <;> exact he
  · exact he

theorem keepsFile_save (he : s.editor.filename = name) :
    Ends (fun p : Int × Session => p.2.editor.filename = name) (fun _ => True) s.save := by
  rw [Session.save]
  cases hsave : editorSaveFile s.editor s.fs with
  | error e => trivial
  | ok p =>
    obtain ⟨result, ed, fs⟩ := p
    rcases editorSaveFile_editor hsave with ⟨_, rfl⟩ | ⟨_, rfl⟩ <;> exact he

theorem keepsFile_prompt (he : s.editor.filename = name) : KeepsFile name (commandPrompt s) := by
  refine keepsFile_bind fun p => ?_
  have hsave := keepsFile_save (s := { s with keys := p.2 }) he
  dsimp only
  split
  · refine hsave.bind fun q hq => ?_
    split <;> exact hq
  split
  · split <;> exact he
  split
  · exact he
  split
  · refine hsave.bind fun q hq => ?_
    split <;> exact hq
  · exact he

theorem keepsFile_command (he : s.editor.filename = name) : KeepsFile name (commandKey s c) := by
  rw [commandKey]
  split
  · exact he
  split
  · exact keepsFile_editor (keepsName_end he) fun _ => rfl
  split
  · exact (keepsName_end he).bind fun _ h => keepsFile_editor (keepsName_newLine h) fun _ => rfl
  split
  · exact keepsFile_editor (keepsName_down he) fun _ => rfl
  split
  · exact keepsFile_editor (keepsName_up he) fun _ => rfl
  split
  · exact filename_left.trans he
  split
  · exact keepsFile_editor (keepsName_right he) fun _ => rfl
  split
  · exact keepsFile_editor (keepsName_deleteUnder he) fun _ => rfl
  split
  · exact keepsFile_prompt he
  · exact he

theorem keepsFile_step (he : s.editor.filename = name) : KeepsFile name (editorStep s ()) := by
  rw [editorStep]
  split
  swap
  · exact he
  rw [editorIter]
  split
  · exact keepsFile_escape he
  split
  · exact keepsFile_readOnly he
  split
  · exact keepsFile_editor (keepsName_insertKey he) fun _ => rfl
  · exact keepsFile_command he

theorem save_call (hi : EditorInv ed) (hs : editorSaveFile ed fs = .ok (result, ed', fs')) :
    ∃ r, fsCall fs (saveOp ed.filename.toCStr ed') = .ok (r, fs') ∧ saveResult r = result := by
  have hbuffer : ed'.buffer = ed.buffer := by
    rcases editorSaveFile_editor hs with ⟨_, rfl⟩ | ⟨_, rfl⟩ <;> rfl
  rw [editorSaveFile_data, hi.saved, ok_bind] at hs
  obtain ⟨⟨r, fs₁⟩, hwrite, hs⟩ := bind_eq_ok.1 hs
  have hcall : fsCall fs (saveOp ed.filename.toCStr ed') = .ok (r, fs₁) := by
    rw [saveOp, hbuffer]
    exact hwrite
  by_cases hr : r = fsSuccess
  · cases (if_pos hr).symm.trans hs
    exact ⟨r, hcall, if_pos hr⟩
  · cases (if_neg hr).symm.trans hs
    exact ⟨r, hcall, if_neg hr⟩

theorem Replays.save {name : CStr} {saves : List (Int × EditorState)} (hr : Replays fs name saves fs')
    (hc : fsCall fs' (saveOp name ed) = .ok (r, fs'')) :
    Replays fs name ((saveResult r, ed) :: saves) fs'' := by
  obtain ⟨rs, he, hrs⟩ := hr
  refine ⟨rs ++ [r], ?_, ?_⟩
  · rw [saveOps, List.reverse_cons, List.map_append]
    exact answers_concat he hc
  · rw [List.map_append, List.reverse_cons, List.map_append, hrs]
    rfl

theorem Replays.step {name : CStr} (hi : EditorInv s.editor) (hn : s.editor.filename.toCStr = name)
    (hr : Replays fs name s.saves s.fs) (he : editorStep s () = .ok s') :
    Replays fs name s'.saves s'.fs := by
  by_cases hedits : Edits s
  · have hto := editorStep_edits hi hedits
    rw [he] at hto
    cases hto with
    | edit _ _ => exact hr
    | save hsave =>
      obtain ⟨r, hcall, rfl⟩ := save_call hi hsave
      exact hr.save (hn ▸ hcall)
  · obtain ⟨ed, m, k, b, _, hquiet⟩ := editorStep_quiet hi hedits
    cases he.symm.trans hquiet
    exact hr

theorem editorStart_file (hs : editorStart fs filename keys = .ok s) :
    s.editor.filename.toCStr = filename ∧ s.fs = fs ∧ s.saves = [] := by
  obtain ⟨name, hname, hs⟩ := bind_eq_ok.1 hs
  have hfile : name.toCStr = filename := by
    have hcopy := checked_eq_ok.1 hname
    rw [strcpy] at hcopy
    split at hcopy
    · cases hcopy
      rfl
    · cases hcopy
  have hkeeps : ∀ {r : Except Fault EditorState} {ed}, KeepsName name r → r = .ok ed →
      ed.filename.toCStr = filename := by
    rintro _ ed hk rfl
    exact (congrArg CBuf.toCStr hk).trans hfile
  obtain ⟨⟨bytesRead, data⟩, _, hs⟩ := bind_eq_ok.1 hs
  dsimp only at hs
  split at hs
  · obtain ⟨ed, hopen, hs⟩ := bind_eq_ok.1 hs
    cases hs
    exact ⟨hkeeps (keepsName_open rfl) hopen, rfl, rfl⟩
  · obtain ⟨ed, hempty, hs⟩ := bind_eq_ok.1 hs
    cases hs
    exact ⟨hkeeps (keepsName_empty rfl) hempty, rfl, rfl⟩

theorem replays_reach (hs₀ : editorStart fs filename keys = .ok s₀) (hs : Reach editorStep s₀ s) :
    EditorInv s.editor ∧ s.editor.filename.toCStr = filename ∧
      Replays fs filename s.saves s.fs := by
  obtain ⟨hname, hfs, hsaves⟩ := editorStart_file hs₀
  have hinv₀ : EditorInv s₀.editor := by
    have hstart := editorStart_ends fs filename keys
    rw [hs₀] at hstart
    exact hstart
  refine hs.invariant (P := fun s => EditorInv s.editor ∧ s.editor.filename.toCStr = filename ∧
    Replays fs filename s.saves s.fs) ⟨hinv₀, hname, ?_⟩ ?_
  · rw [hfs, hsaves]
    exact ⟨[], rfl, rfl⟩
  · rintro s ⟨⟩ s' ⟨hi, hn, hr⟩ he
    have hstep := editorStep_ends hi
    rw [SessionEnds, he] at hstep
    have hkeeps := keepsFile_step (s := s) rfl
    rw [KeepsFile, he] at hkeeps
    exact ⟨hstep, (congrArg CBuf.toCStr hkeeps).trans hn, hr.step hi hn he⟩

theorem savedBytes_le (ls : List (List UInt8)) (hpos : pos < bufferSize) :
    pos + (savedBytes pos ls).length < bufferSize := by
  induction ls generalizing pos with
  | nil => exact hpos
  | cons l ls ih =>
    rw [savedBytes]
    split
    · split
      · next hfits =>
        split
        · omega
        · have hrest := ih hfits
          rw [List.length_append, List.length_cons]
          omega
      · exact ih hpos
    · exact hpos

theorem Replays.file {name : CStr} {saves : List (Int × EditorState)}
    (hr : Replays fs name ((0, ed) :: saves) fs') : FileHas fs' name (savedBytes 0 ed.buffer) := by
  obtain ⟨rs, he, hrs⟩ := hr
  rw [saveOps, List.reverse_cons, List.map_append] at he
  rw [List.reverse_cons, List.map_append] at hrs
  obtain ⟨rs₁, fs₁, r, he₁, hcall, rfl⟩ := answers_last he
  rw [List.map_append] at hrs
  have hlast : saveResult r = 0 := by
    have hl := congrArg List.getLast? hrs
    simpa using hl
  have hr : r = fsSuccess := by
    by_contra hne
    rw [saveResult, if_neg hne] at hlast
    cases hlast
  have hle : 0 + (savedBytes 0 ed.buffer).length < bufferSize := savedBytes_le _ (by decide)
  have hsize : bufferSize = maxFileSize := rfl
  exact fileHas_written (hr ▸ hcall) (by omega)

end

/-- At every iteration of the main loop the file system is what the saves make of it, called one
after another on the file that is edited. Each of them returned what its call did, and what the
last one saved is in the file, if it returned 0. -/
theorem saves_replay (hs₀ : editorStart fs filename keys = .ok s₀) (hs : Reach editorStep s₀ s) :
    Replays fs filename s.saves s.fs ∧
      ∀ ed saves, s.saves = (0, ed) :: saves → FileHas s.fs filename (savedBytes 0 ed.buffer) := by
  obtain ⟨_, _, hr⟩ := replays_reach hs₀ hs
  refine ⟨hr, fun ed saves he => ?_⟩
  rw [he] at hr
  exact hr.file

/-- A session on a new file, after `x` was typed and saved with `:w`. -/
theorem saves_replay_saved : ∃ s₀ s, editorStart (fsInit 0) (.ofString "a") (typed "ix\x1b :w\n :q\n") =
      .ok s₀ ∧ exec editorStep s₀ (List.replicate 4 ()) = .ok s ∧
    Replays (fsInit 0) (.ofString "a") s.saves s.fs ∧ FileHas s.fs (.ofString "a") [0x78] := by
  obtain ⟨s₀, s, ed, hs₀, hs, hsaves, hdata⟩ : ∃ s₀ s ed,
      editorStart (fsInit 0) (.ofString "a") (typed "ix\x1b :w\n :q\n") = .ok s₀ ∧
      exec editorStep s₀ (List.replicate 4 ()) = .ok s ∧ s.saves = [(0, ed)] ∧
      savedBytes 0 ed.buffer = [0x78] := ⟨_, _, _, rfl, rfl, rfl, rfl⟩
  obtain ⟨hreplays, hfile⟩ := saves_replay hs₀ (Reach.refl.exec hs)
  exact ⟨s₀, s, hs₀, hs, hreplays, hdata ▸ hfile ed [] hsaves⟩

end ChipOS
