import ChipOS.Editor.ViewOnly

namespace ChipOS
open CharArray Run
set_option autoImplicit true

def SameLines (ed ed' : EditorState) : Prop :=
  ed.lineCount = ed'.lineCount ∧ ed.lines = ed'.lines

/-- The state right after `editor_start` has loaded the file or has made an empty buffer. -/
def initialBuffer (fs : Filesystem) (filename : CStr) (menuChoice : UInt8) :
    Except Fault EditorState := do
  let name ← checked .editorFilename (strcpy 256 filename)
  let ed := { editorZero name with language := detectLanguage filename, viewHeight := 20 }
  let (bytesRead, _) ← fsReadFile fs filename bufferSize (bufferSize - 1)
  if bytesRead ≥ 0 ∧ menuChoice ≠ '3'.toUInt8 then
    let (_, ed) ← editorLoadFile ed fs filename
    return ed
  else ed.emptyBuffer

/-- The state that the last call of `editor_save_file` with the result 0 has left, and the one
that the session began with if there was no such call. -/
def savedBuffer (ed₀ : EditorState) : List (Int × EditorState) → EditorState
  | [] => ed₀
  | (result, ed) :: saves => if result = 0 then ed else savedBuffer ed₀ saves

/-- An unmarked buffer is the one that was saved last. -/
def Unedited (ed₀ : EditorState) (s : Session) : Prop :=
  s.editor.modified = false → SameLines s.editor (savedBuffer ed₀ s.saves)

/-- The iteration leaves the main loop through the command `:q`. -/
def Quits (s s' : Session) : Prop :=
  editorStep s () = .ok s' ∧ s.running = true ∧ s'.running = false ∧
    s.keys 0 = ':'.toUInt8 ∧ typedCommand s.keys.tail = (CStr.ofString "q").bytes

section
variable {s : Session}

/-- The read-only mode is neither entered nor left. -/
theorem editorStep_readOnly (hi : EditorInv s.editor) (hs : editorStep s () = .ok s') :
    s'.readOnly = s.readOnly := by
  by_cases hedit : Edits s
  · have hto := editorStep_edits hi hedit
    rw [hs] at hto
    cases hto <;> rfl
  · obtain ⟨ed, m, k, b, _, hq⟩ := editorStep_quiet hi hedit
    cases hs.symm.trans hq
    rfl

theorem Unedited.step (hi : EditorInv s.editor) (hu : Unedited ed₀ s)
    (hs : editorStep s () = .ok s') : Unedited ed₀ s' := by
  intro hmod
  by_cases hedit : Edits s
  · have hto := editorStep_edits hi hedit
    rw [hs] at hto
    cases hto with
    | edit _ hmark => exact absurd (hmark.symm.trans hmod) (by decide)
    | save hsave =>
      rw [savedBuffer]
      -- a save that fails leaves the editor as it was, and the record of the one before counts
      rcases editorSaveFile_editor hsave with ⟨rfl, _⟩ | ⟨rfl, rfl⟩
      · exact ⟨rfl, rfl⟩
      · exact hu hmod
  · obtain ⟨ed, m, k, b, hm, hq⟩ := editorStep_quiet hi hedit
    cases hs.symm.trans hq
    cases hm
    exact hu hmod

theorem quits_editor (hread : s.readOnly = false) (hq : Quits s s') :
    s.editor.modified = false ∧ s'.editor = s.editor ∧ s'.saves = s.saves := by
  obtain ⟨hs, hrun, hend, hcolon, hcmd⟩ := hq
  obtain ⟨cmd, keys', hprompt, hc⟩ := readCommand_text s.keys.tail
  have hesc : ¬s.keys 0 = 27 := by
    rw [hcolon]
    decide
  have hread' : ¬s.anyKey.readOnly = true := Bool.eq_false_iff.1 hread
  rw [editorStep, if_pos hrun] at hs
  unfold editorIter at hs
  dsimp only at hs
  rw [if_neg hesc, if_neg hread'] at hs
  split at hs
  · obtain ⟨ed', _, hs⟩ := bind_eq_ok.1 hs
    cases hs
    exact absurd (hrun.symm.trans hend) (by decide)
  have hq' : isCommand cmd "q" = true := (isCommand_iff hc).2 hcmd
  have hw : ¬isCommand cmd "w" = true := fun h =>
    absurd (hcmd.symm.trans ((isCommand_iff hc).1 h)) (by decide)
  rw [hcolon, commandKey, if_neg (by decide), if_neg (by decide), if_neg (by decide),
    if_neg (by decide), if_neg (by decide), if_neg (by decide), if_neg (by decide),
    if_neg (by decide), if_pos rfl, commandPrompt] at hs
  obtain ⟨p, hp, hs⟩ := bind_eq_ok.1 hs
  cases hprompt.symm.trans hp
  dsimp only at hs
  rw [if_neg hw, if_pos hq'] at hs
  split at hs
  · cases hs
    exact absurd (hrun.symm.trans hend) (by decide)
  · next hmod =>
    cases hs
    exact ⟨Bool.eq_false_iff.2 hmod, rfl, rfl⟩

end

theorem newLine_modified (he : editorNewLine ed = .ok ed') : ed' = ed ∨ ed'.modified = true := by
  rw [editorNewLine] at he
  split at he
  · obtain ⟨ed₁, _, he⟩ := bind_eq_ok.1 he
    obtain ⟨ed₂, _, he⟩ := bind_eq_ok.1 he
    obtain ⟨ed₃, _, he⟩ := bind_eq_ok.1 he
    cases he
    exact .inr rfl
  · cases he
    exact .inl rfl

theorem openExisting_initial (hopen : openExisting ed fs filename choice = .ok ed') :
    ∃ ed₀, (if choice ≠ '3'.toUInt8 then editorLoadFile ed fs filename >>= fun p => .ok p.2
        else ed.emptyBuffer) = .ok ed₀ ∧ (ed'.modified = false → SameLines ed' ed₀) := by
  rw [openExisting] at hopen
  split at hopen
  · next htwo =>
    obtain ⟨⟨_, loaded⟩, hload, hopen⟩ := bind_eq_ok.1 hopen
    refine ⟨loaded, ?_, fun hmod => ?_⟩
    · rw [htwo, if_pos (by decide), hload]
      rfl
    obtain ⟨moved, hmoved, hopen⟩ := bind_eq_ok.1 hopen
    obtain ⟨len, _, hopen⟩ := bind_eq_ok.1 hopen
    obtain ⟨_, _, hmoved⟩ := bind_eq_ok.1 hmoved
    cases hmoved
    split at hopen
    · obtain ⟨ed₁, hnew, hopen⟩ := bind_eq_ok.1 hopen
      cases hopen
      rcases newLine_modified hnew with rfl | hmark
      · exact ⟨rfl, rfl⟩
      · exact absurd (hmark.symm.trans hmod) (by decide)
    · cases hopen
      exact ⟨rfl, rfl⟩
  split at hopen
  · next hthree =>
    obtain ⟨empty, hempty, hopen⟩ := bind_eq_ok.1 hopen
    cases hopen
    refine ⟨empty, ?_, fun _ => ⟨rfl, rfl⟩⟩
    rw [if_neg fun h => h hthree, hempty]
  · next hthree =>
    obtain ⟨⟨_, loaded⟩, hload, hopen⟩ := bind_eq_ok.1 hopen
    refine ⟨loaded, ?_, fun _ => ?_⟩
    · rw [if_pos hthree, hload]
      rfl
    · cases hopen
      exact ⟨rfl, rfl⟩

/-- A session begins with an initial buffer, and if this buffer is unmarked, it is not
changed either. -/
theorem editorStart_initial (hstart : editorStart fs filename keys = .ok s₀) :
    ∃ ed₀, initialBuffer fs filename (keys 0) = .ok ed₀ ∧ Unedited ed₀ s₀ ∧
      s₀.readOnly = false := by
  obtain ⟨name, hname, hstart⟩ := bind_eq_ok.1 hstart
  obtain ⟨⟨bytesRead, data⟩, hr, hstart⟩ := bind_eq_ok.1 hstart
  rw [initialBuffer, hname, ok_bind, hr, ok_bind]
  dsimp only at hstart ⊢
  split at hstart
  · next hpos =>
    obtain ⟨ed, hopen, hstart⟩ := bind_eq_ok.1 hstart
    obtain ⟨ed₀, hinit, hsame⟩ := openExisting_initial hopen
    cases hstart
    refine ⟨ed₀, ?_, hsame, Bool.and_false _⟩
    rw [← hinit]
    exact if_congr (and_iff_right hpos) rfl rfl
  · next hneg =>
    obtain ⟨ed, hempty, hstart⟩ := bind_eq_ok.1 hstart
    cases hstart
    refine ⟨ed, ?_, fun _ => ⟨rfl, rfl⟩, Bool.and_false _⟩
    rw [if_neg fun h => hneg h.1, hempty]

/-- An unmarked buffer is always the one that was saved last, or the initial one, and this is
the buffer that `:q` leaves. -/
theorem quit_keeps (fs : Filesystem) (filename : CStr) (keys : Keys) :
    ∀ s₀, editorStart fs filename keys = .ok s₀ →
      ∃ ed₀, initialBuffer fs filename (keys 0) = .ok ed₀ ∧
        ∀ s, Reach editorStep s₀ s → Unedited ed₀ s ∧
          ∀ s', Quits s s' → SameLines s'.editor (savedBuffer ed₀ s'.saves) := by
  intro s₀ hstart
  obtain ⟨ed₀, hinit, hu₀, hread₀⟩ := editorStart_initial hstart
  have hi₀ : EditorInv s₀.editor := by
    have hends := editorStart_ends fs filename keys
    rw [hstart] at hends
    exact hends
  refine ⟨ed₀, hinit, fun s hs => ?_⟩
  have hinv : EditorInv s.editor ∧ s.readOnly = false ∧ Unedited ed₀ s := by
    refine hs.invariant (P := fun s => EditorInv s.editor ∧ s.readOnly = false ∧ Unedited ed₀ s)
      ⟨hi₀, hread₀, hu₀⟩ fun s _ s' ⟨hi, hread, hu⟩ he => ?_
    have hends := editorStep_ends hi
    rw [SessionEnds, he] at hends
    exact ⟨hends, (editorStep_readOnly hi he).trans hread, hu.step hi he⟩
  obtain ⟨_, hread, hu⟩ := hinv
  refine ⟨hu, fun s' hq => ?_⟩
  obtain ⟨hmod, hed, hsaves⟩ := quits_editor hread hq
  rw [hed, hsaves]
  exact hu hmod

theorem quit_keeps_new : ∃ s₀, editorStart (fsInit 0) (.ofString "a") (typed "ix\x1b :w\n :q\n") =
      .ok s₀ ∧
    ∃ ed₀, initialBuffer (fsInit 0) (.ofString "a") (typed "ix\x1b :w\n :q\n" 0) = .ok ed₀ ∧
      ∀ s, Reach editorStep s₀ s → Unedited ed₀ s ∧
        ∀ s', Quits s s' → SameLines s'.editor (savedBuffer ed₀ s'.saves) :=
  ⟨_, rfl, quit_keeps _ _ _ _ rfl⟩

/-- The keys of that session, with a save and without one. -/
example :
    ((editorStart (fsInit 0) (.ofString "a") (typed "ix\x1b :w\n :q\n") >>= fun s₀ =>
      exec editorStep s₀ [(), (), (), (), ()]).map
        fun s => (s.running, s.editor.text 0, s.saves.map Prod.fst)) = .ok (false, [120], [0]) ∧
    ((editorStart (fsInit 0) (.ofString "a") (typed "ix\x1b :q\n") >>= fun s₀ =>
      exec editorStep s₀ [(), (), (), ()]).map
        fun s => (s.running, s.editor.text 0, s.saves.map Prod.fst)) = .ok (true, [120], []) := by
  decide +kernel

end ChipOS
