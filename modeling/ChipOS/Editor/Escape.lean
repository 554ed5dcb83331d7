import ChipOS.Editor.Keys

namespace ChipOS
open CharArray Run
set_option autoImplicit true

def Keys.cons (c : UInt8) (keys : Keys) : Keys
  | 0 => c
  | n + 1 => keys n

def Session.command (s : Session) (keys : Keys) : Session :=
  { s with editor := { s.editor with insertMode := false }, keys }

/-- The cursor is not before a character of its line. -/
def AtEnd (ed : EditorState) : Prop :=
  ∃ len, ed.lineLen ed.cursorLine = .ok len ∧ len ≤ ed.cursorCol

/-- A key that does nothing in command mode. -/
def Idle (ed : EditorState) (c : UInt8) : Prop :=
  c = 'j'.toUInt8 ∧ ed.lineCount - 1 ≤ ed.cursorLine ∨
  c = 'k'.toUInt8 ∧ ed.cursorLine ≤ 0 ∨
  c = 'h'.toUInt8 ∧ ed.cursorCol ≤ 0 ∨
  (c = 'l'.toUInt8 ∨ c = 'x'.toUInt8) ∧ AtEnd ed

section
variable {ed ed' : EditorState}

theorem moveUp_line (hpos : ed.cursorLine > 0) (he : moveUp ed = .ok ed') :
    ed'.cursorLine = ed.cursorLine - 1 := by
  rw [moveUp, if_pos hpos] at he
  obtain ⟨len, _, he⟩ := bind_eq_ok.1 he
  cases he
  dsimp only
  split
  · split <;> rfl
  · split <;> rfl

theorem moveDown_line (hlt : ed.cursorLine < ed.lineCount - 1) (he : moveDown ed = .ok ed') :
    ed'.cursorLine = ed.cursorLine + 1 := by
  rw [moveDown, if_pos hlt] at he
  obtain ⟨len, _, he⟩ := bind_eq_ok.1 he
  cases he
  dsimp only
  split
  · split <;> rfl
  · split <;> rfl

theorem moveUp_idle : moveUp ed = .ok ed ↔ ed.cursorLine ≤ 0 := by
  by_cases hpos : ed.cursorLine > 0
  · refine iff_of_false (fun h => ?_) (by omega)
    have hline := moveUp_line hpos h
    omega
  · rw [moveUp, if_neg hpos]
    exact iff_of_true rfl (by omega)

theorem moveDown_idle : moveDown ed = .ok ed ↔ ed.lineCount - 1 ≤ ed.cursorLine := by
  by_cases hlt : ed.cursorLine < ed.lineCount - 1
  · refine iff_of_false (fun h => ?_) (by omega)
    have hline := moveDown_line hlt h
    omega
  · rw [moveDown, if_neg hlt]
    exact iff_of_true rfl (by omega)

theorem moveLeft_idle : moveLeft ed = ed ↔ ed.cursorCol ≤ 0 := by
  rw [moveLeft]
  by_cases hpos : ed.cursorCol > 0
  · refine iff_of_false (fun h => ?_) (by omega)
    rw [if_pos hpos] at h
    have hcol : ed.cursorCol - 1 = ed.cursorCol := congrArg EditorState.cursorCol h
    omega
  · rw [if_neg hpos]
    exact iff_of_true rfl (by omega)

theorem moveRight_idle : moveRight ed = .ok ed ↔ AtEnd ed := by
  rw [moveRight, bind_eq_ok]
  constructor
  · rintro ⟨len, hl, h⟩
    refine ⟨len, hl, ?_⟩
    by_contra hlt
    rw [if_pos (by omega)] at h
    have hcol : ed.cursorCol + 1 = ed.cursorCol := congrArg EditorState.cursorCol (Except.ok.inj h)
    omega
  · rintro ⟨len, hl, hle⟩
    exact ⟨len, hl, congrArg Except.ok (if_neg (by omega))⟩

theorem deleteUnderCursor_idle : deleteUnderCursor ed = .ok ed ↔ AtEnd ed := by
  rw [deleteUnderCursor, bind_eq_ok]
  constructor
  · rintro ⟨len, hl, h⟩
    refine ⟨len, hl, ?_⟩
    by_contra hlt
    rw [if_pos (by omega)] at h
    obtain ⟨ed', he, h⟩ := bind_eq_ok.1 h
    obtain ⟨len', hl', he⟩ := bind_eq_ok.1 he
    cases hl.symm.trans hl'
    obtain ⟨row, hrow, he⟩ := bind_eq_ok.1 he
    obtain ⟨row', hshift, he⟩ := bind_eq_ok.1 he
    have hshift := checked_eq_ok.1 hshift
    cases he
    have hlen : strlen maxLineLength row = some len := by
      rw [EditorState.lineLen, hrow] at hl
      exact checked_eq_ok.1 hl
    have hsame : row' = row := by
      have hlines := congrFun (congrArg EditorState.lines (Except.ok.inj h)) ed.cursorLine
      have hrow : ed.lines ed.cursorLine = row := by
        rw [EditorState.row] at hrow
        split at hrow
        · exact Except.ok.inj hrow
        · cases hrow
      exact (setRow_self).symm.trans (hlines.trans hrow)
    rw [hsame] at hshift
    exact shiftLeft_ne_self hlen (by omega) hshift
  · rintro ⟨len, hl, hle⟩
    exact ⟨len, hl, if_neg (by omega)⟩

end

section
variable {s : Session}

theorem commandKey_of_idle (h : Idle s.editor c) : commandKey s c = .ok s := by
  rcases h with ⟨rfl, h⟩ | ⟨rfl, h⟩ | ⟨rfl, h⟩ | ⟨rfl | rfl, h⟩
  · have he : commandKey s 'j'.toUInt8 =
        moveDown s.editor >>= fun editor => .ok { s with editor } := rfl
    rw [he, moveDown_idle.2 h]
    rfl
  · have he : commandKey s 'k'.toUInt8 =
        moveUp s.editor >>= fun editor => .ok { s with editor } := rfl
    rw [he, moveUp_idle.2 h]
    rfl
  · have he : commandKey s 'h'.toUInt8 = .ok { s with editor := moveLeft s.editor } := rfl
    rw [he, moveLeft_idle.2 h]
  · have he : commandKey s 'l'.toUInt8 =
        moveRight s.editor >>= fun editor => .ok { s with editor } := rfl
    rw [he, moveRight_idle.2 h]
    rfl
  · have he : commandKey s 'x'.toUInt8 =
        deleteUnderCursor s.editor >>= fun editor => .ok { s with editor } := rfl
    rw [he, deleteUnderCursor_idle.2 h]
    rfl

/-- The command `:q!` after its `:`. -/
def quitKeys : Keys := .cons 'q'.toUInt8 (.cons '!'.toUInt8 (.cons '\n'.toUInt8 fun _ => 0))

theorem quitKeys_tail : quitKeys.tail ≠ quitKeys := fun h => absurd (congrFun h 0) (by decide)

theorem commandPrompt_quit (hkeys : s.keys = quitKeys) (hrun : s.running = true) :
    commandPrompt s ≠ .ok s := by
  intro h
  have hq : typedCommand s.keys = (CStr.ofString "q!").bytes := by rw [hkeys]; decide
  obtain ⟨cmd, keys', he, hc⟩ := readCommand_text s.keys
  have hw : ¬isCommand cmd "w" = true := by
    rw [isCommand_iff hc, hq]
    decide
  have hq' : ¬isCommand cmd "q" = true := by
    rw [isCommand_iff hc, hq]
    decide
  rw [commandPrompt, he, ok_bind] at h
  dsimp only at h
  rw [if_neg hw, if_neg hq', if_pos ((isCommand_iff hc).2 hq)] at h
  have hstop := congrArg Session.running (Except.ok.inj h)
  exact Bool.false_ne_true (hstop.trans hrun)

theorem editor_of_bind {r : Except Fault EditorState}
    (h : (r >>= fun ed => .ok { s with editor := ed }) = .ok s) : r = .ok s.editor := by
  obtain ⟨ed, he, h⟩ := bind_eq_ok.1 h
  rw [he, ← congrArg Session.editor (Except.ok.inj h)]

theorem idle_of_commandKey (hkeys : s.keys = quitKeys) (hrun : s.running = true)
    (hmode : s.editor.insertMode = false) (h : commandKey s c = .ok s) : Idle s.editor c := by
  have hinsert : ∀ {ed : EditorState}, { s with editor := { ed with insertMode := true } } ≠ s := by
    intro ed he
    have hm : true = s.editor.insertMode := congrArg (·.editor.insertMode) he
    exact Bool.false_ne_true (hmode.symm.trans hm.symm)
  rw [commandKey] at h
  split at h
  · exact absurd (Except.ok.inj h) hinsert
  split at h
  · obtain ⟨ed, _, h⟩ := bind_eq_ok.1 h
    exact absurd (Except.ok.inj h) hinsert
  split at h
  · obtain ⟨ed, _, h⟩ := bind_eq_ok.1 h
    obtain ⟨ed, _, h⟩ := bind_eq_ok.1 h
    exact absurd (Except.ok.inj h) hinsert
  split at h
  · next hj => exact .inl ⟨hj, moveDown_idle.1 (editor_of_bind h)⟩
  split at h
  · next hk => exact .inr (.inl ⟨hk, moveUp_idle.1 (editor_of_bind h)⟩)
  split at h
  · next hh =>
    exact .inr (.inr (.inl ⟨hh, moveLeft_idle.1 (congrArg Session.editor (Except.ok.inj h))⟩))
  split at h
  · next hl => exact .inr (.inr (.inr ⟨.inl hl, moveRight_idle.1 (editor_of_bind h)⟩))
  split at h
  · next hx => exact .inr (.inr (.inr ⟨.inr hx, deleteUnderCursor_idle.1 (editor_of_bind h)⟩))
  split at h
  · exact absurd h (commandPrompt_quit hkeys hrun)
  · have htail : s.keys.tail = s.keys := congrArg Session.keys (Except.ok.inj h)
    rw [hkeys] at htail
    exact absurd htail quitKeys_tail

/-- `ESC` reads one more key, and drops it. -/
theorem escape_drops (hedit : s.readOnly = false) (hmode : s.editor.insertMode = true)
    (hc : c ≠ '['.toUInt8) :
    editorIter { s with keys := .cons 27 (.cons c keys) } = .ok (s.command keys) := by
  have hleave : editorIter { s with keys := .cons 27 (.cons c keys) } =
      .ok (Session.leaveInsertMode { s with keys }) := if_neg hc
  rw [hleave, Session.leaveInsertMode, if_pos (by rw [hedit, hmode]; rfl)]
  rfl

theorem editorIter_command (hedit : s.readOnly = false) (hc : c ≠ 27) :
    editorIter (s.command (.cons c keys)) = commandKey (s.command keys) c := by
  have hread : ¬(s.command (.cons c keys)).anyKey.readOnly = true := by
    intro h
    exact Bool.false_ne_true (hedit.symm.trans h)
  have hkey : ¬(s.command (.cons c keys)).keys 0 = 27 := hc
  have hmode : ¬(s.command (.cons c keys)).anyKey.editor.insertMode = true := Bool.false_ne_true
  exact (if_neg hkey).trans ((if_neg hread).trans (if_neg hmode))

/-- A second `ESC` reads one more key. -/
theorem editorIter_escape : editorIter (s.command (.cons 27 quitKeys)) = .ok (s.command quitKeys.tail) := by
  have hleave : editorIter (s.command (.cons 27 quitKeys)) =
      .ok (s.command quitKeys.tail).leaveInsertMode := rfl
  rw [hleave, Session.leaveInsertMode, if_neg]
  intro h
  rw [Bool.and_eq_true] at h
  exact Bool.false_ne_true h.2

/-- `ESC` and another key come to the same as leaving the mode and handling the key, whatever is
typed next, exactly if the key does nothing in command mode. -/
theorem escape_idle (s : Session) (c : UInt8) (hrun : s.running = true) (hedit : s.readOnly = false)
    (hmode : s.editor.insertMode = true) (hc : c ≠ '['.toUInt8) :
    (∀ keys, editorIter { s with keys := .cons 27 (.cons c keys) } =
      editorIter { s with editor := { s.editor with insertMode := false }, keys := .cons c keys }) ↔
    Idle s.editor c := by
  constructor
  · intro hall
    have hquit : Except.ok (s.command quitKeys) = editorIter (s.command (.cons c quitKeys)) :=
      (escape_drops hedit hmode hc).symm.trans (hall quitKeys)
    by_cases hesc : c = 27
    · subst hesc
      rw [editorIter_escape] at hquit
      have htail : quitKeys = quitKeys.tail := congrArg Session.keys (Except.ok.inj hquit)
      exact absurd htail.symm quitKeys_tail
    · rw [editorIter_command hedit hesc] at hquit
      have hidle : Idle (s.command quitKeys).editor c := idle_of_commandKey rfl hrun rfl hquit.symm
      exact hidle
  · intro hidle keys
    have hesc : c ≠ 27 := by
      rcases hidle with ⟨rfl, _⟩ | ⟨rfl, _⟩ | ⟨rfl, _⟩ | ⟨rfl | rfl, _⟩ <;> decide
    have hcommand : Idle (s.command keys).editor c := hidle
    rw [escape_drops hedit hmode hc, ← commandKey_of_idle hcommand, ← editorIter_command hedit hesc]
    rfl

end

def insertSession : Session where
  editor := { editorZero ⟨.ofString "a", by decide⟩ with
    lineCount := 1, viewHeight := 20, insertMode := true }
  fs := fsInit 0
  keys := fun _ => 'i'.toUInt8
  running := true
  readOnly := false
  saves := []

theorem escape_idle_left : (∀ keys, editorIter { insertSession with keys := .cons 27 (.cons 'h'.toUInt8 keys) } =
      editorIter { insertSession with
        editor := { insertSession.editor with insertMode := false }, keys := .cons 'h'.toUInt8 keys }) ↔
    Idle insertSession.editor 'h'.toUInt8 :=
  escape_idle insertSession _ rfl rfl rfl (by decide)

/-- After `i` in a new file, `ESC` and `i` leave the editor in command mode. -/
theorem escape_swallows : ∃ s,
    (editorStart (fsInit 0) (.ofString "a") (fun _ => 'i'.toUInt8) >>= editorIter) = .ok s ∧
    s.running = true ∧ s.readOnly = false ∧ s.editor.insertMode = true ∧
    editorIter { s with keys := .cons 27 (.cons 'i'.toUInt8 s.keys) } ≠
      editorIter { s with
        editor := { s.editor with insertMode := false }, keys := .cons 'i'.toUInt8 s.keys } := by
  refine ⟨_, rfl, rfl, rfl, rfl, fun h => ?_⟩
  have hmode := congrArg (Except.map (·.editor.insertMode)) h
  exact absurd (Except.ok.inj hmode) Bool.false_ne_true

end ChipOS
