import ChipOS.Editor.Sessions

namespace ChipOS
open CharArray Run
set_option autoImplicit true

/-- The cursor's line is among those displayed. -/
def OnScreen (ed : EditorState) : Prop :=
  ed.viewStartLine ≤ ed.cursorLine ∧ ed.cursorLine < ed.viewStartLine + ed.viewHeight

/-- A move of the cursor that keeps it on the screen. -/
def Scrolls (ed ed' : EditorState) : Prop := Moved ed ed' ∧ (OnScreen ed → OnScreen ed')

def EditorState.window (ed : EditorState) : Int × Int × Int :=
  (ed.cursorLine, ed.viewStartLine, ed.viewHeight)

/-- The next iteration splits the cursor's line. -/
def SplitsLine (s : Session) : Prop :=
  s.running = true ∧ s.readOnly = false ∧ s.editor.lineCount < maxLines - 1 ∧
    if s.editor.insertMode then s.keys 0 = '\n'.toUInt8 ∨ s.keys 0 = '\r'.toUInt8
    else s.keys 0 = 'o'.toUInt8

def appendLine (ls : List (List UInt8)) : Nat :=
  if ls.getLast?.getD [] ≠ [] ∧ ls.length < maxLines - 1 then ls.length else ls.length - 1

/-- The lines of a file opened for appending fit the window. -/
def StartsInWindow (fs : Filesystem) (filename : CStr) (choice : UInt8) : Prop :=
  ∀ r data, fsReadFile fs filename bufferSize (bufferSize - 1) = .ok (r, data) → 0 ≤ r →
    choice = '2'.toUInt8 → appendLine (loadedLines data) < 20

section
variable {ed ed' : EditorState}

theorem onScreen_iff {l v h : Int} (hw : ed.window = (l, v, h)) :
    OnScreen ed ↔ v ≤ l ∧ l < v + h := by
  cases hw
  exact Iff.rfl

theorem onScreen_congr (hw : ed'.window = ed.window) : OnScreen ed' ↔ OnScreen ed := onScreen_iff hw

theorem onScreen_up (ho : OnScreen ed) (he : moveUp ed = .ok ed') : OnScreen ed' := by
  rw [OnScreen] at ho ⊢
  rw [moveUp] at he
  split at he
  · obtain ⟨len, _, he⟩ := bind_eq_ok.1 he
    cases he
    dsimp only
    split <;> split <;> dsimp only at * <;> omega
  · cases he
    exact ho

theorem onScreen_down (ho : OnScreen ed) (he : moveDown ed = .ok ed') : OnScreen ed' := by
  rw [OnScreen] at ho ⊢
  rw [moveDown] at he
  split at he
  · obtain ⟨len, _, he⟩ := bind_eq_ok.1 he
    cases he
    dsimp only
    split <;> split <;> dsimp only at * <;> omega
  · cases he
    exact ho

theorem window_right (he : moveRight ed = .ok ed') : ed'.window = ed.window := by
  obtain ⟨len, _, he⟩ := bind_eq_ok.1 he
  cases he
  split <;> rfl

theorem window_left : (moveLeft ed).window = ed.window := by
  rw [moveLeft]
  split <;> rfl

theorem window_end (he : moveEnd ed = .ok ed') : ed'.window = ed.window := by
  obtain ⟨len, _, he⟩ := bind_eq_ok.1 he
  cases he
  rfl

theorem scrolls_of {r : Except Fault EditorState} (hm : ∃ ed', r = .ok ed' ∧ Moved ed ed')
    (ho : ∀ ed', r = .ok ed' → OnScreen ed → OnScreen ed') : ∃ ed', r = .ok ed' ∧ Scrolls ed ed' := by
  obtain ⟨ed', he, hm⟩ := hm
  exact ⟨ed', he, hm, ho ed' he⟩

theorem holdsOfMoves_scrolls : HoldsOfMoves Scrolls where
  moved := fun _ _ hs => hs.1
  refl := fun _ hi => ⟨.refl hi, fun ho => ho⟩
  up := fun _ hi => scrolls_of (moveUp_eq hi) fun _ he ho => onScreen_up ho he
  down := fun _ hi => scrolls_of (moveDown_eq hi) fun _ he ho => onScreen_down ho he
  right := fun _ hi => scrolls_of (moveRight_eq hi) fun _ he => (onScreen_congr (window_right he)).2
  left := fun _ hi => ⟨moveLeft_moved hi, (onScreen_congr window_left).2⟩
  toEnd := fun _ hi => scrolls_of (moveEnd_eq hi) fun _ he => (onScreen_congr (window_end he)).2

theorem window_newLine (hi : EditorInv ed) (hroom : ed.lineCount < maxLines - 1) :
    ∃ ed', editorNewLine ed = .ok ed' ∧
      ed'.window = (ed.cursorLine + 1, ed.viewStartLine, ed.viewHeight) := by
  obtain ⟨col, hcol, _⟩ := hi.col_index
  obtain ⟨lines, he, _⟩ := newLine_eq hi hcol hroom
  exact ⟨_, he, rfl⟩

theorem window_deleteUnder (hi : EditorInv ed) (hlt : ed.cursorCol < (ed.text ed.cursorLine).length) :
    ∃ ed', deleteUnderCursor ed = .ok ed' ∧ ed'.window = ed.window := by
  obtain ⟨col, hcol, _⟩ := hi.col_index
  obtain ⟨row, he, _⟩ := deleteUnderCursor_eq hi hcol rfl (by omega)
  exact ⟨_, he, rfl⟩

theorem window_insertKey (hi : EditorInv ed) (he : InsertEdits ed input)
    (hn : ¬(input = '\n'.toUInt8 ∨ input = '\r'.toUInt8)) :
    ∃ ed', insertKey ed input = .ok ed' ∧ ed'.window = ed.window := by
  rw [InsertEdits, if_neg hn] at he
  rw [insertKey, if_neg hn]
  split
  · next hback =>
    rw [if_pos hback] at he
    obtain ⟨col, hcol, _⟩ := hi.col_pred he
    obtain ⟨row, hdel, _⟩ := deleteChar_eq hi hcol rfl
    exact ⟨_, hdel, rfl⟩
  next hback =>
  rw [if_neg hback] at he
  have hne : input ≠ 0 := by
    rintro rfl
    exact absurd he.1 (by decide)
  obtain ⟨col, hcol, _⟩ := hi.col_index
  obtain ⟨row, hins, _⟩ := insertChar_eq hi hne hcol rfl he.2.2
  rw [if_pos ⟨he.1, he.2.1⟩]
  exact ⟨_, hins, rfl⟩

end

section
variable {s s' : Session}

theorem editorStep_splits (hi : EditorInv s.editor) (hs : SplitsLine s) :
    ∃ s', editorStep s () = .ok s' ∧ s'.running = true ∧
      s'.editor.window =
        (s.editor.cursorLine + 1, s.editor.viewStartLine, s.editor.viewHeight) := by
  obtain ⟨hrun, hread, hroom, hkey⟩ := hs
  split at hkey
  · next hmode =>
    have hesc : s.keys 0 ≠ 27 := by
      rcases hkey with hkey | hkey <;> rw [hkey] <;> decide
    obtain ⟨ed', he, hw⟩ := window_newLine hi hroom
    rw [editorStep_insert hrun hread hesc hmode, insertKey, if_pos hkey, he]
    exact ⟨_, rfl, hrun, hw⟩
  · next hmode =>
    have hesc : s.keys 0 ≠ 27 := by
      rw [hkey]
      decide
    obtain ⟨ed', hend, hm⟩ := moveEnd_eq hi
    have hroom' : ed'.lineCount < maxLines - 1 := by
      cases hm
      exact hroom
    obtain ⟨ed₁, he, hw⟩ := window_newLine (hi.moved hm) hroom'
    have hend' : moveEnd s.anyKey.editor = .ok ed' := hend
    have hwindow := window_end hend
    rw [editorStep_command hrun hread hesc hmode, hkey, commandKey_open, hend', ok_bind, he]
    refine ⟨_, rfl, hrun, hw.trans ?_⟩
    cases hm
    cases hwindow
    rfl

theorem editorStep_inLine (hi : EditorInv s.editor) (he : Edits s) (hn : ¬SplitsLine s)
    (hs : editorStep s () = .ok s') : s'.editor.window = s.editor.window := by
  obtain ⟨hrun, hread, hesc, hedit⟩ := he
  rw [SplitsLine] at hn
  by_cases hmode : s.editor.insertMode = true
  · rw [if_pos hmode] at hedit hn
    have henter : ¬(s.keys 0 = '\n'.toUInt8 ∨ s.keys 0 = '\r'.toUInt8) := by
      intro henter
      rw [InsertEdits, if_pos henter] at hedit
      exact hn ⟨hrun, hread, hedit, henter⟩
    obtain ⟨ed', hins, hw⟩ := window_insertKey hi hedit henter
    rw [editorStep_insert hrun hread hesc hmode, hins] at hs
    cases hs
    exact hw
  · rw [if_neg hmode] at hedit hn
    rw [editorStep_command hrun hread hesc hmode] at hs
    rcases hedit with ⟨hkey, hroom⟩ | ⟨hkey, hlt⟩ | ⟨hkey, hw⟩
    · exact absurd ⟨hrun, hread, hroom, hkey⟩ hn
    · obtain ⟨ed', hdel, hw⟩ := window_deleteUnder hi hlt
      have hdel' : deleteUnderCursor s.anyKey.editor = .ok ed' := hdel
      rw [hkey, commandKey_delete, hdel'] at hs
      cases hs
      exact hw
    · rw [hkey, commandKey_prompt] at hs
      have hsaves := prompt_saves (s := s.anyKey) hi hw
      rw [hs] at hsaves
      cases hsaves with
      | save hsave =>
        rcases editorSaveFile_editor hsave with ⟨_, rfl⟩ | ⟨_, rfl⟩
        · rfl
        · rfl

theorem editorStep_onScreen (hi : EditorInv s.editor) (ho : OnScreen s.editor) (hn : ¬SplitsLine s)
    (hs : editorStep s () = .ok s') : OnScreen s'.editor := by
  by_cases he : Edits s
  · exact (onScreen_congr (editorStep_inLine hi he hn hs)).2 ho
  · obtain ⟨ed, m, k, b, hscrolls, hquiet⟩ := editorStep_quietBy holdsOfMoves_scrolls hi he
    cases hquiet.symm.trans hs
    exact hscrolls.2 ho

end

section
variable {ed ed' : EditorState}

theorem loaded_window (hl : Loaded ed ed' ls) : ed'.window = ed.window := by
  obtain ⟨lines, n, rfl⟩ := hl.frame
  rfl

theorem loaded_last (hl : Loaded ed ed' ls) : ls.getLast?.getD [] = ed'.text (ed'.lineCount - 1) := by
  have hpos := hl.count_pos
  have hlast : ed'.lineCount - 1 = (ls.length - 1 : Nat) := by
    rw [hl.count]
    omega
  have hlt : ls.length - 1 < ed'.buffer.length := by
    rw [hl.buffer]
    omega
  have hget : ls[ls.length - 1]? = some (ed'.text (ls.length - 1 : Nat)) := by
    rw [← buffer_getElem hlt, ← List.getElem?_eq_getElem hlt, hl.buffer]
  rw [List.getLast?_eq_getElem?, hget, hlast, Option.getD_some]

theorem append_window (hf : BlankState ed) (hl : Loaded ed ed' ls) :
    ∃ ed'', (do
      let ed₁ ← moveEnd { ed' with cursorLine := ed'.lineCount - 1 }
      let lineLen ← ed₁.lineLen ed₁.cursorLine
      if lineLen > 0 then editorNewLine ed₁ else .ok ed₁) = .ok ed'' ∧
        ed''.window = ((appendLine ls : Int), ed'.viewStartLine, ed'.viewHeight) := by
  have hpos := hl.count_pos
  have hcount := hl.count
  have hlast : EditorInv { ed' with cursorLine := ed'.lineCount - 1 } :=
    hf.loaded hl (by omega) (by omega)
  obtain ⟨ed₁, hend, hm⟩ := moveEnd_eq hlast
  have hi₁ := hlast.moved hm
  have hwindow := window_end hend
  have htext : ed₁.text ed₁.cursorLine = ls.getLast?.getD [] := by
    rw [loaded_last hl]
    cases hm
    cases hwindow
    rfl
  have hcount₁ : ed₁.lineCount = ls.length := by
    cases hm
    exact hcount
  rw [hend, ok_bind, hi₁.current.lineLen, ok_bind, htext, appendLine]
  have hline : ed₁.window = (((ls.length - 1 : Nat) : Int), ed'.viewStartLine, ed'.viewHeight) := by
    have hpred : ed'.lineCount - 1 = (ls.length - 1 : Nat) := by omega
    rw [hwindow, EditorState.window]
    simp only [hpred]
  by_cases hempty : ls.getLast?.getD [] = []
  · rw [hempty, if_neg (by decide), if_neg fun h => h.1 rfl]
    exact ⟨ed₁, rfl, hline⟩
  have hlen : ((ls.getLast?.getD []).length : Int) > 0 := by
    have := List.length_pos_iff.2 hempty
    omega
  rw [if_pos hlen]
  by_cases hroom : ls.length < maxLines - 1
  · obtain ⟨ed₂, hnew, hw⟩ := window_newLine hi₁ (by rw [hcount₁]; exact Int.ofNat_lt.2 hroom)
    rw [if_pos ⟨hempty, hroom⟩]
    obtain ⟨hl₁, hv₁⟩ := Prod.mk.inj hline
    have hsucc : ed₁.cursorLine + 1 = (ls.length : Int) := by omega
    exact ⟨ed₂, hnew, hw.trans (congrArg₂ Prod.mk hsucc hv₁)⟩
  · rw [if_neg fun h => hroom h.2]
    exact ⟨ed₁, newLine_full (by rw [hcount₁]; omega), hline⟩

theorem openExisting_window (hf : BlankState ed) (hh : ed.viewHeight = 20)
    (hr : fsReadFile fs filename bufferSize (bufferSize - 1) = .ok (r, data))
    (he : openExisting ed fs filename choice = .ok ed') :
    ed'.window = (if choice = '2'.toUInt8 then (appendLine (loadedLines data) : Int) else 0, 0, 20) := by
  have hstart : ed.window = (0, 0, 20) := by
    rw [EditorState.window, hf.cursorLine, hf.viewStartLine, hh]
  obtain ⟨ed₁, hload, hl⟩ := editorLoadFile_loaded hf.lines hr
  have hview : (ed₁.viewStartLine, ed₁.viewHeight) = (0, 20) :=
    congrArg Prod.snd ((loaded_window hl).trans hstart)
  rw [openExisting] at he
  split at he
  · next hchoice =>
    obtain ⟨ed₂, happend, hw⟩ := append_window hf hl
    rw [hload, ok_bind] at he
    obtain ⟨ed₃, hend, he⟩ := bind_eq_ok.1 he
    obtain ⟨len, hlen, he⟩ := bind_eq_ok.1 he
    rw [hend, ok_bind, hlen, ok_bind] at happend
    dsimp only at he
    rw [if_pos hchoice, ← hview]
    by_cases hpos : len > 0
    · rw [if_pos hpos] at he happend
      rw [happend] at he
      cases he
      exact hw
    · rw [if_neg hpos] at he happend
      cases happend
      cases he
      exact hw
  next hchoice =>
  rw [if_neg hchoice]
  split at he
  · obtain ⟨ed₂, hempty, hl₂⟩ := hf.emptyBuffer
    rw [hempty] at he
    cases he
    exact (loaded_window hl₂).trans hstart
  · rw [hload] at he
    cases he
    exact (loaded_window hl).trans hstart

end

/-- The loop starts with the cursor on the screen, unless the lines of a file opened for
appending do not fit. -/
theorem start_onScreen (hs : editorStart fs filename keys = .ok s) :
    s.running = true ∧ (OnScreen s.editor ↔ StartsInWindow fs filename (keys 0)) := by
  obtain ⟨name, hname, hs⟩ := bind_eq_ok.1 hs
  obtain ⟨⟨r, data⟩, hr, hs⟩ := bind_eq_ok.1 hs
  have hf : BlankState { editorZero name with language := detectLanguage filename, viewHeight := 20 } :=
    .start name
  rw [StartsInWindow, hr]
  dsimp only at hs
  split at hs
  · next hexists =>
    obtain ⟨ed, hopen, hs⟩ := bind_eq_ok.1 hs
    have hw := onScreen_iff (openExisting_window hf rfl hr hopen)
    cases hs
    refine ⟨rfl, hw.trans ?_⟩
    by_cases hchoice : keys 0 = '2'.toUInt8
    · rw [if_pos hchoice]
      constructor
      · rintro ⟨_, hlt⟩ _ _ hread _ _
        cases hread
        omega
      · intro h
        have hlt := h r data rfl hexists hchoice
        omega
    · rw [if_neg hchoice]
      exact iff_of_true (by decide) fun _ _ _ _ h => absurd h hchoice
  · next hnew =>
    obtain ⟨ed, hempty, hs⟩ := bind_eq_ok.1 hs
    obtain ⟨ed', hempty', hl⟩ := hf.emptyBuffer
    have hwindow : ed'.window = (0, 0, 20) := loaded_window hl
    cases hempty'.symm.trans hempty
    have hw := onScreen_iff hwindow
    cases hs
    refine ⟨rfl, hw.trans (iff_of_true (by decide) fun _ _ hread hexists => ?_)⟩
    cases hread
    exact absurd hexists hnew

/-- In a session the cursor is on the screen each time that it is drawn if and only if it is there
at the start and no line is split with the cursor on the last line of the window. -/
theorem cursor_on_screen (fs : Filesystem) (filename : CStr) (keys : Keys)
    (hs₀ : editorStart fs filename keys = .ok s₀) :
    (∀ s, Reach editorStep s₀ s → s.running = true → OnScreen s.editor) ↔
      StartsInWindow fs filename (keys 0) ∧
        ∀ s, Reach editorStep s₀ s → SplitsLine s →
          s.editor.cursorLine + 1 < s.editor.viewStartLine + s.editor.viewHeight := by
  obtain ⟨hrun₀, hstart⟩ := start_onScreen hs₀
  have hinv : ∀ s, Reach editorStep s₀ s → EditorInv s.editor :=
    fun s hs => (((editor_invariant fs filename keys).2 s₀ hs₀) s hs).1
  constructor
  · intro h
    refine ⟨hstart.1 (h s₀ .refl hrun₀), fun s hs hsplits => ?_⟩
    obtain ⟨s', he, hrun, hw⟩ := editorStep_splits (hinv s hs) hsplits
    exact ((onScreen_iff hw).1 (h s' (.step hs he) hrun)).2
  · rintro ⟨hin, hlast⟩ s hs hrun
    clear hrun
    induction hs with
    | refl => exact hstart.2 hin
    | @step s _ s' hs he ih =>
      by_cases hsplits : SplitsLine s
      · obtain ⟨s'', he', _, hw⟩ := editorStep_splits (hinv s hs) hsplits
        cases he'.symm.trans he
        have ho : OnScreen s.editor := ih
        rw [OnScreen] at ho
        exact (onScreen_iff hw).2 ⟨by omega, hlast s hs hsplits⟩
      · exact editorStep_onScreen (hinv s hs) ih hsplits he

def enterKeys : Keys := fun n => if n = 0 then 'i'.toUInt8 else '\n'.toUInt8

theorem enter_window : ((do
    let s ← editorStart (fsInit 0) (.ofString "a") enterKeys
    exec editorStep s (List.replicate 21 ()) : Except Fault Session).toOption.map
      fun s : Session => (s.running, s.editor.window)) = some (true, 20, 0, 20) := by
  decide +kernel

theorem enter_leaves_window (hs₀ : editorStart (fsInit 0) (.ofString "a") enterKeys = .ok s₀) :
    ∃ s, Reach editorStep s₀ s ∧ s.running = true ∧ ¬OnScreen s.editor := by
  have hend := enter_window
  rw [hs₀, ok_bind] at hend
  cases hs : exec editorStep s₀ (List.replicate 21 ()) with
  | error e =>
    rw [hs] at hend
    cases hend
  | ok s =>
    rw [hs] at hend
    obtain ⟨hrun, hw⟩ := Prod.mk.inj (Option.some.inj hend)
    refine ⟨s, .exec .refl hs, hrun, fun ho => ?_⟩
    have hlt : (20 : Int) < 0 + 20 := ((onScreen_iff hw).1 ho).2
    exact absurd hlt (by decide)

/-- One of these keys splits the last line of the window. -/
theorem cursor_on_screen_enter : ∃ s₀ s,
    editorStart (fsInit 0) (.ofString "a") enterKeys = .ok s₀ ∧ Reach editorStep s₀ s ∧
    SplitsLine s ∧ s.editor.viewStartLine + s.editor.viewHeight ≤ s.editor.cursorLine + 1 := by
  obtain ⟨s₀, hs₀⟩ : ∃ s₀, editorStart (fsInit 0) (.ofString "a") enterKeys = .ok s₀ := ⟨_, rfl⟩
  obtain ⟨s₁, hs₁, hrun, hoff⟩ := enter_leaves_window hs₀
  have hiff := cursor_on_screen (fsInit 0) (.ofString "a") enterKeys hs₀
  by_contra hnone
  refine hoff (hiff.2 ⟨fun _ _ _ _ hkey => absurd hkey (by decide), fun s hs hsplits => ?_⟩ s₁ hs₁ hrun)
  by_contra hlast
  exact hnone ⟨s₀, s, hs₀, hs, hsplits, Int.not_lt.1 hlast⟩

/-- After 20 lines in a new file the cursor is below the window. -/
theorem cursor_off_screen : ∃ s₀ s,
    editorStart (fsInit 0) (.ofString "a") enterKeys = .ok s₀ ∧
    Reach editorStep s₀ s ∧ s.running = true ∧ ¬OnScreen s.editor := by
  obtain ⟨s₀, hs₀⟩ : ∃ s₀, editorStart (fsInit 0) (.ofString "a") enterKeys = .ok s₀ := ⟨_, rfl⟩
  obtain ⟨s, hs, hrun, hoff⟩ := enter_leaves_window hs₀
  exact ⟨s₀, s, hs₀, hs, hrun, hoff⟩

end ChipOS
