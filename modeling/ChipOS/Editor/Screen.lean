import ChipOS.Editor.Highlight
import ChipOS.Editor.OnScreen
import ChipOS.Editor.ViewOnly
import ChipOS.Fs.Tokens
import ChipOS.Shell.Numbers

namespace ChipOS
open CharArray Markup Run
set_option autoImplicit true

def literal (s : String) : Item UInt8 String := .text (CStr.ofString s).bytes

def languageName : Language → String
  | .c => "C/C++"
  | .verilog => "Verilog"
  | .systemVerilog => "SystemVerilog"
  | .riscvAsm => "RISC-V Assembly"
  | .plain | .unknown => "Plain Text"

/-- `console_put_dec(i + 1)` -/
def putNumber (i : Int) : Except Fault Printed := do
  let i ← intResult (i + 1)
  let digits ← consolePutDec (toU32 i)
  return [.text digits]

/-- The status bar, and the commands below it. -/
def statusBar (s : Session) : Except Fault Printed := do
  let line ← putNumber s.editor.cursorLine
  let count ← consolePutDec (toU32 s.editor.lineCount)
  return [literal "\n--- ChipOS ---\n", literal "File: ", .text s.editor.filename.toCStr.bytes,
      literal " | Language: ", literal (languageName s.editor.language), literal " | Line: "] ++
    line ++ [literal "/", .text count] ++
    (if s.readOnly then [literal " [READ-ONLY]"]
      else if s.editor.modified then [literal " [MODIFIED]"] else []) ++
    [literal "\n",
      literal (if s.readOnly then "Commands: :q (quit) :h (help) ARROW KEYS (navigate)\n"
        else "Commands: :w (save) :q (quit) :h (help) i (insert) ESC (command) ARROW KEYS\n"),
      literal "========================================\n"]

def endLine (ed : EditorState) : Except Fault Int := do
  let stop ← intResult (ed.viewStartLine + ed.viewHeight)
  return if stop < ed.lineCount then stop else ed.lineCount

def drawLine (ed : EditorState) (i : Int) : Except Fault Printed := do
  let row ← ed.row i
  let line ← checked .editorLines (stringAt maxLineLength row 0)
  let out ← editorDisplayLine ed.language i line
  return literal (if i = ed.cursorLine then ">" else " ") :: out

/-- The loop over the lines from `i` on, with so many left. -/
def drawLines (ed : EditorState) : Nat → Int → Except Fault Printed
  | 0, _ => .ok []
  | n + 1, i => do
    let out ← drawLine ed i
    let more ← drawLines ed n (i + 1)
    return out ++ more

/-- The mode and the position of the cursor. -/
def modeLine (s : Session) : Except Fault Printed := do
  let line ← putNumber s.editor.cursorLine
  let col ← putNumber s.editor.cursorCol
  return literal "\n" ::
    (if s.readOnly then [literal "Mode: VIEW-ONLY"]
      else [literal "Mode: ", literal (if s.editor.insertMode then "INSERT" else "COMMAND")]) ++
    [literal " | Cursor: "] ++ line ++ [literal ":"] ++ col ++ [literal " > "]

/-- What the main loop draws before it reads a key. -/
def drawScreen (s : Session) : Except Fault Printed := do
  let status ← statusBar s
  let stop ← endLine s.editor
  let lines ← drawLines s.editor (stop - s.editor.viewStartLine).toNat s.editor.viewStartLine
  let mode ← modeLine s
  return .mark "\x1b[2J\x1b[H" :: status ++ lines ++ mode

def decimal (m : Nat) : List UInt8 := itoaString 10 m

/-- A line as it is seen: whether the cursor is on it, its number and its text. -/
structure ScreenLine where
  cursor : Bool
  number : Nat
  text : List UInt8

def ScreenLine.chars (l : ScreenLine) : List UInt8 :=
  (CStr.ofString (if l.cursor then ">" else " ")).bytes ++ decimal l.number ++
    (CStr.ofString ": ").bytes ++ l.text ++ ['\n'.toUInt8]

def EditorState.screenLine (ed : EditorState) (k : Nat) : ScreenLine :=
  ⟨(k : Int) = ed.cursorLine, k + 1, ed.text k⟩

/-- The lines of the buffer that stand in the window. -/
def EditorState.screen (ed : EditorState) : List ScreenLine :=
  (((List.range ed.lineCount.toNat).drop ed.viewStartLine.toNat).take ed.viewHeight.toNat).map
    ed.screenLine

def positionText (ed : EditorState) : List UInt8 :=
  decimal (ed.cursorLine + 1).toNat ++ (CStr.ofString ":").bytes ++
    decimal (ed.cursorCol + 1).toNat ++ (CStr.ofString " > ").bytes

def lineText (ed : EditorState) : List UInt8 :=
  decimal (ed.cursorLine + 1).toNat ++ (CStr.ofString "/").bytes ++ decimal ed.lineCount.toNat

/-- The window has its height and starts where a line can be. -/
structure ViewInv (ed : EditorState) : Prop where
  height : ed.viewHeight = 20
  start_lt : ed.viewStartLine < maxLines

section
variable {ed ed' : EditorState}

theorem viewInv_of {l v : Int} (hw : ed.window = (l, v, 20)) (hv : v < maxLines) : ViewInv ed := by
  obtain ⟨_, hw⟩ := Prod.mk.inj hw
  obtain ⟨hstart, hheight⟩ := Prod.mk.inj hw
  exact ⟨hheight, hstart ▸ hv⟩

theorem ViewInv.congr (hv : ViewInv ed) {l : Int}
    (hw : ed'.window = (l, ed.viewStartLine, ed.viewHeight)) : ViewInv ed' := by
  rw [hv.height] at hw
  exact viewInv_of hw hv.start_lt

theorem ViewInv.up (hv : ViewInv ed) (hi : EditorInv ed) (he : moveUp ed = .ok ed') : ViewInv ed' := by
  have hlt := hi.line_lt_max
  have hstart := hv.start_lt
  rw [moveUp] at he
  split at he
  · obtain ⟨len, _, he⟩ := bind_eq_ok.1 he
    cases he
    dsimp only
    constructor
    · split <;> split <;> exact hv.height
    · split <;> split <;> dsimp only <;> omega
  · cases he
    exact hv

theorem ViewInv.down (hv : ViewInv ed) (hi : EditorInv ed) (he : moveDown ed = .ok ed') :
    ViewInv ed' := by
  have hlt := hi.line_lt
  have hle := hi.count_le
  have hheight := hv.height
  have hstart := hv.start_lt
  rw [moveDown] at he
  split at he
  · obtain ⟨len, _, he⟩ := bind_eq_ok.1 he
    cases he
    dsimp only
    constructor
    · split <;> split <;> exact hheight
    · split <;> split <;> dsimp only <;> omega
  · cases he
    exact hv

def KeepsView (ed ed' : EditorState) : Prop := Moved ed ed' ∧ (ViewInv ed → ViewInv ed')

theorem keepsView_of {r : Except Fault EditorState} (hm : ∃ ed', r = .ok ed' ∧ Moved ed ed')
    (hv : ∀ ed', r = .ok ed' → ViewInv ed → ViewInv ed') : ∃ ed', r = .ok ed' ∧ KeepsView ed ed' := by
  obtain ⟨ed', he, hm⟩ := hm
  exact ⟨ed', he, hm, hv ed' he⟩

theorem holdsOfMoves_view : HoldsOfMoves KeepsView where
  moved := fun _ _ hs => hs.1
  refl := fun _ hi => ⟨.refl hi, fun hv => hv⟩
  up := fun _ hi => keepsView_of (moveUp_eq hi) fun _ he hv => hv.up hi he
  down := fun _ hi => keepsView_of (moveDown_eq hi) fun _ he hv => hv.down hi he
  right := fun _ hi => keepsView_of (moveRight_eq hi) fun _ he hv => hv.congr (window_right he)
  left := fun _ hi => ⟨moveLeft_moved hi, fun hv => hv.congr window_left⟩
  toEnd := fun _ hi => keepsView_of (moveEnd_eq hi) fun _ he hv => hv.congr (window_end he)

theorem ViewInv.step {s s' : Session} (hv : ViewInv s.editor) (hi : EditorInv s.editor)
    (hs : editorStep s () = .ok s') : ViewInv s'.editor := by
  by_cases he : Edits s
  · by_cases hsplits : SplitsLine s
    · obtain ⟨s'', hs'', _, hw⟩ := editorStep_splits hi hsplits
      cases hs''.symm.trans hs
      exact hv.congr hw
    · exact hv.congr (editorStep_inLine hi he hsplits hs)
  · obtain ⟨ed, m, k, b, hkeeps, hquiet⟩ := editorStep_quietBy holdsOfMoves_view hi he
    cases hquiet.symm.trans hs
    have hed := hkeeps.2 hv
    exact ⟨hed.height, hed.start_lt⟩

theorem viewInv_start (hs : editorStart fs filename keys = .ok s) : ViewInv s.editor := by
  obtain ⟨name, hname, hs⟩ := bind_eq_ok.1 hs
  obtain ⟨⟨r, data⟩, hr, hs⟩ := bind_eq_ok.1 hs
  have hf : BlankState { editorZero name with language := detectLanguage filename, viewHeight := 20 } :=
    .start name
  dsimp only at hs
  split at hs
  · obtain ⟨ed, hopen, hs⟩ := bind_eq_ok.1 hs
    cases hs
    exact viewInv_of (openExisting_window hf rfl hr hopen) (by decide)
  · obtain ⟨ed, hempty, hs⟩ := bind_eq_ok.1 hs
    obtain ⟨ed', hempty', hl⟩ := hf.emptyBuffer
    have hwindow : ed'.window = (0, 0, 20) := loaded_window hl
    cases hempty'.symm.trans hempty
    cases hs
    exact viewInv_of hwindow (by decide)

end

section
variable {ed : EditorState}

theorem itoaDigit_decimal : ∀ d < 10, itoaDigit (d : Nat) = '0'.toUInt8 + d.toUInt8 := by decide

theorem putDecLoop_eq (h : m < 10 ^ room) : putDecLoop room m digits =
    .ok (((Nat.digits 10 m).map fun (d : Nat) => itoaDigit d).reverse ++ digits) := by
  induction room generalizing m digits with
  | zero =>
    have hz : m = 0 := by omega
    subst hz
    rw [Nat.digits_zero]
    rfl
  | succ room ih =>
    rw [putDecLoop]
    split
    · next hpos =>
      have hlt : m / 10 < 10 ^ room := by
        rw [Nat.pow_succ] at h
        omega
      rw [ih hlt, Nat.digits_def' (by decide) hpos, List.map_cons, List.reverse_cons,
        itoaDigit_decimal _ (Nat.mod_lt m (by decide)), List.append_assoc, List.singleton_append]
    · next hz =>
      have hz : m = 0 := by omega
      subst hz
      rw [Nat.digits_zero]
      rfl

theorem consolePutDec_eq (h : m < 10 ^ 16) : consolePutDec m = .ok (decimal m) := by
  rw [consolePutDec]
  split
  · next hz =>
    subst hz
    rfl
  · next hne =>
    rw [putDecLoop_eq h, List.append_nil, decimal]
    congr 1
    exact (itoaString_pos (Nat.pos_of_ne_zero hne)).symm

theorem toU32_toNat {i : Int} (h₀ : 0 ≤ i) (h : i ≤ intMax) : toU32 i = i.toNat := by
  have hmax : intMax = 2147483647 := rfl
  rw [toU32]
  omega

theorem putNumber_eq {i : Int} (h₀ : 0 ≤ i) (h : i < intMax) :
    putNumber i = .ok [.text (decimal (i + 1).toNat)] := by
  have hmax : intMax = 2147483647 := rfl
  have hmin : intMin = -2147483648 := rfl
  rw [putNumber, intResult_eq (by omega) (by omega), ok_bind, toU32_toNat (by omega) (by omega),
    consolePutDec_eq (by omega)]
  rfl

theorem editorDisplayLine_shows {lineNum : Int} (language : Language) (line : CStr)
    (hlen : line.bytes.length ≤ 255) (h : lineHeader lineNum = .ok header) :
    ∃ body, editorDisplayLine language lineNum line =
        .ok (header ++ body ++ [.text ['\n'.toUInt8]]) ∧
      plain body = line.bytes ∧ ∀ m ∈ marks body, m ∈ colorMarkers := by
  have hmax : maxLineLength = 256 := rfl
  cases language with
  | c => exact highlightLine_shows (fun line hne hl => highlightC_shows hne (by omega)) hlen h
  | verilog => exact highlightLine_shows (fun line hne hl => highlightVerilog_shows hne (by omega)) hlen h
  | systemVerilog =>
    exact highlightLine_shows (fun line hne hl => highlightVerilog_shows hne (by omega)) hlen h
  | riscvAsm => exact highlightLine_shows (fun line hne hl => highlightRiscv_shows hne (by omega)) hlen h
  | plain =>
    refine ⟨[.text line.bytes], ?_, List.append_nil _, fun m hm => absurd hm List.not_mem_nil⟩
    rw [editorDisplayLine, h, List.append_assoc]
    rfl
  | unknown =>
    refine ⟨[.text line.bytes], ?_, List.append_nil _, fun m hm => absurd hm List.not_mem_nil⟩
    rw [editorDisplayLine, h, List.append_assoc]
    rfl

theorem drawLine_eq (hi : EditorInv ed) {k : Nat} (hk : k < maxLines) :
    ∃ out, drawLine ed k = .ok out ∧ plain out = (ed.screenLine k).chars ∧
      ∀ m ∈ marks out, m ∈ colorMarkers := by
  have hmax : maxLineLength = 256 := rfl
  have hlines : maxLines = 1000 := rfl
  have hint : intMax = 2147483647 := rfl
  have hline : HasLine ed k (ed.text k) := hi.hasLine (Int.natCast_nonneg k) (by omega)
  have hshort := hline.short
  have htoken : TokenAt maxLineLength (ed.lines k) 0 ⟨ed.text k, hline.holds.no_nul⟩ :=
    ⟨Int.le_refl 0, by dsimp only; omega, hline.holds⟩
  obtain ⟨digits, hdigits, hheader⟩ : ∃ digits, consolePutDec (toU32 ((k : Int) + 1)) = .ok digits ∧
      lineHeader k = .ok [.text digits, .text (CStr.ofString ": ").bytes] := lineHeader_ok (by omega)
  have hdec : digits = decimal (k + 1) := by
    rw [toU32_toNat (by omega) (by omega), consolePutDec_eq (by omega)] at hdigits
    cases hdigits
    congr 1
  subst hdec
  obtain ⟨body, hbody, hplain, hmarks⟩ :=
    editorDisplayLine_shows ed.language ⟨ed.text k, hline.holds.no_nul⟩ (by dsimp only; omega) hheader
  refine ⟨literal (if (k : Int) = ed.cursorLine then ">" else " ") ::
    ([.text (decimal (k + 1)), .text (CStr.ofString ": ").bytes] ++ body ++ [.text ['\n'.toUInt8]]),
    ?_, ?_, ?_⟩
  · rw [drawLine, hline.row, ok_bind, htoken.stringAt]
    simp only [checked, ok_bind, hbody]
    rfl
  · simp only [literal, plain_text, plain_append, hplain, plain_nil, List.append_nil,
      ScreenLine.chars, EditorState.screenLine, decide_eq_true_eq, List.append_assoc]
  · simpa only [literal, marks_text, marks_append, marks_nil, List.nil_append, List.append_nil]
      using hmarks

theorem drawLines_eq (hi : EditorInv ed) {k n : Nat} (hn : k + n ≤ maxLines) :
    ∃ out, drawLines ed n k = .ok out ∧
      plain out = ((List.range' k n).map ed.screenLine).flatMap ScreenLine.chars ∧
      ∀ m ∈ marks out, m ∈ colorMarkers := by
  induction n generalizing k with
  | zero => exact ⟨[], rfl, rfl, fun m hm => absurd hm List.not_mem_nil⟩
  | succ n ih =>
    obtain ⟨out, hout, hplain, hmarks⟩ := drawLine_eq hi (k := k) (by omega)
    obtain ⟨more, hmore, hplain', hmarks'⟩ := ih (k := k + 1) (by omega)
    refine ⟨out ++ more, ?_, ?_, fun m hm => ?_⟩
    · rw [Int.natCast_succ] at hmore
      rw [drawLines, hout, ok_bind, hmore]
      rfl
    · rw [plain_append, hplain, hplain', List.range'_succ, List.map_cons, List.flatMap_cons]
    · rw [marks_append] at hm
      exact (List.mem_append.1 hm).elim (hmarks m) (hmarks' m)

theorem window_range (v h c : Nat) :
    ((List.range c).drop v).take h = List.range' v (min h (c - v)) := by
  rw [List.range_eq_range', List.drop_range', Nat.zero_add, Nat.mul_one]
  rcases Nat.le_total (c - v) h with hle | hle
  · rw [List.take_range'_of_length_le hle, Nat.min_eq_right hle]
  · rw [List.take_range'_of_length_ge hle, Nat.min_eq_left hle]

theorem drawLines_screen (hi : EditorInv ed) (hv : ViewInv ed) :
    ∃ stop out, endLine ed = .ok stop ∧
      drawLines ed (stop - ed.viewStartLine).toNat ed.viewStartLine = .ok out ∧
      plain out = ed.screen.flatMap ScreenLine.chars ∧ ∀ m ∈ marks out, m ∈ colorMarkers := by
  have hheight := hv.height
  have hstart := hv.start_lt
  have hcount := hi.count_pos
  have hcount' := hi.count_le
  have hlines : maxLines = 1000 := rfl
  have hint : intMax = 2147483647 := rfl
  have hmin : intMin = -2147483648 := rfl
  obtain ⟨v, hstart'⟩ := Int.eq_ofNat_of_zero_le hi.view_nonneg
  obtain ⟨stop, hstop, hlen⟩ : ∃ stop, endLine ed = .ok stop ∧
      (stop - ed.viewStartLine).toNat = min 20 (ed.lineCount.toNat - v) := by
    rw [endLine, intResult_eq (by omega) (by omega), ok_bind]
    split
    · exact ⟨_, rfl, by omega⟩
    · exact ⟨_, rfl, by omega⟩
  obtain ⟨out, hout, hplain, hmarks⟩ := drawLines_eq hi (k := v)
    (n := min 20 (ed.lineCount.toNat - v)) (by omega)
  refine ⟨stop, out, hstop, ?_, ?_, hmarks⟩
  · rw [hlen, hstart']
    exact hout
  · rw [hplain, EditorState.screen, window_range, hstart', hheight]
    rfl

theorem screen_cursor (hi : EditorInv ed) (hv : ViewInv ed) :
    (OnScreen ed → ed.screen.filter ScreenLine.cursor = [ed.screenLine ed.cursorLine.toNat]) ∧
      (¬OnScreen ed → ed.screen.filter ScreenLine.cursor = []) := by
  have hline := hi.line_nonneg
  have hlt := hi.line_lt
  have hview := hi.view_nonneg
  have hheight := hv.height
  obtain ⟨shown, hshown⟩ : ∃ shown, List.range' ed.viewStartLine.toNat
      (min ed.viewHeight.toNat (ed.lineCount.toNat - ed.viewStartLine.toNat)) = shown := ⟨_, rfl⟩
  have hnodup : shown.Nodup := hshown ▸ List.nodup_range'
  have hmem : ed.cursorLine.toNat ∈ shown ↔ OnScreen ed := by
    rw [← hshown, List.mem_range'_1, OnScreen]
    omega
  have hfilter : ed.screen.filter ScreenLine.cursor =
      (List.replicate (shown.count ed.cursorLine.toNat) ed.cursorLine.toNat).map ed.screenLine := by
    rw [EditorState.screen, window_range, hshown, List.filter_map, ← List.filter_eq]
    congr 1
    apply List.filter_congr
    intro k _
    rw [Function.comp_apply, EditorState.screenLine, decide_eq_decide]
    omega
  rw [hfilter, hnodup.count]
  constructor
  · intro ho
    rw [if_pos (hmem.2 ho)]
    rfl
  · intro ho
    rw [if_neg fun hm => ho (hmem.1 hm)]
    rfl

end

section
variable {s : Session}

theorem statusBar_eq (hi : EditorInv s.editor) :
    ∃ out, statusBar s = .ok out ∧ lineText s.editor <:+: plain out := by
  have hline := hi.line_nonneg
  have hlt := hi.line_lt
  have hcount := hi.count_le
  have hlines : maxLines = 1000 := rfl
  have hint : intMax = 2147483647 := rfl
  rw [statusBar, putNumber_eq hline (by omega), ok_bind, toU32_toNat (by omega) (by omega),
    consolePutDec_eq (by omega), ok_bind]
  refine ⟨_, rfl, ?_⟩
  have hmid : plain ([.text (decimal (s.editor.cursorLine + 1).toNat)] ++
      [literal "/", .text (decimal s.editor.lineCount.toNat)]) = lineText s.editor := by
    simp only [plain_append, plain_text, plain_nil, literal, List.append_nil, lineText,
      List.append_assoc]
  rw [← hmid]
  apply plain_infix
  rw [List.append_assoc [_, _, _, _, _, _]]
  exact (List.infix_append _ _ _).trans (List.prefix_append _ _).isInfix

theorem modeLine_eq (hi : EditorInv s.editor) :
    ∃ out, modeLine s = .ok out ∧ positionText s.editor <:+ plain out := by
  have hline := hi.line_nonneg
  have hlt := hi.line_lt
  have hcount := hi.count_le
  have hcol := hi.col_nonneg
  have hcol' := hi.col_le
  have hshort := hi.current.short
  have hlines : maxLines = 1000 := rfl
  have hlength : maxLineLength = 256 := rfl
  have hint : intMax = 2147483647 := rfl
  rw [modeLine, putNumber_eq hline (by omega), ok_bind, putNumber_eq hcol (by omega), ok_bind]
  refine ⟨_, rfl, ?_⟩
  have hend : plain ([.text (decimal (s.editor.cursorLine + 1).toNat)] ++ [literal ":"] ++
      [.text (decimal (s.editor.cursorCol + 1).toNat)] ++ [literal " > "]) =
        positionText s.editor := by
    simp only [plain_append, plain_text, plain_nil, literal, List.append_nil, positionText,
      List.append_assoc]
  rw [← hend]
  apply plain_suffix
  simp only [List.append_assoc]
  exact (List.suffix_append _ _).trans (List.suffix_append _ _)

end

/-- Each time the main loop draws the screen, it prints the lines of the buffer that stand in the
window, all of their characters with their numbers, and the cursor indicator at the line of the
cursor alone, if that is in the window. The status bar and the mode line give the position of the
cursor. Nothing is read out of range. -/
theorem screen_shows_text (fs : Filesystem) (filename : CStr) (keys : Keys)
    (hs₀ : editorStart fs filename keys = .ok s₀) (hs : Reach editorStep s₀ s) :
    ∃ status lines mode,
      drawScreen s = .ok (.mark "\x1b[2J\x1b[H" :: status ++ lines ++ mode) ∧
      lineText s.editor <:+: plain status ∧
      plain lines = s.editor.screen.flatMap ScreenLine.chars ∧
      (∀ m ∈ marks lines, m ∈ colorMarkers) ∧
      (OnScreen s.editor → s.editor.screen.filter ScreenLine.cursor =
        [s.editor.screenLine s.editor.cursorLine.toNat]) ∧
      (¬OnScreen s.editor → s.editor.screen.filter ScreenLine.cursor = []) ∧
      positionText s.editor <:+ plain mode := by
  have hinv₀ : EditorInv s₀.editor := by
    have hstart := editorStart_ends fs filename keys
    rw [hs₀] at hstart
    exact hstart
  obtain ⟨hi, hv⟩ : EditorInv s.editor ∧ ViewInv s.editor := by
    refine hs.invariant (P := fun s => EditorInv s.editor ∧ ViewInv s.editor)
      ⟨hinv₀, viewInv_start hs₀⟩ ?_
    rintro s ⟨⟩ s' ⟨hi, hv⟩ he
    have hstep := editorStep_ends hi
    rw [SessionEnds, he] at hstep
    exact ⟨hstep, hv.step hi he⟩
  obtain ⟨status, hstatus, hline⟩ := statusBar_eq hi
  obtain ⟨stop, lines, hstop, hlines, hplain, hmarks⟩ := drawLines_screen hi hv
  obtain ⟨mode, hmode, hposition⟩ := modeLine_eq hi
  obtain ⟨hon, hoff⟩ := screen_cursor hi hv
  refine ⟨status, lines, mode, ?_, hline, hplain, hmarks, hon, hoff, hposition⟩
  rw [drawScreen, hstatus, ok_bind, hstop, ok_bind, hlines, ok_bind, hmode]
  rfl

/-- Two lines typed into a new file. -/
theorem screen_shows_text_typed : ∃ s₀ s status lines mode,
    editorStart (fsInit 0) (.ofString "a.c") (typed "ia\nint") = .ok s₀ ∧
    exec editorStep s₀ (List.replicate 6 ()) = .ok s ∧
    drawScreen s = .ok (.mark "\x1b[2J\x1b[H" :: status ++ lines ++ mode) ∧
    plain lines = (CStr.ofString " 1: a\n>2: int\n").bytes := by
  obtain ⟨s₀, s, hs₀, hs, hscreen⟩ : ∃ s₀ s,
      editorStart (fsInit 0) (.ofString "a.c") (typed "ia\nint") = .ok s₀ ∧
      exec editorStep s₀ (List.replicate 6 ()) = .ok s ∧
      s.editor.screen.flatMap ScreenLine.chars = (CStr.ofString " 1: a\n>2: int\n").bytes :=
    ⟨_, _, rfl, rfl, by decide +kernel⟩
  obtain ⟨status, lines, mode, hdraw, _, hplain, _⟩ :=
    screen_shows_text (fsInit 0) (.ofString "a.c") (typed "ia\nint") hs₀ (Reach.refl.exec hs)
  exact ⟨s₀, s, status, lines, mode, hs₀, hs, hdraw, hplain.trans hscreen⟩

end ChipOS
