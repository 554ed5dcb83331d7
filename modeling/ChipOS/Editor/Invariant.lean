import ChipOS.Editor.Lines

namespace ChipOS
open CharArray Run
set_option autoImplicit true

/-- What holds at each iteration of the main loop. A row whose text is shorter than the row
has its NUL. -/
structure EditorInv (ed : EditorState) : Prop where
  count_pos : 1 ≤ ed.lineCount
  count_le : ed.lineCount ≤ maxLines
  line_nonneg : 0 ≤ ed.cursorLine
  line_lt : ed.cursorLine < ed.lineCount
  terminated : ∀ line : Int, 0 ≤ line → line < maxLines → (ed.text line).length < maxLineLength
  col_nonneg : 0 ≤ ed.cursorCol
  col_le : ed.cursorCol ≤ (ed.text ed.cursorLine).length
  view_nonneg : 0 ≤ ed.viewStartLine

/-- `ed` with the cursor and the view somewhere else. -/
inductive Moved (ed : EditorState) : EditorState → Prop
  | mk {l c v : Int} : 0 ≤ l → l < ed.lineCount → 0 ≤ c → c ≤ (ed.text l).length → 0 ≤ v →
      Moved ed { ed with cursorLine := l, cursorCol := c, viewStartLine := v }

section
variable {ed ed' : EditorState}

theorem EditorInv.hasLine {line : Int} (hi : EditorInv ed) (h₀ : 0 ≤ line) (h₁ : line < maxLines) :
    HasLine ed line (ed.text line) :=
  ⟨h₀, h₁, holds_text (hi.terminated line h₀ h₁), hi.terminated line h₀ h₁⟩

theorem EditorInv.line_lt_max (hi : EditorInv ed) : ed.cursorLine < maxLines :=
  Int.lt_of_lt_of_le hi.line_lt hi.count_le

theorem EditorInv.current (hi : EditorInv ed) :
    HasLine ed ed.cursorLine (ed.text ed.cursorLine) :=
  hi.hasLine hi.line_nonneg hi.line_lt_max

theorem EditorInv.col_index (hi : EditorInv ed) :
    ∃ col : Nat, ed.cursorCol = col ∧ col ≤ (ed.text ed.cursorLine).length := by
  have hle := hi.col_le
  obtain ⟨col, hcol⟩ := Int.eq_ofNat_of_zero_le hi.col_nonneg
  exact ⟨col, hcol, by omega⟩

theorem EditorInv.col_pred (hi : EditorInv ed) (hpos : ed.cursorCol > 0) :
    ∃ col : Nat, ed.cursorCol = col + 1 ∧ col < (ed.text ed.cursorLine).length := by
  obtain ⟨col, hcol, hle⟩ := hi.col_index
  cases col with
  | zero => omega
  | succ col => exact ⟨col, hcol, hle⟩

theorem EditorInv.moved (hi : EditorInv ed) (hm : Moved ed ed') : EditorInv ed' := by
  cases hm with
  | mk hl hl' hc hc' hv => exact ⟨hi.count_pos, hi.count_le, hl, hl', hi.terminated, hc, hc', hv⟩

theorem EditorInv.flags (hi : EditorInv ed) :
    EditorInv { ed with insertMode := m, modified := d } :=
  ⟨hi.count_pos, hi.count_le, hi.line_nonneg, hi.line_lt, hi.terminated, hi.col_nonneg,
    hi.col_le, hi.view_nonneg⟩

theorem Moved.refl (hi : EditorInv ed) : Moved ed ed :=
  .mk hi.line_nonneg hi.line_lt hi.col_nonneg hi.col_le hi.view_nonneg

theorem Moved.clamp {l : Int} (hi : EditorInv ed) (hl : 0 ≤ l) (hl' : l < ed.lineCount) :
    Moved ed (if ed.cursorCol > (ed.text l).length then
        { ed with cursorLine := l, cursorCol := (ed.text l).length }
      else { ed with cursorLine := l }) := by
  split
  · exact .mk hl hl' (Int.natCast_nonneg _) (Int.le_refl _) hi.view_nonneg
  · exact .mk hl hl' hi.col_nonneg (by omega) hi.view_nonneg

theorem Moved.view {v : Int} (hm : Moved ed ed') (hv : 0 ≤ v) :
    Moved ed { ed' with viewStartLine := v } := by
  cases hm with
  | mk hl hl' hc hc' _ => exact .mk hl hl' hc hc' hv

theorem Moved.ite {p : Prop} [Decidable p] {ed₁ ed₂ : EditorState} (h₁ : p → Moved ed ed₁)
    (h₂ : Moved ed ed₂) : Moved ed (if p then ed₁ else ed₂) := by
  split
  · next h => exact h₁ h
  · exact h₂

theorem moveUp_eq (hi : EditorInv ed) : ∃ ed', moveUp ed = .ok ed' ∧ Moved ed ed' := by
  have hhigh := hi.line_lt
  have hmax := hi.line_lt_max
  rw [moveUp]
  split
  · next hup =>
    have habove : HasLine { ed with cursorLine := ed.cursorLine - 1 } (ed.cursorLine - 1)
        (ed.text (ed.cursorLine - 1)) :=
      (hi.hasLine (by omega) (by omega)).of_lines rfl
    have hclamp := Moved.clamp (l := ed.cursorLine - 1) hi (by omega) (by omega)
    simp only [habove.lineLen, ok_bind]
    exact ⟨_, rfl, .ite (fun _ => hclamp.view (hi.moved hclamp).line_nonneg) hclamp⟩
  · exact ⟨ed, rfl, .refl hi⟩

theorem moveDown_eq (hi : EditorInv ed) : ∃ ed', moveDown ed = .ok ed' ∧ Moved ed ed' := by
  have hlow := hi.line_nonneg
  have hcount := hi.count_le
  rw [moveDown]
  split
  · next hdown =>
    have hbelow : HasLine { ed with cursorLine := ed.cursorLine + 1 } (ed.cursorLine + 1)
        (ed.text (ed.cursorLine + 1)) :=
      (hi.hasLine (by omega) (by omega)).of_lines rfl
    have hclamp := Moved.clamp (l := ed.cursorLine + 1) hi (by omega) (by omega)
    have hview := (hi.moved hclamp).view_nonneg
    simp only [hbelow.lineLen, ok_bind]
    exact ⟨_, rfl, .ite (fun hpast => hclamp.view (by omega)) hclamp⟩
  · exact ⟨ed, rfl, .refl hi⟩

theorem moveRight_eq (hi : EditorInv ed) : ∃ ed', moveRight ed = .ok ed' ∧ Moved ed ed' := by
  have hcol := hi.col_nonneg
  rw [moveRight, hi.current.lineLen, ok_bind]
  refine ⟨_, rfl, ?_⟩
  split
  · exact .mk hi.line_nonneg hi.line_lt (by omega) (by omega) hi.view_nonneg
  · exact .refl hi

theorem moveLeft_moved (hi : EditorInv ed) : Moved ed (moveLeft ed) := by
  have hcol := hi.col_le
  rw [moveLeft]
  split
  · exact .mk hi.line_nonneg hi.line_lt (by omega) (by omega) hi.view_nonneg
  · exact .refl hi

theorem moveEnd_eq (hi : EditorInv ed) : ∃ ed', moveEnd ed = .ok ed' ∧ Moved ed ed' := by
  rw [moveEnd, hi.current.lineLen, ok_bind]
  exact ⟨_, rfl, .mk hi.line_nonneg hi.line_lt (by omega) (Int.le_refl _) hi.view_nonneg⟩

theorem EditorInv.setRow {col : Int} (hi : EditorInv ed) (hrow : Holds row 0 s)
    (hs : s.length < maxLineLength) (h₀ : 0 ≤ col) (hc : col ≤ s.length) :
    EditorInv { ed.setRow ed.cursorLine row with cursorCol := col, modified := m } := by
  have hself : (ed.setRow ed.cursorLine row).text ed.cursorLine = s := by
    rw [EditorState.text, setRow_self]
    exact text_eq hrow hs
  refine ⟨hi.count_pos, hi.count_le, hi.line_nonneg, hi.line_lt, fun line hl hl' => ?_, h₀,
    ?_, hi.view_nonneg⟩
  · change ((ed.setRow ed.cursorLine row).text line).length < maxLineLength
    by_cases he : line = ed.cursorLine
    · rw [he, hself]
      exact hs
    · rw [EditorState.text, setRow_of_ne he]
      exact hi.terminated line hl hl'
  · change col ≤ ((ed.setRow ed.cursorLine row).text ed.cursorLine).length
    rw [hself]
    exact hc

theorem insertChar_eq {col : Nat} (hi : EditorInv ed) (hc : c ≠ 0) (hcol : ed.cursorCol = col)
    (hs : ed.text ed.cursorLine = s) (hroom : s.length < maxLineLength - 1) :
    ∃ row, editorInsertChar ed c = .ok { ed.setRow ed.cursorLine row with
        cursorCol := ed.cursorCol + 1, modified := true } ∧
      Holds row 0 (s.take col ++ c :: s.drop col) := by
  have hcur : HasLine ed ed.cursorLine s := hs ▸ hi.current
  have hle : col ≤ s.length := by
    have := hi.col_le
    rw [hs] at this
    omega
  have hsize : maxLineLength = 256 := rfl
  obtain ⟨row, hshift, hrow⟩ := shiftRight_eq (a := ed.lines ed.cursorLine) (k := s.length - col)
    (n := maxLineLength) (Int.natCast_nonneg col) (by omega)
  have hcount : ((s.length : Int) - col).toNat = s.length - col := by omega
  have hsum : (col : Int) + (s.length - col : Nat) = s.length := by omega
  refine ⟨Function.update (Function.update row col c) (s.length + 1) 0, ?_,
    hcur.holds.insert hle hc fun i => ?_⟩
  · rw [editorInsertChar, hcur.lineLen, ok_bind, if_pos (by omega), hcur.row, ok_bind, hcol, hcount,
      hshift]
    simp only [checked, ok_bind]
    rw [set_eq (by omega) (by omega)]
    simp only [ok_bind]
    rw [set_eq (by omega) (by omega)]
    rfl
  · by_cases hend : i = s.length + 1
    · rw [if_pos hend, hend, Function.update_self]
    · rw [if_neg hend, Function.update_of_ne hend]
      by_cases hat : i = col
      · rw [if_pos hat, hat, Function.update_self]
      · rw [if_neg hat, Function.update_of_ne hat, hrow i]
        simp only [hsum]

theorem insertChar_full (hi : EditorInv ed)
    (hfull : ¬(ed.text ed.cursorLine).length < maxLineLength - 1) :
    editorInsertChar ed c = .ok ed := by
  have hsize : maxLineLength = 256 := rfl
  rw [editorInsertChar, hi.current.lineLen, ok_bind, if_neg (by omega)]
  rfl

theorem eraseChar_eq {low : Nat} (hi : EditorInv ed) (hs : ed.text ed.cursorLine = s)
    (hlow : low < s.length) :
    ∃ row, ed.eraseChar low = .ok (ed.setRow ed.cursorLine row) ∧ Holds row 0 (s.eraseIdx low) := by
  have hcur : HasLine ed ed.cursorLine s := hs ▸ hi.current
  have hshort := hcur.short
  obtain ⟨row, hshift, hrow⟩ := shiftLeft_eq (a := ed.lines ed.cursorLine) (k := s.length - low)
    (n := maxLineLength) (Int.natCast_nonneg low) (by omega)
  have hcount : ((s.length : Int) - low).toNat = s.length - low := by omega
  have hsum : (low : Int) + (s.length - low : Nat) = s.length := by omega
  refine ⟨row, ?_, hcur.holds.erase hlow fun i => ?_⟩
  · rw [EditorState.eraseChar, hcur.lineLen, ok_bind, hcur.row, ok_bind, hcount, hshift]
    rfl
  · rw [hrow i]
    simp only [hsum]

theorem deleteChar_eq {col : Nat} (hi : EditorInv ed) (hcol : ed.cursorCol = col + 1)
    (hs : ed.text ed.cursorLine = s) :
    ∃ row, editorDeleteChar ed = .ok { ed.setRow ed.cursorLine row with
        cursorCol := ed.cursorCol - 1, modified := true } ∧ Holds row 0 (s.eraseIdx col) := by
  have hle := hi.col_le
  rw [hs] at hle
  have hlt : col < s.length := by omega
  obtain ⟨row, he, hrow⟩ := eraseChar_eq hi hs hlt
  refine ⟨row, ?_, hrow⟩
  have hpos : ed.cursorCol > 0 := by omega
  have hpred : ed.cursorCol - 1 = col := by omega
  rw [← hpred] at he
  rw [editorDeleteChar, if_pos hpos, he]
  rfl

theorem deleteChar_start (hcol : ¬ed.cursorCol > 0) : editorDeleteChar ed = .ok ed := by
  simp only [editorDeleteChar, hcol, ↓reduceIte]
  rfl

theorem deleteUnderCursor_eq {col : Nat} (hi : EditorInv ed) (hcol : ed.cursorCol = col)
    (hs : ed.text ed.cursorLine = s) (hlt : col < s.length) :
    ∃ row, deleteUnderCursor ed = .ok { ed.setRow ed.cursorLine row with
        cursorCol := col, modified := true } ∧ Holds row 0 (s.eraseIdx col) := by
  have hcur : HasLine ed ed.cursorLine s := hs ▸ hi.current
  obtain ⟨row, he, hrow⟩ := eraseChar_eq hi hs hlt
  refine ⟨row, ?_, hrow⟩
  rw [deleteUnderCursor, hcur.lineLen, ok_bind, hcol, if_pos (by omega), he, ← hcol]
  rfl

theorem deleteUnderCursor_end (hi : EditorInv ed)
    (hend : ¬ed.cursorCol < (ed.text ed.cursorLine).length) : deleteUnderCursor ed = .ok ed := by
  rw [deleteUnderCursor, hi.current.lineLen, ok_bind, if_neg hend]
  rfl

/-- The texts of the rows after the cursor's line is split. -/
def splitText (ed : EditorState) (col : Nat) (i : Int) : List UInt8 :=
  if i = ed.cursorLine then (ed.text ed.cursorLine).take col
  else if i = ed.cursorLine + 1 then (ed.text ed.cursorLine).drop col
  else if ed.cursorLine + 1 < i ∧ i ≤ ed.lineCount then ed.text (i - 1)
  else ed.text i

theorem newLine_eq {col : Nat} (hi : EditorInv ed) (hcol : ed.cursorCol = col)
    (hroom : ed.lineCount < maxLines - 1) :
    ∃ lines, editorNewLine ed = .ok { ed with
        lines, lineCount := ed.lineCount + 1, cursorLine := ed.cursorLine + 1, cursorCol := 0,
        modified := true } ∧
      ∀ i : Int, 0 ≤ i → i < maxLines → Holds (lines i) 0 (splitText ed col i) := by
  have hlow := hi.line_nonneg
  have hhigh := hi.line_lt
  have hle : col ≤ (ed.text ed.cursorLine).length := by
    have hcol_le := hi.col_le
    omega
  obtain ⟨n, hn⟩ : ∃ n : Nat, ed.lineCount - (ed.cursorLine + 1) = n :=
    Int.eq_ofNat_of_zero_le (by omega)
  have hrows : ∀ i, ed.cursorLine + 1 ≤ i → i < ed.cursorLine + 1 + n →
      HasLine ed i (ed.text i) :=
    fun i hi' hi'' => hi.hasLine (by omega) (by omega)
  obtain ⟨lines, hshift, hmoved, hsame⟩ := shiftLines_eq (by omega) (by omega) hrows
  obtain ⟨ed₁, hed₁⟩ : ∃ ed₁, ed₁ = { ed with lines, lineCount := ed.lineCount + 1 } := ⟨_, rfl⟩
  have hlines : ed₁.lines = lines := congrArg EditorState.lines hed₁
  have hcur : HasLine ed₁ ed.cursorLine (ed.text ed.cursorLine) := by
    refine ⟨hlow, hi.line_lt_max, ?_, hi.current.short⟩
    rw [hlines, hsame _ (by omega)]
    exact hi.current.holds
  have hbelow : 0 ≤ ed.cursorLine + 1 := by omega
  obtain ⟨row, hcopy, hrow⟩ := copyLine_eq hcur hbelow (by omega) hle
  have hput : (ed₁.setRow (ed.cursorLine + 1) row).putChar ed.cursorLine col 0 =
      .ok ((ed₁.setRow (ed.cursorLine + 1) row).setRow ed.cursorLine
        (Function.update ((ed₁.setRow (ed.cursorLine + 1) row).lines ed.cursorLine) col 0)) :=
    putChar_eq hlow hi.line_lt_max (by omega) (by have := hi.current.short; omega)
  have hkept : (ed₁.setRow (ed.cursorLine + 1) row).lines ed.cursorLine = ed.lines ed.cursorLine := by
    rw [setRow_of_ne (by omega), hlines, hsame _ (by omega)]
  rw [hkept] at hput
  have hline : (ed₁.setRow (ed.cursorLine + 1) row).cursorLine = ed.cursorLine := by
    rw [hed₁]
    rfl
  have hcol₁ : (ed₁.setRow (ed.cursorLine + 1) row).cursorCol = col := by
    rw [hed₁]
    exact hcol
  refine ⟨((ed₁.setRow (ed.cursorLine + 1) row).setRow ed.cursorLine
    (Function.update (ed.lines ed.cursorLine) col 0)).lines, ?_, fun i hi₀ hi₁ => ?_⟩
  · rw [editorNewLine, if_pos hroom, hn, Int.toNat_natCast, hshift]
    simp only [ok_bind, hcol]
    rw [← hcol, ← hed₁, hcol, hcopy]
    simp only [ok_bind]
    rw [hline, hcol₁, hput, hed₁]
    rfl
  · rw [splitText]
    split
    · next he =>
      rw [he, setRow_self]
      exact hi.current.holds.truncate hle
    next hne =>
    rw [setRow_of_ne hne]
    split
    · next he =>
      rw [he, setRow_self]
      exact hrow
    next hne' =>
    rw [setRow_of_ne hne', hlines]
    split
    · exact hmoved i (by omega) (by omega)
    · rw [hsame i (by omega)]
      exact (hi.hasLine hi₀ hi₁).holds

theorem newLine_full (hfull : ¬ed.lineCount < maxLines - 1) : editorNewLine ed = .ok ed := by
  rw [editorNewLine, if_neg hfull]
  rfl

theorem EditorInv.splitText_short (hi : EditorInv ed) {i : Int} (h₀ : 0 ≤ i) (h₁ : i < maxLines) :
    (splitText ed col i).length < maxLineLength := by
  have hshort := hi.current.short
  have hlow := hi.line_nonneg
  have htake := List.length_take_le' col (ed.text ed.cursorLine)
  have hdrop : ((ed.text ed.cursorLine).drop col).length = _ := List.length_drop
  rw [splitText]
  split
  · omega
  split
  · omega
  split
  · exact hi.terminated _ (by omega) (by omega)
  · exact hi.terminated i h₀ h₁

theorem EditorInv.newLine (hi : EditorInv ed) (hroom : ed.lineCount < maxLines - 1)
    (hl : ∀ i : Int, 0 ≤ i → i < maxLines → Holds (lines i) 0 (splitText ed col i)) :
    EditorInv { ed with
      lines, lineCount := ed.lineCount + 1, cursorLine := ed.cursorLine + 1, cursorCol := 0,
      modified := true } := by
  have hcount := hi.count_pos
  have hlow := hi.line_nonneg
  have hhigh := hi.line_lt
  refine ⟨by simp only; omega, by simp only; omega, by simp only; omega, by simp only; omega,
    fun i h₀ h₁ => ?_, Int.le_refl _, Int.natCast_nonneg _, hi.view_nonneg⟩
  have htext : text maxLineLength (lines i) = splitText ed col i :=
    text_eq (hl i h₀ h₁) (hi.splitText_short h₀ h₁)
  change (text maxLineLength (lines i)).length < maxLineLength
  rw [htext]
  exact hi.splitText_short h₀ h₁

end

end ChipOS
