import ChipOS.Editor.LoadSave
import ChipOS.Lib.TextBuffer

namespace ChipOS
open CharArray Run
set_option autoImplicit true

/-- The lines and the cursor of the editor are those of the buffer. -/
structure Shows (ed : EditorState) (b : TextBuffer UInt8) : Prop where
  lines : b.lines = ed.buffer
  line : ed.cursorLine = b.line
  col : ed.cursorCol = b.col

/-- Where `can` holds the call makes of the editor what shows `b`, and elsewhere it changes
nothing. -/
def Refines (ed : EditorState) (call : Except Fault EditorState) (can : Prop)
    (b : TextBuffer UInt8) : Prop :=
  (can → ∃ ed', call = .ok ed' ∧ EditorInv ed' ∧ Shows ed' b) ∧ (¬can → call = .ok ed)

section
variable {ed ed' : EditorState} {b : TextBuffer UInt8}

theorem EditorInv.shows (hi : EditorInv ed) : ∃ b, Shows ed b := by
  obtain ⟨col, hcol, hle⟩ := hi.col_index
  have hlow := hi.line_nonneg
  have hhigh := hi.line_lt
  obtain ⟨line, hline⟩ := Int.eq_ofNat_of_zero_le hlow
  have hlt : line < ed.buffer.length := by
    rw [buffer_toNat]
    omega
  have hcurrent : ed.buffer.get ⟨line, hlt⟩ = ed.text ed.cursorLine := by
    rw [List.get_eq_getElem, buffer_getElem, hline]
  exact ⟨⟨ed.buffer, line, col, hlt, hcurrent ▸ hle⟩, rfl, hline, hcol⟩

theorem Shows.current (hs : Shows ed b) : b.current = ed.text ed.cursorLine := by
  have hlt : b.line < ed.buffer.length := hs.lines ▸ b.line_lt
  have hcurrent : b.current = ed.buffer[b.line] := by
    simp only [TextBuffer.current, List.get_eq_getElem, hs.lines]
  rw [hcurrent, buffer_getElem, hs.line]

theorem Shows.count (hi : EditorInv ed) (hs : Shows ed b) : ed.lineCount = b.lines.length := by
  have hpos := hi.count_pos
  rw [hs.lines, buffer_toNat]
  omega

theorem Shows.replace {k : Nat} (hs : Shows ed b) (hrow : Holds row 0 s) (hlen : s.length < maxLineLength)
    (hk : k ≤ s.length) (hcol : c = (k : Int)) :
    Shows { ed.setRow ed.cursorLine row with cursorCol := c, modified := m } (b.replace s k hk) := by
  refine ⟨?_, hs.line, hcol⟩
  apply List.ext_getElem
  · simp only [TextBuffer.replace, List.length_set, hs.lines, buffer_toNat]
    rfl
  · intro i hi hi'
    rw [buffer_getElem]
    simp only [TextBuffer.replace, List.getElem_set, hs.lines, buffer_getElem]
    by_cases he : b.line = i
    · rw [if_pos he, ← he, ← hs.line]
      exact (text_eq ((setRow_self).symm ▸ hrow) hlen).symm
    · rw [if_neg he]
      have hne : (i : Int) ≠ ed.cursorLine := by
        rw [hs.line]
        omega
      exact (text_setRow_of_ne hne).symm

theorem Shows.setRow {call : Except Fault EditorState} {k : Nat} (hi : EditorInv ed) (hs : Shows ed b)
    (hrow : Holds row 0 s) (hlen : s.length < maxLineLength) (hk : k ≤ s.length) (hcol : c = (k : Int))
    (he : call = .ok { ed.setRow ed.cursorLine row with cursorCol := c, modified := true }) :
    ∃ ed' : EditorState, call = .ok ed' ∧ EditorInv ed' ∧ Shows ed' (b.replace s k hk) :=
  ⟨_, he, hi.setRow hrow hlen (by omega) (by omega), hs.replace hrow hlen hk hcol⟩

theorem Shows.insert (hi : EditorInv ed) (hs : Shows ed b) (hc : c ≠ 0) :
    Refines ed (editorInsertChar ed c) (b.current.length < maxLineLength - 1) (b.insert c) := by
  have hcurrent := hs.current
  refine ⟨fun hroom => ?_, fun hfull => insertChar_full hi (hcurrent ▸ hfull)⟩
  obtain ⟨row, he, hrow⟩ := insertChar_eq hi hc hs.col hcurrent.symm hroom
  have hle : b.col ≤ b.current.length := b.col_le
  have hlen : (b.current.take b.col ++ c :: b.current.drop b.col).length = b.current.length + 1 := by
    rw [List.length_append, List.length_take_of_le hle, List.length_cons, List.length_drop]
    omega
  exact hs.setRow hi hrow (by omega) (by omega) (congrArg (· + 1) hs.col) he

theorem Shows.delete (hi : EditorInv ed) (hs : Shows ed b) :
    Refines ed (editorDeleteChar ed) (0 < b.col) b.delete := by
  have hcol := hs.col
  have hle : b.col ≤ b.current.length := b.col_le
  refine ⟨fun hpos => ?_, fun hstart => deleteChar_start (by omega)⟩
  obtain ⟨k, hk⟩ : ∃ k, b.col = k + 1 := Nat.exists_eq_succ_of_ne_zero (Nat.ne_of_gt hpos)
  have hcol' : ed.cursorCol = k + 1 := by omega
  obtain ⟨row, he, hrow⟩ := deleteChar_eq hi hcol' hs.current.symm
  have hshort := hs.current ▸ hi.current.short
  have hlen : (b.current.eraseIdx k).length = b.current.length - 1 :=
    List.length_eraseIdx_of_lt (by omega)
  have hdelete : b.delete = b.replace (b.current.eraseIdx k) k (by omega) := by
    rw [TextBuffer.delete, dif_pos hpos]
    simp only [hk, Nat.add_sub_cancel]
  rw [hdelete]
  exact hs.setRow hi hrow (by omega) (by omega) (by omega) he

theorem Shows.deleteUnder (hi : EditorInv ed) (hs : Shows ed b) :
    Refines ed (deleteUnderCursor ed) (b.col < b.current.length) b.deleteUnder := by
  have hcol := hs.col
  have hcurrent := hs.current
  refine ⟨fun hlt => ?_, fun hend => deleteUnderCursor_end hi ?_⟩
  · obtain ⟨row, he, hrow⟩ := deleteUnderCursor_eq hi hcol hcurrent.symm hlt
    have hshort := hcurrent ▸ hi.current.short
    have hlen : (b.current.eraseIdx b.col).length = b.current.length - 1 :=
      List.length_eraseIdx_of_lt hlt
    rw [TextBuffer.deleteUnder, dif_pos hlt]
    exact hs.setRow hi hrow (by omega) (by omega) rfl he
  · rw [← hcurrent]
    omega

theorem Shows.getElem? {k : Nat} (hs : Shows ed b) (hk : k < b.lines.length) :
    b.lines[k]? = some (ed.text k) := by
  simp only [hs.lines] at hk ⊢
  rw [List.getElem?_eq_getElem hk, buffer_getElem]

theorem Shows.newLine_lines {i : Nat} (hs : Shows ed b) (hcount : ed.lineCount = b.lines.length)
    (hi : i < b.lines.length + 1) : b.newLine.lines[i]? = some (splitText ed b.col i) := by
  have hlt := b.line_lt
  have hline := hs.line
  have htake : (b.lines.take b.line).length = b.line := List.length_take_of_le (Nat.le_of_lt hlt)
  rw [TextBuffer.newLine, splitText, ← hs.current, hline]
  rcases Nat.lt_or_ge i b.line with hbefore | hfrom
  · rw [List.getElem?_append_left (by omega), List.getElem?_take_of_lt hbefore,
      hs.getElem? (by omega), if_neg (by omega), if_neg (by omega), if_neg (by omega)]
  obtain ⟨k, rfl⟩ := Nat.exists_eq_add_of_le hfrom
  rw [List.getElem?_append_right (by omega), htake, Nat.add_sub_cancel_left]
  rcases k with _ | _ | k
  · rw [if_pos (by omega)]
    rfl
  · rw [if_neg (by omega), if_pos (by omega)]
    rfl
  · rw [if_neg (by omega), if_neg (by omega), if_pos (by omega), List.getElem?_cons_succ,
      List.getElem?_cons_succ, List.getElem?_drop, hs.getElem? (by omega)]
    congr 2
    omega

theorem Shows.newLine (hi : EditorInv ed) (hs : Shows ed b) :
    Refines ed (editorNewLine ed) (b.lines.length < maxLines - 1) b.newLine := by
  have hcount := hs.count hi
  have hmax : maxLines = 1000 := rfl
  refine ⟨fun hroom => ?_, fun hfull => newLine_full (by omega)⟩
  obtain ⟨lines, he, hl⟩ := newLine_eq hi hs.col (by omega)
  have hi' := hi.newLine (by omega) hl
  refine ⟨_, he, hi', ?_, congrArg (· + 1) hs.line, rfl⟩
  have hlen : b.newLine.lines.length = b.lines.length + 1 := by
    have hlt := b.line_lt
    rw [TextBuffer.newLine, List.length_append, List.length_take_of_le (Nat.le_of_lt hlt),
      List.length_cons, List.length_cons, List.length_drop]
    omega
  apply List.ext_getElem
  · rw [hlen, buffer_toNat]
    simp only
    omega
  · intro i hi₁ hi₂
    rw [buffer_getElem]
    have htext : CharArray.text maxLineLength (lines i) = splitText ed b.col i :=
      text_eq (hl i (by omega) (by omega)) (hi.splitText_short (by omega) (by omega))
    have hsplit := hs.newLine_lines hcount (hlen ▸ hi₁)
    rw [List.getElem?_eq_getElem hi₁] at hsplit
    exact (Option.some.inj hsplit).trans htext.symm

end

/-- In every state that satisfies the invariant the editing primitives do what their names say to
the lines on the screen, up to the capacity of the arrays, and nothing beyond it. A character
inserted and deleted again leaves the buffer as it was. -/
theorem edits_refine (hi : EditorInv ed) : ∃ b, Shows ed b ∧
    (∀ c, c ≠ 0 →
      Refines ed (editorInsertChar ed c) (b.current.length < maxLineLength - 1) (b.insert c)) ∧
    Refines ed (editorDeleteChar ed) (0 < b.col) b.delete ∧
    Refines ed (editorNewLine ed) (b.lines.length < maxLines - 1) b.newLine ∧
    Refines ed (deleteUnderCursor ed) (b.col < b.current.length) b.deleteUnder ∧
    ∀ c, c ≠ 0 → b.current.length < maxLineLength - 1 → ∃ ed₁ ed₂,
      editorInsertChar ed c = .ok ed₁ ∧ editorDeleteChar ed₁ = .ok ed₂ ∧ Shows ed₂ b := by
  obtain ⟨b, hs⟩ := hi.shows
  refine ⟨b, hs, fun c hc => hs.insert hi hc, hs.delete hi, hs.newLine hi, hs.deleteUnder hi,
    fun c hc hroom => ?_⟩
  obtain ⟨ed₁, hinsert, hi₁, hs₁⟩ := (hs.insert hi hc).1 hroom
  obtain ⟨ed₂, hdelete, _, hs₂⟩ := (hs₁.delete hi₁).1 (Nat.succ_pos _)
  rw [TextBuffer.delete_insert] at hs₂
  exact ⟨ed₁, ed₂, hinsert, hdelete, hs₂⟩

def insideSecond : EditorState := { blockBuffer 2 3 with cursorLine := 1, cursorCol := 2 }

theorem editorInv_inside : EditorInv insideSecond := by
  have hchars : 3 < maxLineLength := by decide
  have hi : EditorInv (blockBuffer 2 3) := blockBuffer_inv (by decide) (by decide) hchars
  have htext : (blockBuffer 2 3).text 1 = [97, 97, 97] := blockBuffer_text hchars 1
  refine hi.moved (.mk (v := 0) (by decide) (by decide) (by decide) ?_ (by decide))
  rw [htext]
  decide

/-- `b` typed, and `Enter`, in the second line of `aaa` and `aaa`. -/
theorem edits_refine_inside : ∃ ed₁ ed₂,
    editorInsertChar insideSecond 98 = .ok ed₁ ∧ ed₁.buffer = [[97, 97, 97], [97, 97, 98, 97]] ∧
    editorNewLine insideSecond = .ok ed₂ ∧ ed₂.buffer = [[97, 97, 97], [97, 97], [97]] := by
  obtain ⟨b, hs, hinsert, _, hnew, _⟩ := edits_refine editorInv_inside
  have hbuffer : insideSecond.buffer = [[97, 97, 97], [97, 97, 97]] := by
    have hblock : (blockBuffer 2 3).buffer = [[97, 97, 97], [97, 97, 97]] :=
      blockBuffer_buffer (by decide)
    exact hblock
  obtain ⟨lines, line, col, hlt, hle⟩ := b
  cases hs.lines.trans hbuffer
  cases Int.ofNat.inj hs.line
  cases Int.ofNat.inj hs.col
  obtain ⟨ed₁, he₁, _, hs₁⟩ := (hinsert 98 (by decide)).1 (show 3 < maxLineLength - 1 by decide)
  obtain ⟨ed₂, he₂, _, hs₂⟩ := hnew.1 (show 2 < maxLines - 1 by decide)
  exact ⟨ed₁, ed₂, he₁, hs₁.lines.symm, he₂, hs₂.lines.symm⟩

end ChipOS
