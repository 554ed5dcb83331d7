import ChipOS.Editor.Editor

namespace ChipOS
open CharArray Run
set_option autoImplicit true

def EditorState.text (ed : EditorState) (line : Int) : List UInt8 :=
  CharArray.text maxLineLength (ed.lines line)

structure HasLine (ed : EditorState) (line : Int) (s : List UInt8) : Prop where
  low : 0 ≤ line
  high : line < maxLines
  holds : Holds (ed.lines line) 0 s
  short : s.length < maxLineLength

section
variable {ed : EditorState} {line : Int}

theorem HasLine.of_lines (h : HasLine ed line s) {ed' : EditorState} (hl : ed'.lines = ed.lines) :
    HasLine ed' line s :=
  ⟨h.low, h.high, hl ▸ h.holds, h.short⟩

theorem HasLine.row (h : HasLine ed line s) : ed.row line = .ok (ed.lines line) :=
  if_pos ⟨h.low, h.high⟩

theorem HasLine.lineLen (h : HasLine ed line s) : ed.lineLen line = .ok (s.length : Int) := by
  rw [EditorState.lineLen, h.row, ok_bind, strlen_eq h.holds h.short]
  rfl

theorem setRow_self : (ed.setRow line row).lines line = row := Function.update_self _ _ _

theorem setRow_of_ne {i : Int} (hi : i ≠ line) : (ed.setRow line row).lines i = ed.lines i :=
  Function.update_of_ne hi _ _

theorem putChar_eq {col : Int} (hl : 0 ≤ line) (hl' : line < maxLines) (hc : 0 ≤ col)
    (hc' : col < maxLineLength) :
    ed.putChar line col c = .ok (ed.setRow line (Function.update (ed.lines line) col c)) := by
  rw [EditorState.putChar, EditorState.row, if_pos ⟨hl, hl'⟩, ok_bind, set_eq hc hc']
  rfl

theorem copyLine_eq {src dst : Int} {col : Nat} (h : HasLine ed src s) (hd : 0 ≤ dst)
    (hd' : dst < maxLines) (hc : col ≤ s.length) :
    ∃ row, ed.copyLine dst src col = .ok (ed.setRow dst row) ∧ Holds row 0 (s.drop col) := by
  have hshort := h.short
  have hsrc : Holds (ed.lines src) col (s.drop col) := by
    have hdrop := h.holds.drop hc
    rwa [Int.zero_add] at hdrop
  have hlen : (s.drop col).length = s.length - col := List.length_drop
  have hcopy : ∃ row, CharArray.strcpy maxLineLength (ed.lines dst) 0 maxLineLength (ed.lines src) col =
      some row ∧ Holds row 0 (s.drop col) ∧
      ∀ x, x < 0 ∨ 0 + ((s.drop col).length : Int) < x → row x = ed.lines dst x :=
    strcpy_eq hsrc (by omega) (by omega) (by omega) (by omega)
  obtain ⟨row, hr, hrow, _⟩ := hcopy
  refine ⟨row, ?_, hrow⟩
  rw [EditorState.copyLine, EditorState.row, if_pos ⟨hd, hd'⟩, ok_bind, h.row, ok_bind, hr]
  rfl

theorem shiftLines_eq {low : Int} {n : Nat} {t : Int → List UInt8} (h₀ : 0 ≤ low) (hn : low + n < maxLines)
    (ht : ∀ i, low ≤ i → i < low + n → HasLine ed i (t i)) :
    ∃ lines, shiftLines low n ed = .ok { ed with lines } ∧
      (∀ i, low < i → i ≤ low + n → Holds (lines i) 0 (t (i - 1))) ∧
      ∀ i, i ≤ low ∨ low + n < i → lines i = ed.lines i := by
  induction n generalizing ed with
  | zero =>
    refine ⟨ed.lines, rfl, fun i hi hi' => ?_, fun i _ => rfl⟩
    omega
  | succ n ih =>
    have hlast : HasLine ed (low + n) (t (low + n)) := ht _ (by omega) (by omega)
    have hcopy : ∃ row, ed.copyLine (low + n + 1) (low + n) 0 =
        .ok (ed.setRow (low + n + 1) row) ∧ Holds row 0 (t (low + n)) :=
      copyLine_eq hlast (by omega) (by omega) (Nat.zero_le _)
    obtain ⟨row, hr, hrow⟩ := hcopy
    have hkeep : ∀ i, low ≤ i → i < low + n → HasLine (ed.setRow (low + n + 1) row) i (t i) := by
      intro i hi hi'
      have hold := ht i hi (by omega)
      refine ⟨hold.low, hold.high, ?_, hold.short⟩
      rw [setRow_of_ne (by omega)]
      exact hold.holds
    obtain ⟨lines, hl, hmoved, hsame⟩ := ih (by omega) hkeep
    refine ⟨lines, ?_, fun i hi hi' => ?_, fun i hi => ?_⟩
    · rw [shiftLines, hr, ok_bind, hl]
      rfl
    · by_cases htop : i = low + n + 1
      · subst htop
        have hpred : low + (n : Int) + 1 - 1 = low + n := by omega
        rw [hsame _ (by omega), setRow_self, hpred]
        exact hrow
      · exact hmoved i hi (by omega)
    · rw [hsame i (by omega), setRow_of_ne (by omega)]

end

end ChipOS
