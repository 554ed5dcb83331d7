import Mathlib.Tactic.Common

set_option autoImplicit true

/-- Lines of text with a cursor in one of them, before a character or at the end. -/
@[ext]
structure TextBuffer (α : Type*) where
  lines : List (List α)
  line : Nat
  col : Nat
  line_lt : line < lines.length
  col_le : col ≤ (lines.get ⟨line, line_lt⟩).length

namespace TextBuffer

def current (b : TextBuffer α) : List α := b.lines.get ⟨b.line, b.line_lt⟩

/-- Another text in the cursor's line, and the cursor somewhere in it. -/
def replace (b : TextBuffer α) (s : List α) (col : Nat) (h : col ≤ s.length) : TextBuffer α where
  lines := b.lines.set b.line s
  line := b.line
  col := col
  line_lt := by
    rw [List.length_set]
    exact b.line_lt
  col_le := by
    rw [List.get_eq_getElem, List.getElem_set_self]
    exact h

/-- A character put in before the cursor, which moves behind it. -/
def insert (b : TextBuffer α) (c : α) : TextBuffer α :=
  b.replace (b.current.take b.col ++ c :: b.current.drop b.col) (b.col + 1) (by
    have hle : b.col ≤ b.current.length := b.col_le
    rw [List.length_append, List.length_take_of_le hle, List.length_cons]
    omega)

/-- The character before the cursor taken out, if there is one. -/
def delete (b : TextBuffer α) : TextBuffer α :=
  if h : 0 < b.col then
    b.replace (b.current.eraseIdx (b.col - 1)) (b.col - 1) (by
      have hle : b.col ≤ b.current.length := b.col_le
      rw [List.length_eraseIdx_of_lt (by omega)]
      omega)
  else b

/-- The character at the cursor taken out, if there is one. -/
def deleteUnder (b : TextBuffer α) : TextBuffer α :=
  if h : b.col < b.current.length then
    b.replace (b.current.eraseIdx b.col) b.col (by
      rw [List.length_eraseIdx_of_lt h]
      omega)
  else b

/-- The line split at the cursor, which goes to the start of the second part. -/
def newLine (b : TextBuffer α) : TextBuffer α where
  lines := b.lines.take b.line ++ b.current.take b.col :: b.current.drop b.col ::
    b.lines.drop (b.line + 1)
  line := b.line + 1
  col := 0
  line_lt := by
    rw [List.length_append, List.length_take_of_le (Nat.le_of_lt b.line_lt), List.length_cons,
      List.length_cons]
    omega
  col_le := Nat.zero_le _

/-- The cursor in another line, at its column or at the end of the line if that is shorter. -/
def goto (b : TextBuffer α) (i : Nat) : TextBuffer α :=
  if h : i < b.lines.length then
    { b with
      line := i
      col := min b.col (b.lines.get ⟨i, h⟩).length
      line_lt := h
      col_le := Nat.min_le_right _ _ }
  else b

def up (b : TextBuffer α) : TextBuffer α := if 0 < b.line then b.goto (b.line - 1) else b

def down (b : TextBuffer α) : TextBuffer α := b.goto (b.line + 1)

def bottom (b : TextBuffer α) : TextBuffer α := b.goto (b.lines.length - 1)

def left (b : TextBuffer α) : TextBuffer α where
  __ := b
  col := b.col - 1
  col_le := Nat.le_trans (Nat.sub_le _ _) b.col_le

def right (b : TextBuffer α) : TextBuffer α where
  __ := b
  col := min (b.col + 1) b.current.length
  col_le := Nat.min_le_right _ _

def toEnd (b : TextBuffer α) : TextBuffer α where
  __ := b
  col := b.current.length
  col_le := Nat.le_refl _

/-- The cursor in front of the lines. A buffer has at least one. -/
def start : List (List α) → TextBuffer α
  | [] => ⟨[[]], 0, 0, Nat.zero_lt_one, Nat.le_refl _⟩
  | l :: ls => ⟨l :: ls, 0, 0, Nat.succ_pos _, Nat.zero_le _⟩

/-- The cursor behind the lines, the last of which is `cur`. -/
def atEnd (done : List (List α)) (cur : List α) : TextBuffer α where
  lines := done ++ [cur]
  line := done.length
  col := cur.length
  line_lt := by
    rw [List.length_append, List.length_singleton]
    exact Nat.lt_succ_self _
  col_le := Nat.le_of_eq (congrArg List.length (List.getElem_concat_length rfl _).symm)

section
variable {b : TextBuffer α}

theorem current_replace {k : Nat} {h : k ≤ s.length} : (b.replace s k h).current = s :=
  List.getElem_set_self _

theorem replace_eq {t : List α} {k m : Nat} {h : k ≤ s.length} {h' : m ≤ t.length}
    (ht : t = b.current) (hm : m = b.col) : (b.replace s k h).replace t m h' = b := by
  subst ht hm
  apply TextBuffer.ext
  · exact (List.set_set _).trans (List.set_getElem_self b.line_lt)
  · rfl
  · rfl

theorem delete_insert (c : α) : (b.insert c).delete = b := by
  have hle : b.col ≤ b.current.length := b.col_le
  have hpos : 0 < (b.insert c).col := Nat.succ_pos _
  have hcol : (b.insert c).col - 1 = b.col := Nat.add_sub_cancel b.col 1
  have hcurrent : (b.insert c).current = b.current.take b.col ++ c :: b.current.drop b.col :=
    current_replace
  rw [delete, dif_pos hpos]
  apply replace_eq _ hcol
  rw [hcol, hcurrent, List.eraseIdx_append_of_length_le (List.length_take_le _ _),
    List.length_take_of_le hle, Nat.sub_self, List.eraseIdx_cons_zero, List.take_append_drop]

theorem goto_eq (hi : i < b.lines.length) : (b.goto i).lines = b.lines ∧ (b.goto i).line = i ∧
    (b.goto i).col = min b.col (b.lines.get ⟨i, hi⟩).length := by
  rw [goto, dif_pos hi]
  exact ⟨rfl, rfl, rfl⟩

theorem goto_of_le (hi : b.lines.length ≤ i) : b.goto i = b := dif_neg (Nat.not_lt.2 hi)

end

section
variable {done : List (List α)} {cur : List α}

theorem current_atEnd : (atEnd done cur).current = cur := List.getElem_concat_length rfl _

theorem atEnd_of_eq {b : TextBuffer α} (hl : b.lines = done ++ [cur]) (hn : b.line = done.length)
    (hc : b.col = cur.length) : b = atEnd done cur := TextBuffer.ext hl hn hc

theorem replace_atEnd {h : k ≤ s.length} (hk : k = s.length) :
    (atEnd done cur).replace s k h = atEnd done s := by
  apply atEnd_of_eq _ rfl hk
  have hset : (done ++ [cur]).set done.length s = done ++ [s] := by
    rw [List.set_append_right _ _ (Nat.le_refl _), Nat.sub_self, List.set_cons_zero]
  exact hset

theorem insert_atEnd : (atEnd done cur).insert c = atEnd done (cur ++ [c]) := by
  have htext : (atEnd done cur).current.take cur.length ++
      c :: (atEnd done cur).current.drop cur.length = cur ++ [c] := by
    rw [current_atEnd, List.take_length, List.drop_length]
  have hlen : cur.length + 1 = (cur ++ [c]).length := by
    rw [List.length_append]
    rfl
  rw [← htext]
  exact replace_atEnd (hlen.trans (congrArg List.length htext.symm))

theorem delete_atEnd : (atEnd done cur).delete = atEnd done cur.dropLast := by
  rw [delete]
  split
  · have htext : (atEnd done cur).current.eraseIdx (cur.length - 1) = cur.dropLast := by
      rw [current_atEnd, List.eraseIdx_length_sub_one]
    have hlen : cur.length - 1 = cur.dropLast.length := List.length_dropLast.symm
    rw [← htext]
    exact replace_atEnd (hlen.trans (congrArg List.length htext.symm))
  · next hempty =>
    have hnil : cur = [] := List.eq_nil_of_length_eq_zero (Nat.eq_zero_of_not_pos hempty)
    rw [hnil]
    rfl

theorem newLine_atEnd : (atEnd done cur).newLine = atEnd (done ++ [cur]) [] := by
  apply atEnd_of_eq
  · have htake : (done ++ [cur]).take done.length = done := List.take_left
    have hdrop : (done ++ [cur]).drop (done.length + 1) = [] :=
      List.drop_eq_nil_of_le (by rw [List.length_append]; exact Nat.le_refl _)
    have hlines : (done ++ [cur]).take done.length ++
        (atEnd done cur).current.take cur.length :: (atEnd done cur).current.drop cur.length ::
          (done ++ [cur]).drop (done.length + 1) = done ++ [cur] ++ [[]] := by
      rw [htake, hdrop, current_atEnd, List.take_length, List.drop_length, List.append_assoc]
      rfl
    exact hlines
  · have hlen : (done ++ [cur]).length = done.length + 1 := List.length_append
    exact hlen.symm
  · rfl

theorem toEnd_bottom {ls : List (List α)} (hne : ls ≠ []) :
    (start ls).bottom.toEnd = atEnd ls.dropLast (ls.getLast hne) := by
  have hpos := List.length_pos_iff.2 hne
  have hstart : (start ls).lines = ls := by
    cases ls with
    | nil => exact absurd rfl hne
    | cons l ls => rfl
  have hbottom : (start ls).bottom = (start ls).goto (ls.length - 1) := by rw [bottom, hstart]
  have hlt : ls.length - 1 < (start ls).lines.length := by
    rw [hstart]
    omega
  obtain ⟨hlines, hline, _⟩ := goto_eq hlt
  have hcurrent : ((start ls).goto (ls.length - 1)).current = ls.getLast hne := by
    have hget : ((start ls).goto (ls.length - 1)).lines[((start ls).goto (ls.length - 1)).line]? =
        some ((start ls).goto (ls.length - 1)).current := List.getElem?_eq_getElem _
    rw [hlines, hline, hstart, ← List.getLast?_eq_getElem?, List.getLast?_eq_some_getLast hne] at hget
    exact (Option.some.inj hget).symm
  rw [hbottom]
  apply atEnd_of_eq
  · rw [List.dropLast_concat_getLast]
    exact hlines.trans hstart
  · rw [List.length_dropLast]
    exact hline
  · exact congrArg List.length hcurrent

end

end TextBuffer
