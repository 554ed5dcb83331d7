import Mathlib.Data.List.Infix
import Mathlib.Logic.Function.Basic
import Mathlib.Tactic.Common

namespace Terminal
set_option autoImplicit true

/-- A row of a terminal. What is printed stays in its cell until another character is printed there,
also behind the cursor. -/
structure Row (α : Type) where
  cells : Nat → α
  cursor : Nat

def Row.before (r : Row α) : List α := (List.range r.cursor).map r.cells

def Row.Blank (blank : α) (r : Row α) : Prop := ∀ i, r.cursor ≤ i → r.cells i = blank

/-- Prints a character; `back` only moves the cursor. -/
def Row.put [DecidableEq α] (back : α) (r : Row α) (c : α) : Row α :=
  if c = back then { r with cursor := r.cursor - 1 }
  else ⟨Function.update r.cells r.cursor c, r.cursor + 1⟩

def Row.print [DecidableEq α] (back : α) (r : Row α) (out : List α) : Row α :=
  out.foldl (Row.put back) r

section
variable {r : Row α}

theorem before_length : r.before.length = r.cursor := by
  rw [Row.before, List.length_map, List.length_range]

variable [DecidableEq α] {back blank : α}

theorem print_append : r.print back (out ++ out') = (r.print back out).print back out' :=
  List.foldl_append

theorem put_back : r.put back back = { r with cursor := r.cursor - 1 } := if_pos rfl

theorem put_char (hc : c ≠ back) :
    r.put back c = ⟨Function.update r.cells r.cursor c, r.cursor + 1⟩ := if_neg hc

theorem before_char (hc : c ≠ back) : (r.put back c).before = r.before ++ [c] := by
  rw [put_char hc, Row.before, List.range_succ, List.map_append, List.map_singleton]
  dsimp only
  rw [Function.update_self, Row.before]
  congr 1
  apply List.map_congr_left
  intro i hi
  exact Function.update_of_ne (Nat.ne_of_lt (List.mem_range.1 hi)) _ _

theorem before_back : (r.put back back).before = r.before.dropLast := by
  rw [put_back, Row.before, Row.before, List.dropLast_eq_take, List.length_map, List.length_range,
    ← List.map_take, List.take_range, Nat.min_eq_left (Nat.sub_le _ _)]

theorem before_text (ht : back ∉ text) : (r.print back text).before = r.before ++ text := by
  induction text generalizing r with
  | nil => exact (List.append_nil _).symm
  | cons c text ih =>
    rw [List.mem_cons, not_or] at ht
    have hrest : ((r.put back c).print back text).before = (r.put back c).before ++ text := ih ht.2
    have hprint : r.print back (c :: text) = (r.put back c).print back text := rfl
    rw [hprint, hrest, before_char (Ne.symm ht.1), List.append_assoc, List.singleton_append]

theorem before_backs (hr : r.before = base ++ text) :
    (r.print back (List.replicate text.length back)).before = base := by
  induction text using List.reverseRecOn generalizing r with
  | nil => exact hr.trans (List.append_nil base)
  | append_singleton text c ih =>
    have hput : (r.put back back).before = base ++ text := by
      rw [before_back, hr, ← List.append_assoc, List.dropLast_concat]
    have hback := ih hput
    rw [List.length_append, List.length_singleton, List.replicate_succ]
    exact hback

theorem before_rubout (hblank : blank ≠ back) :
    (r.print back [back, blank, back]).before = r.before.dropLast := by
  have hprint : r.print back [back, blank, back] =
    ((r.put back back).put back blank).put back back := rfl
  rw [hprint, before_back, before_char hblank, before_back, List.dropLast_concat]

theorem Row.Blank.char (hb : r.Blank blank) (hc : c ≠ back) : (r.put back c).Blank blank := by
  rw [put_char hc]
  intro i hi
  have hi : r.cursor + 1 ≤ i := hi
  exact (Function.update_of_ne (by omega) _ _).trans (hb i (by omega))

theorem Row.Blank.rubout (hb : r.Blank blank) (hblank : blank ≠ back) (hpos : 0 < r.cursor) :
    (r.print back [back, blank, back]).Blank blank := by
  have hprint : r.print back [back, blank, back] =
    ((r.put back back).put back blank).put back back := rfl
  rw [hprint, put_back, put_char hblank, put_back]
  intro i hi
  have hi : r.cursor - 1 + 1 - 1 ≤ i := hi
  by_cases heq : i = r.cursor - 1
  · rw [heq]
    exact Function.update_self _ _ _
  · exact (Function.update_of_ne heq _ _).trans (hb i (by omega))

end

end Terminal
