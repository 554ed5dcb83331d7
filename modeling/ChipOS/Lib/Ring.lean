import Mathlib.Logic.Function.Basic
import Mathlib.Tactic.Common

namespace Ring
set_option autoImplicit true

/-- The slot in a ring of `m`, after `n` entries, of the entry `e` steps back. No step back is the
slot of the next entry. -/
def back (m n e : Nat) : Int := ((n : Int) - e) % m

/-- After the entries `xs`, the latest first, the last `m` of them are in the slots of a ring, and
a slot that none has reached yet holds `blank`. -/
def Keeps (holds : α → β → Prop) (m : Nat) (slots : Int → α) (xs : List β) (blank : β) : Prop :=
  ∀ k < m, holds (slots (back m xs.length (k + 1))) (xs[k]?.getD blank)

section
variable {m n e : Nat}

theorem back_nonneg (hm : 0 < m) : 0 ≤ back m n e := Int.emod_nonneg _ (by omega)

theorem back_lt (hm : 0 < m) : back m n e < m := Int.emod_lt_of_pos _ (by omega)

theorem back_zero : (n : Int).tmod m = back m n 0 := by
  rw [back, Int.tmod_eq_emod_of_nonneg (Int.natCast_nonneg n), Int.natCast_zero, Int.sub_zero]

theorem back_one (hn : 0 < n) : ((n : Int) - 1).tmod m = back m n 1 := by
  rw [back, Int.tmod_eq_emod_of_nonneg (by omega), Int.natCast_one]

theorem back_succ (hm : 0 < m) : (back m n e - 1 + m).tmod m = back m n (e + 1) := by
  have h₀ := back_nonneg (n := n) (e := e) hm
  rw [Int.tmod_eq_emod_of_nonneg (by omega), Int.add_emod_right, back, Int.emod_sub_emod, back]
  congr 1
  omega

theorem back_pred (hm : 0 < m) : (back m n (e + 1) + 1).tmod m = back m n e := by
  have h₀ := back_nonneg (n := n) (e := e + 1) hm
  rw [Int.tmod_eq_emod_of_nonneg (by omega), back, Int.emod_add_emod, back]
  congr 1
  omega

theorem back_succ_succ : back m (n + 1) (e + 1) = back m n e := by
  rw [back, back]
  congr 1
  omega

theorem back_inj {f : Nat} (he : e < f) (hf : f < e + m) : back m n e ≠ back m n f := by
  intro h
  have hsub : ((n : Int) - e - (n - f)) % m = 0 := Int.emod_eq_emod_iff_emod_sub_eq_zero.1 h
  have hval : (n : Int) - e - (n - f) = (f - e : Nat) := by omega
  rw [hval, Int.emod_eq_of_lt (Int.natCast_nonneg _) (by omega)] at hsub
  omega

theorem back_turn : back m n m = back m n 0 := by
  rw [back, back, Int.natCast_zero, Int.sub_zero, Int.sub_emod_right]

end

theorem Keeps.nil {holds : α → β → Prop} {slots : Int → α} (h : ∀ i, holds (slots i) blank) :
    Keeps holds m slots [] blank :=
  fun _ _ => h _

theorem Keeps.push {holds : α → β → Prop} {slots : Int → α} {xs : List β}
    (h : Keeps holds m slots xs blank) (hx : holds a x) :
    Keeps holds m (Function.update slots (back m xs.length 0) a) (x :: xs) blank := by
  intro k hk
  rw [List.length_cons, back_succ_succ]
  cases k with
  | zero =>
    rw [Function.update_self]
    exact hx
  | succ k =>
    rw [Function.update_of_ne (back_inj (by omega) (by omega)).symm, List.getElem?_cons_succ]
    exact h k (by omega)

end Ring
