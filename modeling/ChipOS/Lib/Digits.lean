import Mathlib.Algebra.Order.Ring.Nat
import Mathlib.Data.Nat.Digits.Defs
import Mathlib.Tactic.Common

namespace Digits

/-- The number that digits give behind the number `n`, the highest digit first. -/
def horner (b n : Nat) (ds : List Nat) : Nat := ds.foldl (fun n d => n * b + d) n

theorem horner_cons (b n d : Nat) (ds : List Nat) :
    horner b n (d :: ds) = horner b (n * b + d) ds := rfl

theorem le_horner (hb : 1 ≤ b) (n : Nat) (ds : List Nat) : n ≤ horner b n ds := by
  induction ds generalizing n with
  | nil => exact Nat.le_refl n
  | cons d ds ih =>
    have hstep : n ≤ n * b + d := Nat.le_add_right_of_le (Nat.le_mul_of_pos_right n hb)
    exact hstep.trans (ih (n * b + d))

theorem horner_reverse (b n : Nat) : horner b 0 (b.digits n).reverse = n := by
  have hfold : horner b 0 (b.digits n).reverse = Nat.ofDigits b (b.digits n) := by
    rw [horner, List.foldl_reverse, Nat.ofDigits_eq_foldr]
    simp only [Nat.cast_id, Nat.mul_comm b, Nat.add_comm (_ * b)]
  rw [hfold, Nat.ofDigits_digits]

end Digits
