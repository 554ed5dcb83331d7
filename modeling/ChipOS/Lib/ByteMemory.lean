import Mathlib.Algebra.Order.Ring.Nat
import Mathlib.Logic.Function.Basic
import Mathlib.Tactic.Common

namespace ByteMemory
set_option autoImplicit true

/-- A byte-addressed memory. Bounds are checked by whoever accesses it. -/
abbrev Mem := Nat → UInt8

/-- The `n`-byte little-endian word at `a`. -/
def load (m : Mem) (a : Nat) : Nat → Nat
  | 0 => 0
  | n + 1 => (m a).toNat + 256 * load m (a + 1) n

/-- Writes the low `n` bytes of `v` at `a`, little-endian. -/
def store (m : Mem) (a : Nat) : Nat → Nat → Mem
  | 0, _ => m
  | n + 1, v => store (Function.update m a (UInt8.ofNat v)) (a + 1) n (v / 256)

def slice (m : Mem) (a n : Nat) : List UInt8 := (List.range n).map fun i => m (a + i)

/-- Writes a string of bytes at `a`. -/
def blit (m : Mem) (a : Nat) (bs : List UInt8) : Mem :=
  fun x => if a ≤ x then (bs[x - a]?).getD (m x) else m x

theorem store_outside (hx : x < a ∨ a + n ≤ x) : store m a n v x = m x := by
  induction n generalizing m a v with
  | zero => rfl
  | succ n ih =>
    rw [store, ih (by omega), Function.update_of_ne (by omega)]

theorem load_congr (hm : ∀ x, a ≤ x → x < a + n → m x = m' x) : load m a n = load m' a n := by
  induction n generalizing a with
  | zero => rfl
  | succ n ih =>
    rw [load, load, hm a (Nat.le_refl a) (by omega), ih fun x hx hx' => hm x (by omega) (by omega)]

theorem load_store_same (hv : v < 256 ^ n) : load (store m a n v) a n = v := by
  induction n generalizing m a v with
  | zero =>
    simp only [Nat.pow_zero] at hv
    rw [load]
    omega
  | succ n ih =>
    have hq : v / 256 < 256 ^ n := by
      rw [Nat.pow_succ] at hv
      omega
    rw [load, store, store_outside (by omega), Function.update_self, ih hq, UInt8.toNat_ofNat']
    omega

theorem load_store_disjoint (hd : b + k ≤ a ∨ a + n ≤ b) :
    load (store m a n v) b k = load m b k :=
  load_congr fun x hx hx' => store_outside (by omega)

theorem load_lt : load m a n < 256 ^ n := by
  induction n generalizing a with
  | zero => exact Nat.one_pos
  | succ n ih =>
    have hb := (m a).toNat_lt
    have hr := ih (a := a + 1)
    rw [load, Nat.pow_succ]
    omega

@[simp] theorem slice_length : (slice m a n).length = n := by
  rw [slice, List.length_map, List.length_range]

theorem slice_getElem? (hi : i < n) : (slice m a n)[i]? = some (m (a + i)) := by
  rw [slice, List.getElem?_map, List.getElem?_range hi, Option.map_some]

theorem slice_congr (hm : ∀ x, a ≤ x → x < a + n → m x = m' x) : slice m a n = slice m' a n := by
  apply List.map_congr_left
  intro i hi
  exact hm _ (by omega) (by have := List.mem_range.1 hi; omega)

theorem blit_outside (hx : x < a ∨ a + bs.length ≤ x) : blit m a bs x = m x := by
  rw [blit]
  split
  · rw [List.getElem?_eq_none (by omega), Option.getD_none]
  · rfl

theorem blit_inside (hi : i < bs.length) : blit m a bs (a + i) = bs[i] := by
  rw [blit, if_pos (by omega), Nat.add_sub_cancel_left, List.getElem?_eq_getElem hi,
    Option.getD_some]

theorem slice_blit_same : slice (blit m a bs) a bs.length = bs := by
  apply List.ext_getElem?
  intro i
  by_cases hi : i < bs.length
  · rw [slice_getElem? hi, blit_inside hi, List.getElem?_eq_getElem hi]
  · rw [List.getElem?_eq_none (by rw [slice_length]; omega),
      List.getElem?_eq_none (by omega)]

theorem slice_take (hk : k ≤ n) : (slice m a n).take k = slice m a k := by
  rw [slice, slice, ← List.map_take, List.take_range, Nat.min_eq_left hk]

end ByteMemory
