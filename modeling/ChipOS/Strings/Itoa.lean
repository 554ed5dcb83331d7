import ChipOS.CString
import ChipOS.Lib.CharArray
import Mathlib.Data.Nat.Digits.Lemmas

namespace ChipOS
open CharArray (Chars Holds get get_eq set set_eq storeAll storeAll_append storeAll_apply)
set_option autoImplicit true

/-- `(tmp_value < 10) ? (tmp_value + '0') : (tmp_value - 10 + 'a')` -/
def itoaDigit (tmpValue : Int) : UInt8 :=
  UInt8.ofInt (if tmpValue < 10 then tmpValue + '0'.toNat else tmpValue - 10 + 'a'.toNat)

/-- `while (value != 0)`, with room for so many characters and `ptr` as an index. -/
def itoaLoop (n : Nat) (base : Int) : Nat → Int → Chars → Int → Option (Chars × Int)
  | 0, _, _, _ => none
  | room + 1, value, str, ptr =>
    if value ≠ 0 then do
      let str ← set n str ptr (itoaDigit (value.tmod base))
      itoaLoop n base room (value.tdiv base) str (ptr + 1)
    else some (str, ptr)

/-- `while (ptr1 < ptr)`, for at most so many rounds. -/
def itoaReverse (n : Nat) : Nat → Chars → Int → Int → Option Chars
  | 0, _, _, _ => none
  | rounds + 1, str, ptr1, ptr =>
    if ptr1 < ptr then do
      let tmpChar ← get n str ptr
      let c ← get n str ptr1
      let str ← set n str ptr c
      let str ← set n str ptr1 tmpChar
      itoaReverse n rounds str (ptr1 + 1) (ptr - 1)
    else some str

/-- `itoa` in a buffer of `n` bytes. -/
def itoa (n : Nat) (str : Chars) (value base : Int) : Option Chars :=
  if value = 0 then do
    let str ← set n str 0 '0'.toUInt8
    set n str 1 0
  else do
    let (str, ptr) ← itoaLoop n base (n + 1) value str 0
    let str ← set n str ptr 0
    itoaReverse n n str 0 (ptr - 1)

/-- The characters for the digits of a number, the lowest digit first. Each digit has the sign of
the number. -/
def digitChars (base : Nat) (sign : Int) (m : Nat) : List UInt8 :=
  (base.digits m).map fun (d : Nat) => itoaDigit (sign * d)

def itoaString (base : Nat) (value : Int) : List UInt8 :=
  if value = 0 then ['0'.toUInt8] else (digitChars base value.sign value.natAbs).reverse

section
variable {str : Chars} {n base m : Nat} {sign value ptr : Int}

theorem tmod_sign (h : sign = 1 ∨ sign = -1) : (sign * (m : Int)).tmod base = sign * (m % base : Nat) := by
  rcases h with rfl | rfl
  · rw [Int.one_mul, Int.one_mul]
    rfl
  · rw [Int.neg_one_mul, Int.neg_one_mul, Int.neg_tmod]
    rfl

theorem tdiv_sign (h : sign = 1 ∨ sign = -1) : (sign * (m : Int)).tdiv base = sign * (m / base : Nat) := by
  rcases h with rfl | rfl
  · rw [Int.one_mul, Int.one_mul]
    rfl
  · rw [Int.neg_one_mul, Int.neg_one_mul, Int.neg_tdiv]
    rfl

theorem digitChars_step (hb : 2 ≤ base) (hm : 0 < m) : digitChars base sign m =
    itoaDigit (sign * (m % base : Nat)) :: digitChars base sign (m / base) := by
  rw [digitChars, Nat.digits_def' hb hm, List.map_cons]
  rfl

theorem itoaLoop_eq (hsign : sign = 1 ∨ sign = -1) (hb : 2 ≤ base) (h₀ : 0 ≤ ptr)
    (hfit : ptr + (digitChars base sign m).length ≤ n) (hroom : (digitChars base sign m).length < room) :
    itoaLoop n base room (sign * m) str ptr =
      some (storeAll str ptr (digitChars base sign m), ptr + (digitChars base sign m).length) := by
  induction room generalizing m str ptr with
  | zero => cases hroom
  | succ room ih =>
    have hne : sign ≠ 0 := by omega
    rw [itoaLoop]
    rcases Nat.eq_zero_or_pos m with rfl | hm
    · have hnone : digitChars base sign 0 = [] := by rw [digitChars, Nat.digits_zero]; rfl
      rw [if_neg (by rw [Int.natCast_zero, Int.mul_zero]; exact not_not.2 rfl), hnone,
        List.length_nil, Int.natCast_zero, Int.add_zero]
      rfl
    · rw [digitChars_step hb hm] at hfit hroom ⊢
      rw [List.length_cons] at hfit hroom
      rw [if_pos (Int.mul_ne_zero hne (by omega)), set_eq h₀ (by omega), Option.bind_eq_bind,
        Option.bind_some, tmod_sign hsign, tdiv_sign hsign, ih (by omega) (by omega) (by omega),
        List.length_cons]
      have hsum : ptr + 1 + ((digitChars base sign (m / base)).length : Int) =
          ptr + ((digitChars base sign (m / base)).length + 1 : Nat) := by omega
      rw [hsum]
      rfl

theorem itoaReverse_eq {lo hi : Int} {rounds : Nat} (h₀ : 0 ≤ lo) (hfit : hi < n) (hpos : 0 < rounds)
    (hrounds : hi - lo + 2 ≤ 2 * rounds) : ∃ out, itoaReverse n rounds str lo hi = some out ∧
      ∀ x, out x = if lo ≤ x ∧ x ≤ hi then str (lo + hi - x) else str x := by
  induction rounds generalizing str lo hi with
  | zero => cases hpos
  | succ rounds ih =>
    rw [itoaReverse]
    by_cases hlt : lo < hi
    · have hrec : ∃ out, itoaReverse n rounds (Function.update (Function.update str hi (str lo)) lo (str hi))
          (lo + 1) (hi - 1) = some out ∧ ∀ x, out x = if lo + 1 ≤ x ∧ x ≤ hi - 1 then
            Function.update (Function.update str hi (str lo)) lo (str hi) (lo + 1 + (hi - 1) - x)
          else Function.update (Function.update str hi (str lo)) lo (str hi) x :=
        ih (by omega) (by omega) (by omega) (by omega)
      obtain ⟨out, hout, hx⟩ := hrec
      refine ⟨out, ?_, fun x => ?_⟩
      · rw [if_pos hlt, get_eq (by omega) hfit, get_eq h₀ (by omega)]
        simp only [Option.bind_eq_bind, Option.bind_some]
        rw [set_eq (by omega) hfit, Option.bind_some, set_eq h₀ (by omega), Option.bind_some]
        exact hout
      · rw [hx]
        by_cases hin : lo + 1 ≤ x ∧ x ≤ hi - 1
        · rw [if_pos hin, if_pos (by omega), Function.update_of_ne (by omega),
            Function.update_of_ne (by omega)]
          congr 1
          omega
        · rw [if_neg hin]
          by_cases hlo : x = lo
          · rw [if_pos (by omega), hlo, Function.update_self]
            congr 1
            omega
          · rw [Function.update_of_ne hlo]
            by_cases hhi : x = hi
            · rw [if_pos (by omega), hhi, Function.update_self]
              congr 1
              omega
            · rw [if_neg (by omega), Function.update_of_ne hhi]
    · refine ⟨str, if_neg hlt, fun x => ?_⟩
      by_cases hin : lo ≤ x ∧ x ≤ hi
      · rw [if_pos hin]
        congr 1
        omega
      · rw [if_neg hin]

theorem holds_reverse {out : Chars} {cs : List UInt8} (hnul : 0 ∉ cs)
    (hout : ∀ x : Int, out x = if 0 ≤ x ∧ x ≤ cs.length - 1 then
      Function.update (storeAll str 0 cs) cs.length 0 (0 + (cs.length - 1) - x)
      else Function.update (storeAll str 0 cs) cs.length 0 x) :
    Holds out 0 cs.reverse := by
  refine ⟨fun hm => hnul (List.mem_reverse.1 hm), fun k hk => ?_⟩
  rw [List.length_reverse] at hk
  rw [Int.zero_add, hout]
  rcases Nat.lt_or_eq_of_le hk with hlt | rfl
  · have hindex : (0 + ((cs.length : Int) - 1) - k - 0).toNat = cs.length - 1 - k := by omega
    rw [if_pos (by omega), Function.update_of_ne (by omega), storeAll_apply, if_pos (by omega), hindex,
      List.getElem?_reverse hlt]
  · rw [if_neg (by omega), Function.update_self,
      List.getElem?_eq_none (by rw [List.length_reverse]), Option.getD_none]

theorem itoaDigit_ne_zero : ∀ d < 36, itoaDigit (d : Nat) ≠ 0 ∧ itoaDigit (-(d : Nat)) ≠ 0 := by
  decide

theorem no_nul_digitChars (hsign : sign = 1 ∨ sign = -1) (hb : 2 ≤ base) (hb' : base ≤ 36) :
    0 ∉ digitChars base sign m := by
  intro hm
  obtain ⟨d, hd, hz⟩ := List.mem_map.1 hm
  have hlt : d < 36 := Nat.lt_of_lt_of_le (Nat.digits_lt_base hb hd) hb'
  rcases hsign with rfl | rfl
  · rw [Int.one_mul] at hz
    exact (itoaDigit_ne_zero d hlt).1 hz
  · rw [Int.neg_one_mul] at hz
    exact (itoaDigit_ne_zero d hlt).2 hz

theorem itoa_digits (str : Chars) (hsign : sign = 1 ∨ sign = -1) (hm : 0 < m) (hb : 2 ≤ base)
    (hb' : base ≤ 36) (hfit : (digitChars base sign m).length < n) :
    ∃ out, itoa n str (sign * m) base = some out ∧ Holds out 0 (digitChars base sign m).reverse := by
  have hne : sign * (m : Int) ≠ 0 := Int.mul_ne_zero (by omega) (by omega)
  have hpos : 0 < (digitChars base sign m).length := by
    rw [digitChars_step hb hm]
    exact Nat.zero_lt_succ _
  have hnul : 0 ∉ digitChars base sign m := no_nul_digitChars hsign hb hb'
  have hloop : itoaLoop n base (n + 1) (sign * m) str 0 = _ :=
    itoaLoop_eq hsign hb (Int.le_refl 0) (by omega) (by omega)
  obtain ⟨cs, hcs⟩ : ∃ cs, digitChars base sign m = cs := ⟨_, rfl⟩
  rw [hcs] at hloop hfit hpos hnul ⊢
  have hreverse : ∃ out, itoaReverse n n (Function.update (storeAll str 0 cs) cs.length 0) 0
      (cs.length - 1) = some out ∧ ∀ x : Int, out x = if 0 ≤ x ∧ x ≤ cs.length - 1 then _ else _ :=
    itoaReverse_eq (Int.le_refl 0) (by omega) (by omega) (by omega)
  obtain ⟨out, hout, hx⟩ := hreverse
  refine ⟨out, ?_, holds_reverse hnul hx⟩
  rw [itoa, if_neg hne, hloop, Option.bind_eq_bind, Option.bind_some]
  simp only [Int.zero_add]
  rw [set_eq (by omega) (by omega)]
  exact hout

theorem itoa_holds (str : Chars) (hb : 2 ≤ base) (hb' : base ≤ 36)
    (hfit : (itoaString base value).length < n) :
    ∃ out, itoa n str value base = some out ∧ Holds out 0 (itoaString base value) := by
  rw [itoaString] at hfit ⊢
  by_cases hv : value = 0
  · rw [if_pos hv, List.length_singleton] at hfit
    rw [itoa, if_pos hv, if_pos hv, set_eq (Int.le_refl 0) (by omega), Option.bind_eq_bind,
      Option.bind_some, set_eq (by decide) (by omega)]
    refine ⟨_, rfl, by decide, fun k hk => ?_⟩
    rw [List.length_singleton] at hk
    interval_cases k
    · rfl
    · rfl
  · rw [if_neg hv, List.length_reverse] at hfit
    rw [if_neg hv]
    have hsign : value.sign = 1 ∨ value.sign = -1 := by
      rcases Int.lt_or_gt_of_ne hv with hneg | hpos
      · exact .inr (Int.sign_eq_neg_one_of_neg hneg)
      · exact .inl (Int.sign_eq_one_of_pos hpos)
    have hdigits := itoa_digits str hsign (by omega) hb hb' hfit
    rwa [Int.sign_mul_natAbs] at hdigits

end

end ChipOS
