import ChipOS.Shell.Calc
import ChipOS.Strings.Itoa

namespace ChipOS
open CharArray (Chars Holds)
open Digits Run
set_option autoImplicit true

def baseDigits (base : Nat) : List UInt8 := (CStr.ofString "0123456789abcdef").bytes.take base

/-- The string has digits and minus signs only, and its number starts with no zero but 0. -/
structure NumberText (base : Nat) (value : Int) (s : List UInt8) : Prop where
  chars : ∀ c ∈ s, c = '-'.toUInt8 ∨ c ∈ baseDigits base
  leading : value ≠ 0 → ∀ rest, s ≠ '0'.toUInt8 :: rest ∧ s ≠ '-'.toUInt8 :: '0'.toUInt8 :: rest

/-- In the buffers of 16 bytes `itoa` makes well formed strings in both bases, and `simple_atoi`
gets the number back from the decimal one. -/
def ItoaRight (value : Int) : Prop :=
  ∀ str : Chars,
    (∀ base ∈ ([10, 16] : List Nat), ∃ out s, itoa 16 str value base = some out ∧ Holds out 0 s ∧
      s.length < 16 ∧ NumberText base value s) ∧
    ∃ out s, itoa 16 str value 10 = some out ∧ Holds out 0 s ∧ simpleAtoi s = .ok value

section
variable {base m : Nat} {value : Int} {s : List UInt8}

theorem itoaDigit_mem (hbase : base ∈ [10, 16]) (hd : d < base) : itoaDigit (d : Nat) ∈ baseDigits base := by
  have hten : ∀ d < 10, itoaDigit (d : Nat) ∈ baseDigits 10 := by decide
  have hhex : ∀ d < 16, itoaDigit (d : Nat) ∈ baseDigits 16 := by decide
  rcases List.mem_pair.1 hbase with rfl | rfl
  · exact hten d hd
  · exact hhex d hd

theorem base_bounds (hbase : base ∈ [10, 16]) : 10 ≤ base ∧ base ≤ 16 := by
  rcases List.mem_pair.1 hbase with rfl | rfl <;> decide

theorem minus_not_mem (hbase : base ∈ [10, 16]) : '-'.toUInt8 ∉ baseDigits base := by
  rcases List.mem_pair.1 hbase with rfl | rfl <;> decide

theorem itoaDigit_eq_zero : ∀ d < 16, itoaDigit (d : Nat) = '0'.toUInt8 → d = 0 := by decide

theorem digitValue_itoaDigit : ∀ d < 10, isDigit (itoaDigit (d : Nat)) = true ∧
    digitValue (itoaDigit (d : Nat)) = d := by
  decide

theorem itoaDigit_neg_le : ∀ d < 10, itoaDigit (-(d : Nat)) ≤ '0'.toUInt8 := by decide

theorem itoaString_length (hbase : 10 ≤ base) (hv : intMin ≤ value) (hv' : value ≤ intMax) :
    (itoaString base value).length ≤ 10 := by
  rw [itoaString]
  split
  · exact Nat.one_le_iff_ne_zero.2 (by decide)
  rw [List.length_reverse, digitChars, List.length_map, Nat.digits_length_le_iff (by omega)]
  have hpow : 10 ^ 10 ≤ base ^ 10 := Nat.pow_le_pow_left hbase 10
  rw [intMin] at hv
  rw [intMax] at hv'
  omega

theorem itoaString_pos (hm : 0 < m) : itoaString base m =
    ((base.digits m).map fun (d : Nat) => itoaDigit d).reverse := by
  rw [itoaString, if_neg (by omega), Int.sign_eq_one_of_pos (by omega), Int.natAbs_natCast, digitChars]
  simp only [Int.one_mul]

theorem itoaString_neg (hm : 0 < m) : itoaString base (-m) =
    ((base.digits m).map fun (d : Nat) => itoaDigit (-d)).reverse := by
  rw [itoaString, if_neg (by omega), Int.sign_eq_neg_one_of_neg (by omega), Int.natAbs_neg,
    Int.natAbs_natCast, digitChars]
  simp only [Int.neg_one_mul]

theorem itoaString_head (hbase : base ∈ [10, 16]) (hm : 0 < m) :
    (itoaString base m).head? ≠ some '0'.toUInt8 := by
  obtain ⟨hten, hhex⟩ := base_bounds hbase
  have hne : base.digits m ≠ [] := Nat.digits_ne_nil_iff_ne_zero.2 (by omega)
  rw [itoaString_pos hm, List.head?_reverse, List.getLast?_map, List.getLast?_eq_some_getLast hne,
    Option.map_some]
  intro h
  have hlt : (base.digits m).getLast hne < base := Nat.digits_lt_base (by omega) (List.getLast_mem hne)
  exact Nat.getLast_digit_ne_zero base (by omega)
    (itoaDigit_eq_zero _ (Nat.lt_of_lt_of_le hlt hhex) (Option.some.inj h))

theorem itoaString_chars (hbase : base ∈ [10, 16]) (hm : 0 < m) :
    ∀ c ∈ itoaString base m, c ∈ baseDigits base := by
  obtain ⟨hten, _⟩ := base_bounds hbase
  intro c hc
  rw [itoaString_pos hm, List.mem_reverse, List.mem_map] at hc
  obtain ⟨d, hd, rfl⟩ := hc
  exact itoaDigit_mem hbase (Nat.digits_lt_base (by omega) hd)

theorem numberText_zero (hbase : base ∈ [10, 16]) : NumberText base 0 (itoaString base 0) := by
  refine ⟨fun c hc => ?_, fun h => absurd rfl h⟩
  cases List.mem_singleton.1 hc
  rcases List.mem_pair.1 hbase with rfl | rfl <;> decide

theorem numberText_pos (hbase : base ∈ [10, 16]) (hm : 0 < m) :
    NumberText base m (itoaString base m) := by
  have hchars := itoaString_chars hbase hm
  refine ⟨fun c hc => .inr (hchars c hc), fun _ rest => ⟨fun h => ?_, fun h => ?_⟩⟩
  · exact itoaString_head hbase hm (congrArg List.head? h)
  · exact minus_not_mem hbase (hchars _ (h ▸ List.mem_cons_self))

theorem simpleAtoi_itoaString (hm : (m : Int) ≤ intMax) : simpleAtoi (itoaString 10 m) = .ok (m : Int) := by
  have hdecimal : Decimal (itoaString 10 m) m := by
    rcases Nat.eq_zero_or_pos m with rfl | hpos
    · exact .unsigned (List.all_eq_true.1 rfl)
    · have hdigit : ∀ d ∈ Nat.digits 10 m, d < 10 := fun d hd => Nat.digits_lt_base (by decide) hd
      have hvalues : (itoaString 10 m).map digitValue = (Nat.digits 10 m).reverse := by
        have hback : (Nat.digits 10 m).map (digitValue ∘ fun (d : Nat) => itoaDigit d) =
            (Nat.digits 10 m).map id :=
          List.map_congr_left fun d hd => (digitValue_itoaDigit d (hdigit d hd)).2
        rw [itoaString_pos hpos, List.map_reverse, List.map_map, hback, List.map_id]
      have hnumber : Decimal (itoaString 10 m) (horner 10 0 ((itoaString 10 m).map digitValue)) := by
        refine .unsigned fun c hc => ?_
        rw [itoaString_pos hpos, List.mem_reverse, List.mem_map] at hc
        obtain ⟨d, hd, rfl⟩ := hc
        exact (digitValue_itoaDigit d (hdigit d hd)).1
      rwa [hvalues, horner_reverse] at hnumber
  rw [simpleAtoi_decimal hdecimal, Int.natAbs_natCast, if_pos hm]

theorem atoiFrom_low (hs : ∀ c ∈ s, c ≤ '0'.toUInt8) : atoiFrom 0 s = .ok 0 := by
  induction s with
  | nil => rfl
  | cons c s ih =>
    rw [atoiFrom]
    split
    · next hdigit =>
      have hzero : c = '0'.toUInt8 := UInt8.le_antisymm (hs c List.mem_cons_self) hdigit.1
      rw [hzero]
      exact ih fun d hd => hs d (List.mem_cons_of_mem c hd)
    · rfl

theorem simpleAtoi_low (hs : ∀ c ∈ s, c ≤ '0'.toUInt8) : simpleAtoi s = .ok 0 := by
  rw [simpleAtoi]
  split
  · rw [atoiFrom_low fun c hc => hs c (List.mem_of_mem_tail hc)]
    rfl
  · rw [atoiFrom_low hs]
    rfl

theorem simpleAtoi_neg (hm : 0 < m) : simpleAtoi (itoaString 10 (-m)) = .ok 0 := by
  apply simpleAtoi_low
  intro c hc
  rw [itoaString_neg hm, List.mem_reverse, List.mem_map] at hc
  obtain ⟨d, hd, rfl⟩ := hc
  exact itoaDigit_neg_le d (Nat.digits_lt_base (by decide) hd)

theorem numberText_itoaString (hbase : base ∈ [10, 16]) (hv : 0 ≤ value) :
    NumberText base value (itoaString base value) := by
  obtain ⟨m, rfl⟩ := Int.eq_ofNat_of_zero_le hv
  rcases Nat.eq_zero_or_pos m with rfl | hm
  · exact numberText_zero hbase
  · exact numberText_pos hbase hm

theorem itoaString_fits (hbase : base ∈ [10, 16]) (hv : intMin ≤ value) (hv' : value ≤ intMax) :
    (itoaString base value).length < 16 := by
  have hle := itoaString_length (base_bounds hbase).1 hv hv'
  omega

theorem not_itoaRight (hv : intMin ≤ value) (hneg : value < 0) : ¬ItoaRight value := by
  intro hright
  obtain ⟨m, hm⟩ : ∃ m : Nat, value = -m := ⟨value.natAbs, by omega⟩
  have hmax : value ≤ intMax := Int.le_trans (Int.le_of_lt hneg) (by decide)
  obtain ⟨_, out, s, hout, hs, hatoi⟩ := hright fun _ => 0
  obtain ⟨out', hout', hs'⟩ := itoa_holds (fun _ => 0) (by decide) (by decide)
    (itoaString_fits List.mem_cons_self hv hmax)
  cases hout.symm.trans hout'
  rw [hs.unique hs', hm, simpleAtoi_neg (by omega)] at hatoi
  have hzero := Except.ok.inj hatoi
  omega

/-- `itoa` and `simple_atoi` are inverse on the numbers that are not negative, and only there:
`itoa` makes no minus sign and takes the digits of a negative number for negative. -/
theorem itoa_inverts (hv : intMin ≤ value) (hv' : value ≤ intMax) : ItoaRight value ↔ 0 ≤ value := by
  constructor
  · intro hright
    exact Int.not_lt.1 fun hneg => not_itoaRight hv hneg hright
  · intro h₀ str
    refine ⟨fun base hbase => ?_, ?_⟩
    · obtain ⟨hten, hhex⟩ := base_bounds hbase
      have hfits := itoaString_fits hbase hv hv'
      obtain ⟨out, hout, hs⟩ := itoa_holds str (by omega) (by omega) hfits
      exact ⟨out, _, hout, hs, hfits, numberText_itoaString hbase h₀⟩
    · obtain ⟨out, hout, hs⟩ := itoa_holds str (by decide) (by decide)
        (itoaString_fits List.mem_cons_self hv hv')
      obtain ⟨m, hm⟩ := Int.eq_ofNat_of_zero_le h₀
      refine ⟨out, _, hout, hs, ?_⟩
      rw [hm]
      exact simpleAtoi_itoaString (hm ▸ hv')

theorem itoa_inverts_max : ItoaRight 2147483647 ↔ (0 : Int) ≤ 2147483647 :=
  itoa_inverts (by decide) (by decide)

/-- `itoa` of -1 is a slash. -/
theorem itoa_negative : ¬ItoaRight (-1) ∧ simpleAtoi ['/'.toUInt8] = .ok 0 ∧
    ∀ str, ∃ out, itoa 16 str (-1) 10 = some out ∧ Holds out 0 ['/'.toUInt8] := by
  refine ⟨not_itoaRight (by decide) (by decide), rfl, fun str => ?_⟩
  have hstring : itoaString 10 (-(1 : Nat)) = ['/'.toUInt8] := by
    rw [itoaString_neg Nat.one_pos, Nat.digits_of_lt 10 1 (by decide) (by decide)]
    rfl
  obtain ⟨out, hout, hs⟩ := itoa_holds str (by decide) (by decide)
    (itoaString_fits (List.mem_cons_self) (show intMin ≤ -1 by decide) (by decide))
  exact ⟨out, hout, hstring ▸ hs⟩

end

end ChipOS
