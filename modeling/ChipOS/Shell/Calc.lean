import ChipOS.Fault
import ChipOS.Lib.Digits
import ChipOS.Shell.Output

namespace ChipOS
open Digits Run
set_option autoImplicit true

/-- The loop of `simple_atoi`. -/
def atoiFrom (result : Int) : List UInt8 → Except Fault Int
  | [] => .ok result
  | c :: str =>
    if '0'.toUInt8 ≤ c ∧ c ≤ '9'.toUInt8 then do
      let shifted ← intResult (result * 10)
      let result ← intResult (shifted + (c.toNat - '0'.toNat))
      atoiFrom result str
    else .ok result

def simpleAtoi (str : List UInt8) : Except Fault Int :=
  if str.head? = some '-'.toUInt8 then do
    let result ← atoiFrom 0 str.tail
    intResult (result * -1)
  else do
    let result ← atoiFrom 0 str
    intResult (result * 1)

def usageCalc : List Print :=
  [.text "Usage: calc <number> <operator> <number>\n", .text "Example: calc 2 + 3\n",
    .text "Operators: +, -, *, /\n"]

def divisionByZero : List Print := [.text "Error: Division by zero\n"]

def unknownOperator : List Print := [.text "Error: Unknown operator\n"]

def calcResult (result : Int) : List Print :=
  [.text "Result: ", .putHex (BitVec.ofInt 32 result), .text "\n"]

def cmdCalc : List CStr → Except Fault (List Print)
  | _ :: arg1 :: op :: arg3 :: _ => do
    let a ← simpleAtoi arg1.bytes
    let b ← simpleAtoi arg3.bytes
    if strcmp op.bytes (CStr.ofString "+").bytes = 0 then
      let result ← intResult (a + b)
      return calcResult result
    if strcmp op.bytes (CStr.ofString "-").bytes = 0 then
      let result ← intResult (a - b)
      return calcResult result
    if strcmp op.bytes (CStr.ofString "*").bytes = 0 then
      let result ← intResult (a * b)
      return calcResult result
    if strcmp op.bytes (CStr.ofString "/").bytes = 0 then
      if b = 0 then return divisionByZero
      let result ← intResult (a.tdiv b)
      return calcResult result
    return unknownOperator
  | _ => return usageCalc

def digitValue (c : UInt8) : Nat := c.toNat - '0'.toNat

/-- The string is a number in decimal, with an optional sign. -/
inductive Decimal : List UInt8 → Int → Prop
  | unsigned (h : ∀ c ∈ ds, isDigit c = true) : Decimal ds (horner 10 0 (ds.map digitValue))
  | negative (h : ∀ c ∈ ds, isDigit c = true) :
    Decimal ('-'.toUInt8 :: ds) (-horner 10 0 (ds.map digitValue))

inductive Operator where
  | plus
  | minus
  | times
  | divide
deriving DecidableEq, Repr

def Operator.symbol : Operator → CStr
  | plus => .ofString "+"
  | minus => .ofString "-"
  | times => .ofString "*"
  | divide => .ofString "/"

/-- The exact result; the division truncates toward zero. -/
def Operator.exact : Operator → Int → Int → Int
  | plus, a, b => a + b
  | minus, a, b => a - b
  | times, a, b => a * b
  | divide, a, b => a.tdiv b

/-- The part of an operand that `simple_atoi` reads. -/
def numeral (str : List UInt8) : List UInt8 :=
  if str.head? = some '-'.toUInt8 then '-'.toUInt8 :: str.tail.takeWhile isDigit
  else str.takeWhile isDigit

/-- The digits of an operand, or the result, are no `int`. -/
def CalcOverflows (arg1 op arg3 : CStr) : Prop :=
  ∃ x y, Decimal (numeral arg1.bytes) x ∧ Decimal (numeral arg3.bytes) y ∧
    (intMax < x.natAbs ∨ intMax < y.natAbs ∨
      ∃ o : Operator, op = o.symbol ∧ ¬(intMin ≤ o.exact x y ∧ o.exact x y ≤ intMax))

/-- `cmd_calc` returns, and what it prints is an error or the result in hexadecimal. -/
def ExactOrError (args : List CStr) (result : Int) : Prop :=
  ∃ out, cmdCalc args = .ok out ∧ (out = divisionByZero ∨ out = unknownOperator ∨
    out.flatMap Print.chars =
      (CStr.ofString "Result: ").bytes ++ hexChars (BitVec.ofInt 32 result) ++ ['\n'.toUInt8])

section
variable {ds s : List UInt8} {v x y : Int}

theorem digit_between {c : UInt8} (h : isDigit c = true) :
    ('0'.toUInt8 ≤ c ∧ c ≤ '9'.toUInt8) ∧ (c.toNat : Int) - '0'.toNat = digitValue c ∧
      digitValue c ≤ 9 := by
  rw [isDigit, decide_eq_true_iff] at h
  obtain ⟨hlow, hhigh⟩ := h
  have h₀ : '0'.toNat ≤ c.toNat := UInt8.le_iff_toNat_le.1 hlow
  have h₉ : c.toNat ≤ '0'.toNat + 9 := UInt8.le_iff_toNat_le.1 hhigh
  rw [digitValue]
  exact ⟨⟨hlow, hhigh⟩, by omega, by omega⟩

theorem atoiFrom_digits (hds : ∀ c ∈ ds, isDigit c = true) (n : Nat) (hn : n ≤ intMax) :
    atoiFrom n ds =
      if horner 10 n (ds.map digitValue) ≤ intMax then .ok (horner 10 n (ds.map digitValue) : Int)
      else .error .intOverflow := by
  induction ds generalizing n with
  | nil => exact (if_pos hn).symm
  | cons c ds ih =>
    obtain ⟨hbetween, hvalue, hle⟩ := digit_between (hds c List.mem_cons_self)
    have hrest : ∀ d ∈ ds, isDigit d = true := fun d hd => hds d (List.mem_cons_of_mem c hd)
    have hmono := le_horner (show 1 ≤ 10 by decide) (n * 10 + digitValue c) (ds.map digitValue)
    rw [atoiFrom, if_pos hbetween, hvalue, List.map_cons, horner_cons]
    by_cases hshift : (n : Int) * 10 ≤ intMax
    · rw [intResult_eq (by rw [intMin]; omega) hshift, ok_bind]
      by_cases hadd : (n : Int) * 10 + digitValue c ≤ intMax
      · rw [intResult_eq (by rw [intMin]; omega) hadd, ok_bind]
        exact ih hrest (n * 10 + digitValue c) (by omega)
      · rw [intResult_overflow fun h => hadd h.2, if_neg (by omega)]
        rfl
    · rw [intResult_overflow fun h => hshift h.2, if_neg (by omega)]
      rfl

theorem simpleAtoi_decimal (h : Decimal s v) :
    simpleAtoi s = if v.natAbs ≤ intMax then .ok v else .error .intOverflow := by
  have hmax : (0 : Int) ≤ intMax := by decide
  cases h with
  | @unsigned ds hds =>
    have hhead : s.head? ≠ some '-'.toUInt8 := by
      intro hs
      have hd := hds _ (List.mem_of_mem_head? hs)
      cases hd
    rw [simpleAtoi, if_neg hhead, show (0 : Int) = (0 : Nat) from rfl, atoiFrom_digits hds 0 hmax,
      Int.natAbs_natCast]
    split
    · next hle =>
      rw [ok_bind, Int.mul_one]
      exact intResult_eq (by rw [intMin]; omega) hle
    · rfl
  | @negative ds hds =>
    rw [simpleAtoi, List.head?_cons, if_pos rfl, List.tail_cons, show (0 : Int) = (0 : Nat) from rfl,
      atoiFrom_digits hds 0 hmax, Int.natAbs_neg, Int.natAbs_natCast]
    split
    · next hle =>
      rw [ok_bind, Int.mul_neg_one]
      rw [intMax] at hle
      exact intResult_eq (by rw [intMin]; omega) (by rw [intMax]; omega)
    · rfl

theorem chars_calcResult (v : Int) : (calcResult v).flatMap Print.chars =
    (CStr.ofString "Result: ").bytes ++ hexChars (BitVec.ofInt 32 v) ++ ['\n'.toUInt8] := by
  rw [List.append_assoc]
  rfl

theorem cmdCalc_symbol (o : Operator) {name arg1 arg3 : CStr} {rest : List CStr}
    (ha : simpleAtoi arg1.bytes = .ok x) (hb : simpleAtoi arg3.bytes = .ok y) :
    cmdCalc (name :: arg1 :: o.symbol :: arg3 :: rest) =
      if o = .divide ∧ y = 0 then .ok divisionByZero
      else intResult (o.exact x y) >>= fun result => .ok (calcResult result) := by
  rw [cmdCalc, ha, hb, ok_bind, ok_bind]
  cases o with
  | plus => rfl
  | minus => rfl
  | times => rfl
  | divide =>
    show (if y = 0 then .ok divisionByZero
      else intResult (x.tdiv y) >>= fun result => .ok (calcResult result)) = _
    by_cases hy : y = 0
    · rw [if_pos hy, if_pos ⟨rfl, hy⟩]
    · rw [if_neg hy, if_neg fun h => hy h.2]
      rfl

end

/-- `cmd_calc` refuses or prints the exact result, as long as no step leaves the range of an
`int`. -/
theorem calc_exact {name arg1 arg3 : CStr} {rest : List CStr} {x y : Int}
    (ha : Decimal arg1.bytes x) (hb : Decimal arg3.bytes y) (o : Operator) :
    ExactOrError (name :: arg1 :: o.symbol :: arg3 :: rest) (o.exact x y) ↔
      x.natAbs ≤ intMax ∧ y.natAbs ≤ intMax ∧ intMin ≤ o.exact x y ∧ o.exact x y ≤ intMax := by
  have ha := simpleAtoi_decimal ha
  have hb := simpleAtoi_decimal hb
  by_cases hx : x.natAbs ≤ intMax
  swap
  · rw [if_neg hx] at ha
    refine iff_of_false ?_ fun h => hx h.1
    rintro ⟨out, hout, _⟩
    rw [cmdCalc, ha] at hout
    cases hout
  by_cases hy : y.natAbs ≤ intMax
  swap
  · rw [if_pos hx] at ha
    rw [if_neg hy] at hb
    refine iff_of_false ?_ fun h => hy h.2.1
    rintro ⟨out, hout, _⟩
    rw [cmdCalc, ha, hb] at hout
    cases hout
  rw [if_pos hx] at ha
  rw [if_pos hy] at hb
  rw [ExactOrError, cmdCalc_symbol o ha hb]
  by_cases hzero : o = .divide ∧ y = 0
  · rw [if_pos hzero]
    refine iff_of_true ⟨_, rfl, .inl rfl⟩ ⟨hx, hy, ?_⟩
    rw [hzero.1, hzero.2, Operator.exact, Int.tdiv_zero]
    decide
  rw [if_neg hzero]
  by_cases hr : intMin ≤ o.exact x y ∧ o.exact x y ≤ intMax
  · rw [intResult_eq hr.1 hr.2, ok_bind]
    exact iff_of_true ⟨_, rfl, .inr (.inr (chars_calcResult _))⟩ ⟨hx, hy, hr⟩
  · rw [intResult_overflow hr]
    refine iff_of_false ?_ fun h => hr h.2.2
    rintro ⟨out, hout, _⟩
    cases hout

theorem calc_exact_two_three :
    ExactOrError [.ofString "calc", .ofString "2", .ofString "-", .ofString "-3"] (2 - -3) ↔
      (2 : Int).natAbs ≤ intMax ∧ (-3 : Int).natAbs ≤ intMax ∧ intMin ≤ 2 - -3 ∧ 2 - -3 ≤ intMax :=
  calc_exact (x := 2) (y := -3) (.unsigned (List.all_eq_true.1 rfl))
    (.negative (List.all_eq_true.1 rfl)) .minus

/-- `calc 2147483648 + 0` overflows while its first operand is read. -/
theorem calc_overflows : Decimal (CStr.ofString "2147483648").bytes 2147483648 ∧
    Decimal (CStr.ofString "0").bytes 0 ∧
    ¬ExactOrError [.ofString "calc", .ofString "2147483648", .ofString "+", .ofString "0"]
      (2147483648 + 0) := by
  refine ⟨.unsigned (List.all_eq_true.1 rfl), .unsigned (List.all_eq_true.1 rfl), ?_⟩
  rintro ⟨out, hout, _⟩
  cases hout

end ChipOS
