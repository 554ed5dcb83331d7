import ChipOS.CString
import ChipOS.Lib.CharArray
import Mathlib.Order.Bounds.Basic

namespace ChipOS
open CharArray (Chars Holds get get_eq holds_getD holds_head)
set_option autoImplicit true

/-- The inner loop of `strstr`, from the indices `h` and `n` on: does it use up the needle? -/
def usesUp (hsize nsize : Nat) (haystack needle : Chars) : Nat → Int → Int → Option Bool
  | 0, _, _ => none
  | room + 1, h, n => do
    let c ← get hsize haystack h
    let d ← get nsize needle n
    if c = d ∧ d ≠ 0 then usesUp hsize nsize haystack needle room (h + 1) (n + 1)
    else return d = 0

/-- The outer loop of `strstr`. -/
def strstrLoop (hsize nsize : Nat) (haystack needle : Chars) : Nat → Int → Option (Option Int)
  | 0, _ => none
  | room + 1, start => do
    let c ← get hsize haystack start
    if c = 0 then return none
    let found ← usesUp hsize nsize haystack needle nsize start 0
    if found then return some start
    strstrLoop hsize nsize haystack needle room (start + 1)

/-- `strstr` on arrays of these sizes: the index of what it returns, or `none` for `NULL`. Outside,
`none` is a read beyond an array. -/
def strstrIn (hsize nsize : Nat) (haystack needle : Chars) : Option (Option Int) := do
  let d ← get nsize needle 0
  if d = 0 then return some 0
  strstrLoop hsize nsize haystack needle hsize 0

section
variable {haystack needle : Chars} {s t : List UInt8} {hsize nsize : Nat}

theorem usesUp_eq {h n : Int} (hs : Holds haystack h s) (ht : Holds needle n t) (hh : 0 ≤ h)
    (hn : 0 ≤ n) (hsfit : h + s.length < hsize) (htfit : n + t.length < nsize)
    (hroom : t.length < room) :
    usesUp hsize nsize haystack needle room h n = some (t.isPrefixOf s) := by
  induction t generalizing s h n room with
  | nil =>
    obtain ⟨room, rfl⟩ := Nat.exists_eq_add_of_lt hroom
    rw [List.length_nil] at htfit
    rw [usesUp, get_eq hh (by omega), get_eq hn (by omega), (holds_head ht).2 rfl]
    simp
  | cons d t ih =>
    obtain ⟨room, rfl⟩ := Nat.exists_eq_add_of_lt hroom
    obtain ⟨hd, httail⟩ := ht.of_cons
    have hne : d ≠ 0 := fun hz => ht.no_nul (hz ▸ List.mem_cons_self)
    rw [List.length_cons] at htfit
    rw [usesUp, get_eq hh (by omega), get_eq hn (by omega), hd]
    cases s with
    | nil =>
      have hz : haystack h = 0 := (holds_head hs).2 rfl
      simp [hz, hne, hne.symm]
    | cons c s =>
      obtain ⟨hc, hstail⟩ := hs.of_cons
      rw [List.length_cons] at hsfit
      have hrec : usesUp hsize nsize haystack needle ((d :: t).length + room) (h + 1) (n + 1) =
          some (t.isPrefixOf s) :=
        ih hstail httail (by omega) (by omega) (by omega) (by omega) (by rw [List.length_cons]; omega)
      rw [hc, List.isPrefixOf_cons_cons]
      simp only [Option.bind_eq_bind, Option.bind_some]
      by_cases hcd : c = d
      · rw [if_pos ⟨hcd, hne⟩, hrec, hcd, beq_self_eq_true, Bool.true_and]
      · rw [if_neg fun hand => hcd hand.1, beq_eq_false_iff_ne.2 (Ne.symm hcd), Bool.false_and,
          decide_eq_false hne]
        rfl

theorem strstrLoop_eq {start : Int} (hs : Holds haystack start s) (ht : Holds needle 0 t)
    (h₀ : 0 ≤ start) (hsfit : start + s.length < hsize) (htfit : t.length < nsize)
    (hroom : s.length < room) :
    strstrLoop hsize nsize haystack needle room start =
      some ((strstrFrom t s).map fun rest => start + (s.length - rest.length : Nat)) := by
  induction s generalizing start room with
  | nil =>
    obtain ⟨room, rfl⟩ := Nat.exists_eq_add_of_lt hroom
    rw [List.length_nil] at hsfit
    rw [strstrLoop, get_eq h₀ (by omega), (holds_head hs).2 rfl]
    rfl
  | cons c s ih =>
    obtain ⟨room, rfl⟩ := Nat.exists_eq_add_of_lt hroom
    obtain ⟨hc, hstail⟩ := hs.of_cons
    have hne : c ≠ 0 := fun hz => hs.no_nul (hz ▸ List.mem_cons_self)
    have hmatch : usesUp hsize nsize haystack needle nsize start 0 = some (t.isPrefixOf (c :: s)) :=
      usesUp_eq hs ht h₀ (Int.le_refl 0) hsfit (by omega) htfit
    rw [List.length_cons] at hsfit
    rw [strstrLoop, get_eq h₀ (by omega), hc, strstrFrom]
    simp only [Option.bind_eq_bind, Option.bind_some, if_neg hne, hmatch]
    split
    · rw [Option.map_some, Nat.sub_self, Int.natCast_zero, Int.add_zero]
      rfl
    · rw [ih hstail (by omega) (by omega) (by rw [List.length_cons]; omega)]
      cases hfound : strstrFrom t s with
      | none => rfl
      | some rest =>
        have hle := (strstrFrom_suffix hfound).length_le
        rw [Option.map_some, Option.map_some, List.length_cons]
        congr 2
        omega

/-- `strstr` on the arrays is `strstr` on the strings in them. Both may end at their NULs. -/
theorem strstrIn_eq (hs : Holds haystack 0 s) (ht : Holds needle 0 t) (hsfit : s.length < hsize)
    (htfit : t.length < nsize) : strstrIn hsize nsize haystack needle =
      some ((strstr s t).map fun rest => ((s.length - rest.length : Nat) : Int)) := by
  rw [strstrIn, get_eq (Int.le_refl 0) (by omega), strstr]
  simp only [Option.bind_eq_bind, Option.bind_some, holds_head ht]
  split
  · rw [Option.map_some, Nat.sub_self]
    rfl
  · rw [strstrLoop_eq hs ht (Int.le_refl 0) (by omega) htfit hsfit]
    simp only [Int.zero_add]

theorem isLeast_zero (h : t <+: s) : IsLeast {k | t <+: s.drop k} 0 :=
  ⟨h, fun k _ => Nat.zero_le k⟩

theorem isLeast_cons {k : Nat} (hne : ¬t <+: c :: s) (h : IsLeast {k | t <+: s.drop k} k) :
    IsLeast {k | t <+: (c :: s).drop k} (k + 1) := by
  refine ⟨h.1, fun j hj => ?_⟩
  cases j with
  | zero => exact absurd hj hne
  | succ j => exact Nat.succ_le_succ (h.2 hj)

theorem isLeast_of_strstrFrom (h : strstrFrom t s = some rest) :
    IsLeast {k | t <+: s.drop k} (s.length - rest.length) := by
  induction s with
  | nil => cases h
  | cons c s ih =>
    rw [strstrFrom] at h
    split at h
    · next hp =>
      cases h
      rw [Nat.sub_self]
      exact isLeast_zero (List.isPrefixOf_iff_prefix.1 hp)
    · next hp =>
      have hle := (strstrFrom_suffix h).length_le
      rw [List.length_cons, Nat.succ_sub hle]
      exact isLeast_cons (mt List.isPrefixOf_iff_prefix.2 hp) (ih h)

theorem isLeast_of_strstr (h : strstr s t = some rest) :
    IsLeast {k | t <+: s.drop k} (s.length - rest.length) := by
  rw [strstr] at h
  split at h
  · next hnil =>
    cases h
    rw [Nat.sub_self, hnil]
    exact isLeast_zero List.nil_prefix
  · exact isLeast_of_strstrFrom h

theorem infix_iff_drop : t <:+: s ↔ ∃ k, t <+: s.drop k := by
  rw [List.infix_iff_prefix_suffix]
  constructor
  · rintro ⟨u, hp, hu⟩
    exact ⟨_, List.suffix_iff_eq_drop.1 hu ▸ hp⟩
  · rintro ⟨k, hp⟩
    exact ⟨_, hp, List.drop_suffix k s⟩

theorem strstr_eq_none_iff : strstr s t = none ↔ ∀ k, ¬t <+: s.drop k := by
  rw [← not_exists, ← infix_iff_drop, ← strstr_isSome, Bool.not_eq_true, Option.isSome_eq_false_iff,
    Option.isNone_iff_eq_none]

/-- `strstr` returns the first place from which the haystack goes on with the needle, or `NULL` if
there is none. It reads nothing beyond arrays that end at their NULs. -/
theorem strstr_first (hs : Holds haystack 0 s) (ht : Holds needle 0 t) (hsfit : s.length < hsize)
    (htfit : t.length < nsize) :
    ∃ r, strstrIn hsize nsize haystack needle = some r ∧
      (∀ i, r = some i ↔ ∃ k : Nat, i = k ∧ IsLeast {k | t <+: s.drop k} k) ∧
      (r = none ↔ ∀ k, ¬t <+: s.drop k) ∧ (t = [] → r = some 0) := by
  refine ⟨_, strstrIn_eq hs ht hsfit htfit, fun i => ?_, ?_, fun hnil => ?_⟩
  · rw [Option.map_eq_some_iff]
    constructor
    · rintro ⟨rest, hfound, rfl⟩
      exact ⟨_, rfl, isLeast_of_strstr hfound⟩
    · rintro ⟨k, rfl, hk⟩
      cases hfound : strstr s t with
      | none => exact absurd hk.1 (strstr_eq_none_iff.1 hfound k)
      | some rest => exact ⟨rest, rfl, congrArg _ ((isLeast_of_strstr hfound).unique hk)⟩
  · rw [Option.map_eq_none_iff, strstr_eq_none_iff]
  · rw [strstr, if_pos hnil, Option.map_some, Nat.sub_self]
    rfl

/-- The needle `aab` in `aaab`, in arrays that end at their NULs. -/
theorem strstr_first_aab : ∃ r,
    strstrIn 5 4 (fun i => (CStr.ofString "aaab").bytes[i.toNat]?.getD 0)
        (fun i => (CStr.ofString "aab").bytes[i.toNat]?.getD 0) = some r ∧
      (∀ i, r = some i ↔ ∃ k : Nat, i = k ∧
        IsLeast {k | (CStr.ofString "aab").bytes <+: (CStr.ofString "aaab").bytes.drop k} k) ∧
      (r = none ↔ ∀ k, ¬(CStr.ofString "aab").bytes <+: (CStr.ofString "aaab").bytes.drop k) ∧
      ((CStr.ofString "aab").bytes = [] → r = some 0) :=
  strstr_first (holds_getD (CStr.no_nul _)) (holds_getD (CStr.no_nul _)) (by decide) (by decide)

end

end ChipOS
