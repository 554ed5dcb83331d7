import ChipOS.Fs.Filesystem
import ChipOS.Lib.CharArray

namespace ChipOS
open CharArray (Chars Holds get get_eq holds_getD set set_eq set_eq_none storeAll storeAll_append
  storeAll_apply)
set_option autoImplicit true

/-- `while (n-- && (*dest++ = *src++))`, with the indices of both pointers: the array, where `dest`
is, and `n`. The test that finds `n` at 0 leaves its largest value in it. -/
def strncpyCopy (dsize ssize : Nat) (source : Chars) (dest : Chars) (d s : Int) :
    Nat → Option (Chars × Int × Nat)
  | 0 => some (dest, d, 2 ^ 64 - 1)
  | n + 1 => do
    let c ← get ssize source s
    let dest ← set dsize dest d c
    if c = 0 then return (dest, d + 1, n)
    strncpyCopy dsize ssize source dest (d + 1) (s + 1) n

/-- `while (n--) *dest++ = 0` -/
def strncpyPad (dsize : Nat) (dest : Chars) (d : Int) : Nat → Option Chars
  | 0 => some dest
  | n + 1 => do
    let dest ← set dsize dest d 0
    strncpyPad dsize dest (d + 1) n

/-- `strncpy` between arrays of these sizes that do not overlap. -/
def strncpyIn (dsize ssize : Nat) (dest source : Chars) (n : Nat) : Option Chars := do
  let (dest, d, n) ← strncpyCopy dsize ssize source dest 0 0 n
  strncpyPad dsize dest d n

/-- `strncpy` returns from every array with room for `n` bytes, the first `n` bytes are then those
of the source, with zeros behind its end, and the others are as they were. -/
def StrncpyExact (ssize : Nat) (source : Chars) (s : CStr) (n : Nat) : Prop :=
  ∀ dsize dest, n ≤ dsize → ∃ out, strncpyIn dsize ssize dest source n = some out ∧
    ∀ x : Int, out x = if 0 ≤ x ∧ x < n then s.bytes[x.toNat]?.getD 0 else dest x

section
variable {dest source : Chars} {d : Int} {dsize ssize n : Nat}

theorem strncpyCopy_eq {i : Int} (hs : Holds source i s) (hi : 0 ≤ i) (hfit : i + s.length < ssize)
    (h₀ : 0 ≤ d) (hd : d ≤ dsize) : strncpyCopy dsize ssize source dest d i n =
      if d + (strncpyHead n s).1.length ≤ dsize then
        some (storeAll dest d (strncpyHead n s).1, d + (strncpyHead n s).1.length,
          (strncpyHead n s).2)
      else none := by
  induction n generalizing dest d i s with
  | zero =>
    rw [strncpyCopy, strncpyHead, List.length_nil, Int.natCast_zero, Int.add_zero, if_pos hd]
    rfl
  | succ n ih =>
    rw [strncpyCopy, get_eq hi (by omega)]
    simp only [Option.bind_eq_bind, Option.bind_some]
    rcases Int.lt_or_le d dsize with hroom | hfull
    swap
    · -- the array ends here, and a byte is still to be stored
      have hpos : 0 < (strncpyHead (n + 1) s).1.length := by
        cases s with
        | nil => exact Nat.zero_lt_one
        | cons c s => exact Nat.zero_lt_succ _
      rw [set_eq_none hfull, if_neg (by omega)]
      rfl
    rw [set_eq h₀ hroom, Option.bind_some]
    cases s with
    | nil =>
      rw [(CharArray.holds_head hs).2 rfl, if_pos rfl, strncpyHead, List.length_singleton,
        if_pos (by omega)]
      rfl
    | cons c s =>
      obtain ⟨hc, htail⟩ := hs.of_cons
      have hne : c ≠ 0 := fun hz => hs.no_nul (hz ▸ List.mem_cons_self)
      rw [List.length_cons] at hfit
      rw [hc, if_neg hne, ih htail (by omega) (by omega) (by omega) (by omega), strncpyHead]
      simp only [List.length_cons, storeAll]
      have hsum : d + 1 + ((strncpyHead n s).1.length : Int) = d + ((strncpyHead n s).1.length + 1 : Nat) := by
        omega
      rw [hsum]

theorem strncpyPad_eq (h₀ : 0 ≤ d) (hd : d ≤ dsize) : strncpyPad dsize dest d n =
    if d + n ≤ dsize then some (storeAll dest d (List.replicate n 0)) else none := by
  induction n generalizing dest d with
  | zero =>
    rw [Int.natCast_zero, Int.add_zero, if_pos hd]
    rfl
  | succ n ih =>
    rw [strncpyPad]
    rcases Int.lt_or_le d dsize with hroom | hfull
    · rw [set_eq h₀ hroom, Option.bind_eq_bind, Option.bind_some, ih (by omega) (by omega)]
      have hsum : d + 1 + (n : Int) = d + (n + 1 : Nat) := by omega
      rw [hsum]
      rfl
    · rw [set_eq_none hfull, if_neg (by omega)]
      rfl

theorem strncpyIn_eq {s : CStr} (hs : Holds source 0 s.bytes) (hfit : s.bytes.length < ssize) :
    strncpyIn dsize ssize dest source n = (strncpy dsize s n).map (storeAll dest 0) := by
  rw [strncpyIn, strncpyCopy_eq hs (Int.le_refl 0) (by omega) (Int.le_refl 0) (Int.natCast_nonneg _),
    strncpy]
  by_cases hhead : (strncpyHead n s.bytes).1.length ≤ dsize
  · rw [if_pos (by omega), Option.bind_eq_bind, Option.bind_some]
    simp only
    rw [strncpyPad_eq (by omega) (by omega)]
    by_cases hrest : (strncpyHead n s.bytes).1.length + (strncpyHead n s.bytes).2 ≤ dsize
    · rw [if_pos (by omega), if_pos hrest, Option.map_some, storeAll_append]
    · rw [if_neg (by omega), if_neg hrest]
      rfl
  · rw [if_neg (by omega)]
    simp only
    rw [if_neg (by omega)]
    rfl

/-- A source that is too long for `n` bytes is not copied to exactly `n` bytes. -/
theorem strncpy_none {s : CStr} (h : n ≤ s.bytes.length) : strncpy n s n = none := by
  rw [strncpy, strncpyHead_long h]
  simp only
  rw [List.length_take_of_le h, if_neg (by omega)]

theorem getD_pad (as : List UInt8) {k j : Nat} (hk : j < as.length + k) :
    (as ++ List.replicate k 0)[j]?.getD 0 = as[j]?.getD 0 := by
  by_cases hj : j < as.length
  · rw [List.getElem?_append_left hj]
  · rw [List.getElem?_append_right (Nat.le_of_not_lt hj), List.getElem?_replicate_of_lt (by omega),
      List.getElem?_eq_none (Nat.le_of_not_lt hj)]
    rfl

/-- `strncpy` writes exactly `n` bytes if the NUL of the source is among the first `n` bytes of it,
and only then. -/
theorem strncpy_exact {s : CStr} (hs : Holds source 0 s.bytes) (hfit : s.bytes.length < ssize)
    (n : Nat) : StrncpyExact ssize source s n ↔ s.bytes.length < n := by
  constructor
  · intro hexact
    apply Nat.lt_of_not_le
    intro hle
    obtain ⟨out, hout, _⟩ := hexact n source (Nat.le_refl n)
    rw [strncpyIn_eq hs hfit, strncpy_none hle] at hout
    cases hout
  · intro hlt dsize dest hn
    have hlen : (s.bytes ++ List.replicate (n - s.bytes.length) 0).length = n := by
      rw [List.length_append, List.length_replicate, Nat.add_sub_of_le (Nat.le_of_lt hlt)]
    refine ⟨storeAll dest 0 (s.bytes ++ List.replicate (n - s.bytes.length) 0), ?_, fun x => ?_⟩
    · rw [strncpyIn_eq hs hfit, strncpy_short hlt hn, Option.map_some]
    rw [storeAll_apply, hlen, Int.zero_add, Int.sub_zero]
    by_cases hx : 0 ≤ x ∧ x < n
    · rw [if_pos hx, if_pos hx]
      exact getD_pad _ (by omega)
    · rw [if_neg hx, if_neg hx]

/-- The `n` bytes for a source of three characters. -/
theorem strncpy_exact_abc :
    StrncpyExact 4 (fun i => (CStr.ofString "abc").bytes[i.toNat]?.getD 0) (.ofString "abc") 5 ↔
      (CStr.ofString "abc").bytes.length < 5 :=
  strncpy_exact (holds_getD (CStr.no_nul _)) (by decide) 5

def fullName : CStr where
  bytes := List.replicate 63 97
  no_nul := by
    intro h
    cases List.eq_of_mem_replicate h

/-- `fs_create_file` copies 63 bytes of a name to an array of 64, and then zeros far past its end. -/
theorem strncpy_overruns :
    ¬StrncpyExact 64 (fun i => fullName.bytes[i.toNat]?.getD 0) fullName 63 ∧
    strncpyIn 64 64 (fun _ => 0) (fun i => fullName.bytes[i.toNat]?.getD 0) 63 = none ∧
    fsCreateFile (fsInit 0) fullName .regular = .error (.outOfRange .entryName) := by
  have hs : Holds (fun i => fullName.bytes[i.toNat]?.getD 0) 0 fullName.bytes :=
    holds_getD fullName.no_nul
  refine ⟨fun hexact => ?_, ?_, rfl⟩
  · obtain ⟨out, hout, _⟩ := hexact 63 (fun _ => 0) (Nat.le_refl 63)
    rw [strncpyIn_eq hs (by decide), strncpy_none (by decide)] at hout
    cases hout
  · rw [strncpyIn_eq hs (by decide), strncpy_long (by decide) (by decide)]
    rfl

end

end ChipOS
