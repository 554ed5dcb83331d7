import Mathlib.Algebra.Order.Ring.Nat
import Mathlib.Data.List.TakeWhile
import Mathlib.Tactic.Common

namespace ChipOS
set_option autoImplicit true

/-- The bytes of a C string, up to its NUL. -/
structure CStr where
  bytes : List UInt8
  no_nul : (0 : UInt8) ∉ bytes
deriving DecidableEq

/-- A C string in an array of `n` bytes, its NUL included. -/
structure CBuf (n : Nat) extends CStr where
  fits : bytes.length < n
deriving DecidableEq

def CStr.ofString (s : String) : CStr where
  bytes := (s.toList.map Char.toUInt8).filter (· != 0)
  no_nul := by
    intro h
    cases (List.mem_filter.1 h).2

def strcmp : List UInt8 → List UInt8 → Int
  | [], [] => 0
  | [], b :: _ => -(b.toNat : Int)
  | a :: _, [] => a.toNat
  | a :: as, b :: bs => if a = b then strcmp as bs else (a.toNat : Int) - b.toNat

/-- `strncmp`, which compares at most `n` characters. -/
def strncmp : List UInt8 → List UInt8 → Nat → Int
  | _, _, 0 => 0
  | [], [], _ + 1 => 0
  | [], b :: _, _ + 1 => -(b.toNat : Int)
  | a :: _, [], _ + 1 => a.toNat
  | a :: as, b :: bs, n + 1 => if a = b then strncmp as bs n else (a.toNat : Int) - b.toNat

def strcpy (n : Nat) (s : CStr) : Option (CBuf n) :=
  if h : s.bytes.length < n then some ⟨s, h⟩ else none

def strcat (buf : CBuf n) (s : CStr) : Option (CBuf n) :=
  if h : buf.bytes.length + s.bytes.length < n then
    some ⟨⟨buf.bytes ++ s.bytes, fun hm => (List.mem_append.1 hm).elim buf.no_nul s.no_nul⟩,
      by rw [List.length_append]; exact h⟩
  else none

/-- The first loop of `strncpy`, `while (n-- && (*dest++ = *src++))`: what it stores, and what
is left in `n`. When the source is too long the last test takes `n` from 0 to its maximum. -/
def strncpyHead : Nat → List UInt8 → List UInt8 × Nat
  | 0, _ => ([], 2 ^ 64 - 1)
  | n + 1, [] => ([0], n)
  | n + 1, b :: bs => (b :: (strncpyHead n bs).1, (strncpyHead n bs).2)

/-- The bytes `strncpy` stores; the second loop pads with zeros. `none` if they do not fit. -/
def strncpy (capacity : Nat) (src : CStr) (n : Nat) : Option (List UInt8) :=
  let (out, rest) := strncpyHead n src.bytes
  if out.length + rest ≤ capacity then some (out ++ List.replicate rest 0) else none

/-- The string in an array whose last byte is set to NUL. -/
def CBuf.ofBytes (n : Nat) (hn : 0 < n) (bytes : List UInt8) : CBuf n where
  bytes := (bytes.take (n - 1)).takeWhile (· != 0)
  no_nul := by
    intro h
    cases List.mem_takeWhile_imp (p := (· != (0 : UInt8))) h
  fits := by
    have := (List.takeWhile_sublist (· != (0 : UInt8)) (l := bytes.take (n - 1))).length_le
    have := List.length_take_le (n - 1) bytes
    omega

theorem no_nul_nil : (0 : UInt8) ∉ [] := List.not_mem_nil

def CStr.empty : CStr := ⟨[], no_nul_nil⟩

def CStr.append (s t : CStr) : CStr where
  bytes := s.bytes ++ t.bytes
  no_nul := fun h => (List.mem_append.1 h).elim s.no_nul t.no_nul

def CStr.skip (s : CStr) (p : UInt8 → Bool) : CStr where
  bytes := s.bytes.dropWhile p
  no_nul := fun h => s.no_nul ((List.dropWhile_sublist p).mem h)

def CStr.span (s : CStr) (p : UInt8 → Bool) : CStr where
  bytes := s.bytes.takeWhile p
  no_nul := fun h => s.no_nul ((List.takeWhile_sublist p).mem h)

def CStr.next (s : CStr) : CStr where
  bytes := s.bytes.tail
  no_nul := fun h => s.no_nul (List.mem_of_mem_tail h)

/-- One call of `strtok` from the value of its static `next`: the token, and the new value. -/
def strtok (delim : CStr) : Option CStr → Option (CStr × Option CStr)
  | none => none
  | some next =>
    let start := next.skip (delim.bytes.contains ·)
    if start.bytes = [] then none
    else
      let rest := start.skip (!delim.bytes.contains ·)
      some (start.span (!delim.bytes.contains ·),
        if rest.bytes = [] then none else some rest.next)

/-- The outer loop of `strstr`: the rest of the haystack at the first place where the inner loop
uses up the needle. -/
def strstrFrom (needle : List UInt8) : List UInt8 → Option (List UInt8)
  | [] => none
  | c :: haystack =>
    if needle.isPrefixOf (c :: haystack) then some (c :: haystack) else strstrFrom needle haystack

def strstr (haystack needle : List UInt8) : Option (List UInt8) :=
  if needle = [] then some haystack else strstrFrom needle haystack

/-- The loop of `strrchr`: the string from the last `c` on. -/
def strrchrFrom (c : UInt8) : List UInt8 → Option (List UInt8)
  | [] => none
  | b :: str =>
    match strrchrFrom c str with
    | some last => some last
    | none => if b = c then some (b :: str) else none

def strrchr (str : List UInt8) (c : UInt8) : Option (List UInt8) :=
  if c = 0 then some [] else strrchrFrom c str

theorem strcmp_self (as : List UInt8) : strcmp as as = 0 := by
  induction as with
  | nil => rfl
  | cons a as ih => rw [strcmp, if_pos rfl, ih]

theorem toNat_ne_zero {a : UInt8} (h : 0 ∉ a :: as) : (a.toNat : Int) ≠ 0 := by
  intro ha
  have hz : a = 0 := UInt8.toNat_inj.1 (by rw [UInt8.toNat_zero]; omega)
  exact h (hz ▸ List.mem_cons_self)

theorem eq_of_strcmp (hs : (0 : UInt8) ∉ as) (ht : (0 : UInt8) ∉ bs) (h : strcmp as bs = 0) : as = bs := by
  induction as generalizing bs with
  | nil =>
    cases bs with
    | nil => rfl
    | cons b bs =>
      rw [strcmp] at h
      exact absurd (by omega) (toNat_ne_zero ht)
  | cons a as ih =>
    cases bs with
    | nil => exact absurd h (toNat_ne_zero hs)
    | cons b bs =>
      rw [strcmp] at h
      split at h
      · next hab =>
        rw [hab, ih (fun hm => hs (List.mem_cons_of_mem _ hm))
          (fun hm => ht (List.mem_cons_of_mem _ hm)) h]
      · next hab => exact absurd (UInt8.toNat_inj.1 (by omega)) hab

theorem CStr.ext_bytes {s t : CStr} (h : s.bytes = t.bytes) : s = t := by
  cases s
  cases t
  cases h
  rfl

theorem strcmp_eq_zero {s t : CStr} : strcmp s.bytes t.bytes = 0 ↔ s = t := by
  constructor
  · intro h
    exact CStr.ext_bytes (eq_of_strcmp s.no_nul t.no_nul h)
  · intro h
    rw [h]
    exact strcmp_self _

theorem CStr.append_empty (s : CStr) : s.append .empty = s :=
  CStr.ext_bytes (List.append_nil s.bytes)

theorem CStr.append_assoc (s t u : CStr) : (s.append t).append u = s.append (t.append u) :=
  CStr.ext_bytes (List.append_assoc s.bytes t.bytes u.bytes)

theorem strcat_eq (buf : CBuf n) (s : CStr) : strcat buf s = strcpy n (buf.toCStr.append s) := by
  have hlen : (buf.toCStr.append s).bytes.length = buf.bytes.length + s.bytes.length :=
    List.length_append
  by_cases h : buf.bytes.length + s.bytes.length < n
  · rw [strcat, strcpy, dif_pos h, dif_pos (hlen ▸ h)]
    rfl
  · rw [strcat, strcpy, dif_neg h, dif_neg (hlen ▸ h)]

theorem strncpyHead_short (h : as.length < n) :
    strncpyHead n as = (as ++ [0], n - as.length - 1) := by
  induction as generalizing n with
  | nil =>
    cases n with
    | zero => cases h
    | succ n => rfl
  | cons a as ih =>
    cases n with
    | zero => cases h
    | succ n =>
      rw [List.length_cons] at h
      rw [strncpyHead, ih (by omega), List.length_cons]
      simp only [List.cons_append, Prod.mk.injEq, true_and]
      omega

theorem strncpyHead_long (h : n ≤ as.length) :
    strncpyHead n as = (as.take n, 2 ^ 64 - 1) := by
  induction as generalizing n with
  | nil =>
    cases Nat.le_zero.1 h
    rfl
  | cons a as ih =>
    cases n with
    | zero => rfl
    | succ n =>
      rw [List.length_cons] at h
      rw [strncpyHead, ih (by omega), List.take_succ_cons]

theorem strncpy_short {s : CStr} (h : s.bytes.length < n) (hn : n ≤ k) :
    strncpy k s n = some (s.bytes ++ List.replicate (n - s.bytes.length) 0) := by
  have hpad : [0] ++ List.replicate (n - s.bytes.length - 1) (0 : UInt8) =
      List.replicate (n - s.bytes.length) 0 := by
    rw [← List.replicate_one, List.replicate_append_replicate]
    congr 1
    omega
  rw [strncpy, strncpyHead_short h]
  simp only
  rw [if_pos (by rw [List.length_append, List.length_singleton]; omega), List.append_assoc, hpad]

/-- A source without room for its NUL makes `strncpy` run far past the end. -/
theorem strncpy_long {s : CStr} (h : n ≤ s.bytes.length) (hk : k < 2 ^ 64 - 1) :
    strncpy k s n = none := by
  rw [strncpy, strncpyHead_long h]
  exact if_neg (by omega)

theorem CBuf.ofBytes_pad {s : CStr} (hn : 0 < n) (h : s.bytes.length < n) :
    (CBuf.ofBytes n hn (s.bytes ++ List.replicate k 0)).toCStr = s := by
  apply CStr.ext_bytes
  have htake : (s.bytes ++ List.replicate k 0).take (n - 1) =
      s.bytes ++ (List.replicate k 0).take (n - 1 - s.bytes.length) := by
    rw [List.take_append, List.take_of_length_le (by omega)]
  rw [CBuf.ofBytes]
  simp only
  rw [htake, List.takeWhile_append_of_pos]
  · rw [List.take_replicate]
    cases min (n - 1 - s.bytes.length) k with
    | zero => exact List.append_nil _
    | succ j => exact List.append_nil _
  · intro b hb
    rw [bne_iff_ne]
    rintro rfl
    exact s.no_nul hb

theorem strstrFrom_suffix (h : strstrFrom needle haystack = some rest) : rest <:+ haystack := by
  induction haystack with
  | nil => cases h
  | cons c haystack ih =>
    rw [strstrFrom] at h
    split at h
    · cases h
      exact List.suffix_refl _
    · exact (ih h).trans (List.suffix_cons c haystack)

theorem strstr_suffix (h : strstr haystack needle = some rest) : rest <:+ haystack := by
  rw [strstr] at h
  split at h
  · cases h
    exact List.suffix_refl _
  · exact strstrFrom_suffix h

/-- `strstr` finds a needle exactly if the haystack contains it. -/
theorem strstr_isSome : (strstr haystack needle).isSome = true ↔ needle <:+: haystack := by
  rw [strstr]
  split
  · next hnil =>
    subst hnil
    exact iff_of_true rfl (List.nil_infix)
  next hne =>
  induction haystack with
  | nil => exact iff_of_false Bool.false_ne_true fun h => hne (List.infix_nil.1 h)
  | cons c haystack ih =>
    rw [strstrFrom, List.infix_cons_iff, ← ih, ← List.isPrefixOf_iff_prefix]
    split
    · next hp => exact iff_of_true rfl (.inl hp)
    · next hp => exact (or_iff_right hp).symm

end ChipOS
