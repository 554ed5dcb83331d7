import Mathlib.Data.List.TakeWhile
import Mathlib.Logic.Function.Basic
import Mathlib.Tactic.Common

namespace CharArray
set_option autoImplicit true

/-- The contents of a `char` array. The indices from 0 up to its size belong to it. -/
abbrev Chars := Int → UInt8

def get (n : Nat) (a : Chars) (i : Int) : Option UInt8 :=
  if 0 ≤ i ∧ i < n then some (a i) else none

def set (n : Nat) (a : Chars) (i : Int) (c : UInt8) : Option Chars :=
  if 0 ≤ i ∧ i < n then some (Function.update a i c) else none

/-- The loop of `strlen` at the index `len`, with `room` bytes of the array left. -/
def strlenFrom (a : Chars) : Nat → Int → Option Int
  | 0, _ => none
  | room + 1, len => if a len = 0 then some len else strlenFrom a room (len + 1)

/-- `strlen` of an array of `n` bytes, `none` if it has no NUL. -/
def strlen (n : Nat) (a : Chars) : Option Int := strlenFrom a n 0

def strcpyFrom (n m : Nat) (src : Chars) : Nat → Chars → Int → Int → Option Chars
  | 0, _, _, _ => none
  | room + 1, dst, i, j => do
    let c ← get m src j
    let dst ← set n dst i c
    if c = 0 then return dst else strcpyFrom n m src room dst (i + 1) (j + 1)

/-- `strcpy(dst + i, src + j)` between arrays of `n` and `m` bytes that do not overlap. -/
def strcpy (n : Nat) (dst : Chars) (i : Int) (m : Nat) (src : Chars) (j : Int) : Option Chars :=
  strcpyFrom n m src m dst i j

/-- `for (i = low + k; i > low; i--) a[i] = a[i - 1]` -/
def shiftRight (n : Nat) (low : Int) : Nat → Chars → Option Chars
  | 0, a => some a
  | k + 1, a => do
    let c ← get n a (low + k)
    let a ← set n a (low + k + 1) c
    shiftRight n low k a

/-- `for (i = low; i < low + k; i++) a[i] = a[i + 1]` -/
def shiftLeft (n : Nat) : Nat → Int → Chars → Option Chars
  | 0, _, a => some a
  | k + 1, low, a => do
    let c ← get n a (low + 1)
    let a ← set n a low c
    shiftLeft n k (low + 1) a

/-- `while (a[i] && p(a[i])) i++`, with `room` bytes of the array left. -/
def scan (n : Nat) (p : UInt8 → Bool) (a : Chars) : Nat → Int → Option Int
  | 0, _ => none
  | room + 1, i => do
    let c ← get n a i
    if c ≠ 0 ∧ p c then scan n p a room (i + 1) else return i

def bytes (a : Chars) (k : Nat) : List UInt8 := (List.range k).map fun (i : Nat) => a i

/-- The string at the start of an array of `n` bytes. -/
def text (n : Nat) (a : Chars) : List UInt8 := (bytes a n).takeWhile (· != 0)

def storeAll (dest : Chars) (d : Int) : List UInt8 → Chars
  | [] => dest
  | c :: cs => storeAll (Function.update dest d c) (d + 1) cs

/-- The array holds the string `s` and its NUL from the index `i` on. -/
structure Holds (a : Chars) (i : Int) (s : List UInt8) : Prop where
  no_nul : 0 ∉ s
  char : ∀ k : Nat, k ≤ s.length → a (i + k) = s[k]?.getD 0

theorem holds_getD (h : 0 ∉ s) : Holds (fun i => s[i.toNat]?.getD 0) 0 s :=
  ⟨h, fun k _ => by rw [Int.zero_add, Int.toNat_natCast]⟩

theorem get_eq {a : Chars} {i : Int} (h₀ : 0 ≤ i) (hn : i < (n : Nat)) : get n a i = some (a i) := if_pos ⟨h₀, hn⟩

theorem set_eq {a : Chars} {i : Int} (h₀ : 0 ≤ i) (hn : i < (n : Nat)) :
    set n a i c = some (Function.update a i c) :=
  if_pos ⟨h₀, hn⟩

theorem set_eq_none {a : Chars} {i : Int} (h : (n : Nat) ≤ i) : set n a i c = none :=
  if_neg fun hi => absurd hi.2 (Int.not_lt.2 h)

theorem get_eq_some {a : Chars} {i : Int} : get n a i = some c ↔ (0 ≤ i ∧ i < n) ∧ c = a i := by
  rw [get, Option.ite_none_right_eq_some, Option.some.injEq, eq_comm (a := a i)]

theorem set_eq_some {a : Chars} {i : Int} :
    set n a i c = some b ↔ (0 ≤ i ∧ i < n) ∧ b = Function.update a i c := by
  rw [set, Option.ite_none_right_eq_some, Option.some.injEq, eq_comm (a := Function.update a i c)]

section
variable {a : Chars}

theorem Holds.nul (h : Holds a i s) : a (i + s.length) = 0 := by
  rw [h.char _ (Nat.le_refl _), List.getElem?_eq_none (Nat.le_refl _), Option.getD_none]

theorem Holds.ne_zero (h : Holds a i s) {k : Nat} (hk : k < s.length) : a (i + k) ≠ 0 := by
  rw [h.char k (Nat.le_of_lt hk), List.getElem?_eq_getElem hk, Option.getD_some]
  intro hz
  exact h.no_nul (hz ▸ List.getElem_mem hk)

theorem Holds.drop (h : Holds a i s) {k : Nat} (hk : k ≤ s.length) : Holds a (i + k) (s.drop k) := by
  refine ⟨fun hm => h.no_nul (List.mem_of_mem_drop hm), fun j hj => ?_⟩
  rw [List.length_drop] at hj
  rw [List.getElem?_drop, ← h.char (k + j) (by omega)]
  congr 1
  omega

theorem Holds.of_cons {i : Int} (h : Holds a i (c :: s)) : a i = c ∧ Holds a (i + 1) s := by
  have hc := h.char 0 (Nat.zero_le _)
  rw [Int.natCast_zero, Int.add_zero] at hc
  exact ⟨hc, h.drop (k := 1) (by rw [List.length_cons]; omega)⟩

theorem storeAll_append {d : Int} (cs ds : List UInt8) :
    storeAll a d (cs ++ ds) = storeAll (storeAll a d cs) (d + cs.length) ds := by
  induction cs generalizing a d with
  | nil => rw [List.length_nil, Int.natCast_zero, Int.add_zero]; rfl
  | cons c cs ih =>
    rw [List.cons_append, storeAll, ih, List.length_cons]
    congr 1
    omega

theorem storeAll_apply {d : Int} (cs : List UInt8) (x : Int) : storeAll a d cs x =
    if d ≤ x ∧ x < d + cs.length then cs[(x - d).toNat]?.getD 0 else a x := by
  induction cs generalizing a d with
  | nil =>
    rw [List.length_nil, if_neg (by omega)]
    rfl
  | cons c cs ih =>
    rw [storeAll, ih, List.length_cons]
    by_cases hrest : d + 1 ≤ x ∧ x < d + 1 + cs.length
    · obtain ⟨k, hk⟩ : ∃ k : Nat, (x - d).toNat = k + 1 := ⟨(x - d).toNat - 1, by omega⟩
      rw [if_pos hrest, if_pos (by omega), hk, List.getElem?_cons_succ]
      congr 2
      omega
    · rw [if_neg hrest]
      by_cases hx : x = d
      · rw [if_pos (by omega), hx, Function.update_self, Int.sub_self]
        rfl
      · rw [if_neg (by omega), Function.update_of_ne hx]

theorem holds_head {i : Int} (h : Holds a i s) : a i = 0 ↔ s = [] := by
  cases s with
  | nil => exact iff_of_true (Int.add_zero i ▸ h.nul) rfl
  | cons c s =>
    have hne : c ≠ 0 := fun hz => h.no_nul (hz ▸ List.mem_cons_self)
    rw [h.of_cons.1]
    exact iff_of_false hne (List.cons_ne_nil c s)

theorem strlenFrom_eq (h : Holds a 0 s) {k : Nat} (hk : k ≤ s.length) (hr : s.length < k + room) :
    strlenFrom a room k = some (s.length : Int) := by
  induction room generalizing k with
  | zero => omega
  | succ room ih =>
    rw [strlenFrom]
    rcases Nat.lt_or_eq_of_le hk with hlt | rfl
    · have hne := h.ne_zero hlt
      rw [Int.zero_add] at hne
      rw [if_neg hne]
      exact ih (k := k + 1) hlt (by omega)
    · have hz := h.nul
      rw [Int.zero_add] at hz
      rw [if_pos hz]

theorem strlen_eq (h : Holds a 0 s) (hn : s.length < n) : strlen n a = some (s.length : Int) :=
  strlenFrom_eq h (Nat.zero_le _) (by omega)

theorem strcpyFrom_eq {dst src : Chars} {i j : Int} (h : Holds src j s) (hj : 0 ≤ j) (hm : j + s.length < (m : Nat))
    (hi : 0 ≤ i) (hn : i + s.length < (n : Nat)) (hr : s.length < room) :
    ∃ out, strcpyFrom n m src room dst i j = some out ∧ Holds out i s ∧
      ∀ x, x < i ∨ i + s.length < x → out x = dst x := by
  induction s generalizing room dst i j with
  | nil =>
    obtain ⟨room, rfl⟩ := Nat.exists_eq_add_of_lt hr
    have hz : src j = 0 := Int.add_zero j ▸ h.nul
    rw [List.length_nil] at hm hn
    refine ⟨Function.update dst i 0, ?_, ⟨List.not_mem_nil, ?_⟩, ?_⟩
    · rw [strcpyFrom, get_eq hj (by omega), hz]
      simp only [Option.bind_eq_bind, Option.bind_some, set_eq hi (show i < n by omega),
        Option.pure_def, ↓reduceIte]
    · intro k hk
      cases Nat.le_zero.1 hk
      rw [Int.natCast_zero, Int.add_zero, Function.update_self]
      rfl
    · intro x hx
      rw [List.length_nil] at hx
      exact Function.update_of_ne (by omega) _ _
  | cons c s ih =>
    obtain ⟨room, rfl⟩ := Nat.exists_eq_add_of_lt hr
    rw [List.length_cons] at hm hn
    obtain ⟨hc, htail⟩ := h.of_cons
    have hne : c ≠ 0 := fun hz => h.no_nul (hz ▸ List.mem_cons_self)
    have hrec : ∃ out, strcpyFrom n m src (s.length + 1 + room) (Function.update dst i c) (i + 1)
        (j + 1) = some out ∧ Holds out (i + 1) s ∧
        ∀ x, x < i + 1 ∨ i + 1 + s.length < x → out x = Function.update dst i c x :=
      ih htail (by omega) (by omega) (by omega) (by omega) (by omega)
    obtain ⟨out, ho, hh, hout⟩ := hrec
    refine ⟨out, ?_, ⟨h.no_nul, ?_⟩, ?_⟩
    · rw [List.length_cons, strcpyFrom, get_eq hj (by omega), hc]
      simp only [Option.bind_eq_bind, Option.bind_some, set_eq hi (show i < n by omega), hne,
        ↓reduceIte]
      exact ho
    · intro k hk
      cases k with
      | zero =>
        rw [Int.natCast_zero, Int.add_zero, hout i (.inl (by omega)), Function.update_self]
        rfl
      | succ k =>
        rw [List.length_cons] at hk
        rw [List.getElem?_cons_succ, ← hh.char k (by omega)]
        congr 1
        omega
    · intro x hx
      rw [List.length_cons] at hx
      rw [hout x (by omega), Function.update_of_ne (by omega)]

theorem strcpy_eq {dst src : Chars} {i j : Int} (h : Holds src j s) (hj : 0 ≤ j) (hm : j + s.length < (m : Nat))
    (hi : 0 ≤ i) (hn : i + s.length < (n : Nat)) :
    ∃ out, strcpy n dst i m src j = some out ∧ Holds out i s ∧
      ∀ x, x < i ∨ i + s.length < x → out x = dst x :=
  strcpyFrom_eq h hj hm hi hn (by omega)

theorem shiftRight_eq {low : Int} {k : Nat} (h₀ : 0 ≤ low) (hn : low + k < (n : Nat)) :
    ∃ b, shiftRight n low k a = some b ∧
      ∀ i, b i = if low < i ∧ i ≤ low + k then a (i - 1) else a i := by
  induction k generalizing a with
  | zero =>
    refine ⟨a, rfl, fun i => ?_⟩
    rw [if_neg (by omega)]
  | succ k ih =>
    obtain ⟨b, hb, hi⟩ := ih (a := Function.update a (low + k + 1) (a (low + k))) (by omega)
    refine ⟨b, ?_, fun i => ?_⟩
    · rw [shiftRight, get_eq (by omega) (by omega), Option.bind_eq_bind, Option.bind_some,
        set_eq (by omega) (by omega)]
      exact hb
    · rw [hi i]
      by_cases hin : low < i ∧ i ≤ low + k
      · rw [if_pos hin, if_pos (by omega), Function.update_of_ne (by omega)]
      · rw [if_neg hin]
        by_cases hlast : i = low + k + 1
        · rw [if_pos (by omega), hlast, Function.update_self]
          congr 1
          omega
        · rw [if_neg (by omega), Function.update_of_ne hlast]

theorem shiftLeft_eq {low : Int} {k : Nat} (h₀ : 0 ≤ low) (hn : low + k < (n : Nat)) :
    ∃ b, shiftLeft n k low a = some b ∧
      ∀ i, b i = if low ≤ i ∧ i < low + k then a (i + 1) else a i := by
  induction k generalizing a low with
  | zero =>
    refine ⟨a, rfl, fun i => ?_⟩
    rw [if_neg (by omega)]
  | succ k ih =>
    have hrec : ∃ b, shiftLeft n k (low + 1) (Function.update a low (a (low + 1))) = some b ∧
        ∀ i, b i = if low + 1 ≤ i ∧ i < low + 1 + k then
          Function.update a low (a (low + 1)) (i + 1) else Function.update a low (a (low + 1)) i :=
      ih (by omega) (by omega)
    obtain ⟨b, hb, hi⟩ := hrec
    refine ⟨b, ?_, fun i => ?_⟩
    · rw [shiftLeft, get_eq (by omega) (by omega), Option.bind_eq_bind, Option.bind_some,
        set_eq (by omega) (by omega)]
      exact hb
    · rw [hi i]
      by_cases hin : low + 1 ≤ i ∧ i < low + 1 + k
      · rw [if_pos hin, if_pos (by omega), Function.update_of_ne (by omega)]
      · rw [if_neg hin]
        by_cases hfirst : i = low
        · rw [if_pos (by omega), hfirst, Function.update_self]
        · rw [if_neg (by omega), Function.update_of_ne hfirst]

theorem low_of_shiftLeft {low : Int} (h : shiftLeft n (k + 1) low a = some b) : 0 ≤ low := by
  obtain ⟨c, _, h⟩ := Option.bind_eq_some_iff.1 h
  obtain ⟨a', ha, _⟩ := Option.bind_eq_some_iff.1 h
  exact (set_eq_some.1 ha).1.1

theorem Holds.insert {b : Chars} {col : Nat} (h : Holds a 0 s) (hc : col ≤ s.length) (hne : c ≠ 0)
    (hb : ∀ i : Int, b i = if i = s.length + 1 then 0 else if i = col then c
      else if col < i ∧ i ≤ s.length then a (i - 1) else a i) :
    Holds b 0 (s.take col ++ c :: s.drop col) := by
  have htake : (s.take col).length = col := List.length_take_of_le hc
  refine ⟨fun hm => ?_, fun k hk => ?_⟩
  · rcases List.mem_append.1 hm with hm | hm
    · exact h.no_nul (List.mem_of_mem_take hm)
    · rcases List.mem_cons.1 hm with hz | hm
      · exact hne hz.symm
      · exact h.no_nul (List.mem_of_mem_drop hm)
  · rw [List.length_append, List.length_cons, List.length_drop, htake] at hk
    rw [hb, Int.zero_add]
    rcases Nat.lt_trichotomy k col with hlt | rfl | hgt
    · rw [if_neg (by omega), if_neg (by omega), if_neg (by omega),
        List.getElem?_append_left (by omega), List.getElem?_take_of_lt hlt, ← h.char k (by omega),
        Int.zero_add]
    · rw [if_neg (by omega), if_pos rfl, List.getElem?_append_right (by omega), htake,
        Nat.sub_self, List.getElem?_cons_zero, Option.getD_some]
    · obtain ⟨j, rfl⟩ := Nat.exists_eq_add_of_lt hgt
      have hget : (s.take col ++ c :: s.drop col)[col + j + 1]? = s[col + j]? := by
        rw [List.getElem?_append_right (by omega), htake, show col + j + 1 - col = j + 1 by omega,
          List.getElem?_cons_succ, List.getElem?_drop]
      have ha : a (col + j : Nat) = s[col + j]?.getD 0 := by
        rw [← h.char _ (by omega), Int.zero_add]
      rw [hget, ← ha]
      by_cases hlast : col + j = s.length
      · rw [if_pos (by omega), ← Int.zero_add ((col + j : Nat) : Int), hlast, h.nul]
      · rw [if_neg (by omega), if_neg (by omega), if_pos (by omega)]
        congr 1
        omega

theorem Holds.erase {b : Chars} {col : Nat} (h : Holds a 0 s) (hc : col < s.length)
    (hb : ∀ i : Int, b i = if col ≤ i ∧ i < s.length then a (i + 1) else a i) :
    Holds b 0 (s.eraseIdx col) := by
  refine ⟨fun hm => h.no_nul (List.mem_of_mem_eraseIdx hm), fun k hk => ?_⟩
  rw [List.length_eraseIdx_of_lt hc] at hk
  rw [hb, Int.zero_add, List.getElem?_eraseIdx]
  by_cases hlt : k < col
  · rw [if_neg (by omega), if_pos hlt, ← h.char k (by omega), Int.zero_add]
  · rw [if_pos (by omega), if_neg hlt, ← h.char (k + 1) (by omega), Int.zero_add]
    rfl

theorem Holds.cut {i : Int} {k : Nat} (h : Holds a i s) (hk : k ≤ s.length) :
    Holds (Function.update a (i + k) 0) i (s.take k) := by
  refine ⟨fun hm => h.no_nul (List.mem_of_mem_take hm), fun j hj => ?_⟩
  rw [List.length_take_of_le hk] at hj
  rcases Nat.lt_or_eq_of_le hj with hlt | rfl
  · rw [Function.update_of_ne (by omega), List.getElem?_take_of_lt hlt, h.char j (by omega)]
  · rw [Function.update_self, List.getElem?_take_eq_none (Nat.le_refl _), Option.getD_none]

theorem Holds.truncate {col : Nat} (h : Holds a 0 s) (hc : col ≤ s.length) :
    Holds (Function.update a col 0) 0 (s.take col) := by
  have hcut := h.cut hc
  rwa [Int.zero_add] at hcut

theorem Holds.congr {b : Chars} {i : Int} (h : Holds a i s)
    (hb : ∀ x, i ≤ x → x ≤ i + s.length → b x = a x) : Holds b i s :=
  ⟨h.no_nul, fun k hk => by rw [hb _ (by omega) (by omega), h.char k hk]⟩

theorem Holds.update_before {i x : Int} (h : Holds a i s) (hx : x < i) :
    Holds (Function.update a x c) i s :=
  h.congr fun _ _ _ => Function.update_of_ne (by omega) _ _

theorem Holds.shift {i : Int} (h : Holds a i s) : Holds (fun k => a (i + k)) 0 s :=
  ⟨h.no_nul, fun k hk => by rw [Int.zero_add, h.char k hk]⟩

theorem Holds.dropWhile {i : Int} (h : Holds a i s) :
    Holds a (i + (s.takeWhile p).length) (s.dropWhile p) := by
  have hsplit : s.drop (s.takeWhile p).length = s.dropWhile p :=
    calc s.drop (s.takeWhile p).length
      _ = (s.takeWhile p ++ s.dropWhile p).drop (s.takeWhile p).length := by
        rw [List.takeWhile_append_dropWhile]
      _ = s.dropWhile p := List.drop_left
  exact hsplit ▸ h.drop (List.takeWhile_sublist p).length_le

theorem Holds.takeWhile {i : Int} (h : Holds a i s) :
    Holds (Function.update a (i + (s.takeWhile p).length) 0) i (s.takeWhile p) := by
  have hsplit : s.take (s.takeWhile p).length = s.takeWhile p :=
    calc s.take (s.takeWhile p).length
      _ = (s.takeWhile p ++ s.dropWhile p).take (s.takeWhile p).length := by
        rw [List.takeWhile_append_dropWhile]
      _ = s.takeWhile p := List.take_left
  have hcut := h.cut (List.takeWhile_sublist p).length_le
  rwa [hsplit] at hcut

theorem scan_eq {p : UInt8 → Bool} {i : Int} (h : Holds a i s) (h₀ : 0 ≤ i)
    (hn : i + s.length < (n : Nat)) (hr : s.length < room) :
    scan n p a room i = some (i + (s.takeWhile p).length) := by
  induction s generalizing i room with
  | nil =>
    obtain ⟨room, rfl⟩ := Nat.exists_eq_add_of_lt hr
    have hz : a i = 0 := Int.add_zero i ▸ h.nul
    rw [List.length_nil] at hn
    rw [scan, get_eq h₀ (by omega), hz]
    simp only [Option.bind_eq_bind, Option.bind_some, ne_eq, not_true_eq_false, false_and, ↓reduceIte,
      List.takeWhile_nil, List.length_nil, Int.natCast_zero, Int.add_zero, Option.pure_def]
  | cons c s ih =>
    obtain ⟨room, rfl⟩ := Nat.exists_eq_add_of_lt hr
    obtain ⟨hc, htail⟩ := h.of_cons
    have hne : c ≠ 0 := fun hz => h.no_nul (hz ▸ List.mem_cons_self)
    rw [List.length_cons] at hn
    rw [List.length_cons, scan, get_eq h₀ (by omega), hc]
    simp only [Option.bind_eq_bind, Option.bind_some]
    by_cases hp : p c = true
    · rw [if_pos ⟨hne, hp⟩, ih htail (by omega) (by omega) (by omega), List.takeWhile_cons_of_pos hp,
        List.length_cons]
      congr 1
      omega
    · rw [if_neg fun hand => hp hand.2, List.takeWhile_cons_of_neg hp, List.length_nil,
        Int.natCast_zero, Int.add_zero]
      rfl

theorem scan_le {p : UInt8 → Bool} {i j k : Int} (hs : scan n p a room i = some j) (hz : a k = 0)
    (hi : i ≤ k) : i ≤ j ∧ j ≤ k := by
  induction room generalizing i with
  | zero => cases hs
  | succ room ih =>
    rw [scan] at hs
    obtain ⟨c, hget, hs⟩ := Option.bind_eq_some_iff.1 hs
    obtain ⟨_, rfl⟩ := get_eq_some.1 hget
    split at hs
    · next hmore =>
      have hne : i ≠ k := by
        rintro rfl
        exact hmore.1 hz
      have hrec := ih hs (by omega)
      omega
    · cases hs
      exact ⟨Int.le_refl _, hi⟩

theorem Holds.ends_before {i : Int} {k : Nat} (hw : Holds a i w) (hz : a k = 0) (hi : i ≤ k) :
    i + w.length ≤ k := by
  by_contra hgt
  have hne := hw.ne_zero (k := (k - i).toNat) (by omega)
  have hidx : i + ((k - i).toNat : Int) = k := by omega
  rw [hidx] at hne
  exact hne hz

theorem bytes_length : (bytes a k).length = k := by
  rw [bytes, List.length_map, List.length_range]

theorem bytes_getElem? {i k : Nat} (hi : i < k) : (bytes a k)[i]? = some (a i) := by
  rw [bytes, List.getElem?_map, List.getElem?_range hi, Option.map_some]

theorem bytes_take {i k : Nat} (hi : i ≤ k) : (bytes a k).take i = bytes a i := by
  rw [bytes, bytes, ← List.map_take, List.take_range, Nat.min_eq_left hi]

theorem bytes_dropLast {k : Nat} : (bytes a k).dropLast = bytes a (k - 1) := by
  rw [List.dropLast_eq_take, bytes_length, bytes_take (Nat.sub_le _ _)]

theorem bytes_eq (hk : k = s.length) (hs : ∀ i (h : i < s.length), a (i : Nat) = s[i]) :
    bytes a k = s := by
  apply List.ext_getElem?
  intro i
  by_cases hi : i < s.length
  · rw [bytes_getElem? (hk ▸ hi), List.getElem?_eq_getElem hi, hs i hi]
  · rw [List.getElem?_eq_none (by rw [bytes_length]; omega), List.getElem?_eq_none (by omega)]

theorem bytes_add {k m : Nat} : bytes a (k + m) = bytes a k ++ bytes (fun i => a (k + i)) m := by
  rw [bytes, bytes, bytes, List.range_add, List.map_append, List.map_map]
  rfl

theorem Holds.bytes_eq (h : Holds a 0 s) : bytes a s.length = s := by
  apply CharArray.bytes_eq rfl
  intro i hi
  have hc := h.char i (Nat.le_of_lt hi)
  rwa [Int.zero_add, List.getElem?_eq_getElem hi] at hc

theorem text_eq (h : Holds a 0 s) (hn : s.length < n) : text n a = s := by
  obtain ⟨m, rfl⟩ := Nat.exists_eq_add_of_lt hn
  have hs := h.bytes_eq
  have hz : bytes (fun i => a (s.length + i)) (1 + m) =
      0 :: bytes (fun i => a (s.length + (1 + i))) m := by
    rw [bytes_add]
    have hnul := h.nul
    rw [Int.zero_add] at hnul
    simp only [bytes, List.range_one, List.map_cons, List.map_nil, Int.natCast_zero, Int.add_zero,
      hnul]
    rfl
  rw [text, Nat.add_assoc, Nat.add_comm m 1, bytes_add, hs, hz, List.takeWhile_append_of_pos]
  · rw [List.takeWhile_cons_of_neg (by decide), List.append_nil]
  · intro c hc
    rw [bne_iff_ne]
    rintro rfl
    exact h.no_nul hc

theorem Holds.unique (h : Holds a 0 s) (h' : Holds a 0 t) : s = t :=
  calc s
    _ = text (s.length + t.length + 1) a := (text_eq h (by omega)).symm
    _ = t := text_eq h' (by omega)

theorem holds_text (h : (text n a).length < n) : Holds a 0 (text n a) := by
  have hsplit : text n a ++ (bytes a n).dropWhile (· != 0) = bytes a n :=
    List.takeWhile_append_dropWhile
  have hlen := congrArg List.length hsplit
  rw [List.length_append, bytes_length] at hlen
  have hget : ∀ k : Nat, k < n → some (a k) = (text n a ++ (bytes a n).dropWhile (· != 0))[k]? :=
    fun k hk => by rw [hsplit, bytes_getElem? hk]
  refine ⟨fun hm => ?_, fun k hk => ?_⟩
  · cases List.mem_takeWhile_imp (p := (· != (0 : UInt8))) hm
  · rw [Int.zero_add]
    rcases Nat.lt_or_eq_of_le hk with hlt | rfl
    · have hk := hget k (by omega)
      rw [List.getElem?_append_left hlt] at hk
      rw [← hk, Option.getD_some]
    · have hk := hget _ h
      have hnot := List.head?_dropWhile_not (· != (0 : UInt8)) (bytes a n)
      rw [List.getElem?_append_right (Nat.le_refl _), Nat.sub_self, ← List.head?_eq_getElem?] at hk
      rw [← hk] at hnot
      rw [List.getElem?_eq_none (Nat.le_refl _), Option.getD_none]
      simpa using hnot

theorem text_lt_iff : (text n a).length < n ↔ ∃ k : Nat, k < n ∧ a k = 0 := by
  constructor
  · intro h
    have hnul := (holds_text h).nul
    rw [Int.zero_add] at hnul
    exact ⟨_, h, hnul⟩
  · rintro ⟨k, hk, hz⟩
    have hpre : text n a <+: bytes a n := List.takeWhile_prefix _
    apply Nat.lt_of_not_le
    intro hle
    have hall : text n a = bytes a n := hpre.eq_of_length_le (by rwa [bytes_length])
    have hm : (0 : UInt8) ∈ text n a := by
      rw [hall]
      exact List.mem_of_getElem? ((bytes_getElem? hk).trans (congrArg some hz))
    cases List.mem_takeWhile_imp (p := (· != (0 : UInt8))) hm

theorem holds_of_bytes (hb : bytes a s.length = s) (h₀ : 0 ∉ s) (hz : a s.length = 0) :
    Holds a 0 s := by
  refine ⟨h₀, fun k hk => ?_⟩
  rw [Int.zero_add]
  rcases Nat.lt_or_eq_of_le hk with hlt | rfl
  · rw [← hb, bytes_getElem? hlt, Option.getD_some]
  · rw [hz, List.getElem?_eq_none (Nat.le_refl _), Option.getD_none]

theorem text_eq_bytes_iff (hb : bytes a s.length = s) (h₀ : 0 ∉ s) (hn : s.length < n) :
    text n a = s ↔ a s.length = 0 := by
  constructor
  · intro ht
    have hnul := (holds_text (ht ▸ hn)).nul
    rwa [ht, Int.zero_add] at hnul
  · intro hz
    exact text_eq (holds_of_bytes hb h₀ hz) hn

theorem text_eq_nil_iff (hn : 0 < n) : text n a = [] ↔ a 0 = 0 := by
  obtain ⟨m, rfl⟩ := Nat.exists_eq_add_of_lt hn
  have hone : bytes a 1 = [a 0] := rfl
  rw [text, Nat.zero_add, Nat.add_comm, bytes_add, hone, List.singleton_append]
  by_cases hz : a 0 = 0
  · rw [List.takeWhile_cons_of_neg (by rw [hz]; decide)]
    exact iff_of_true rfl hz
  · rw [List.takeWhile_cons_of_pos (p := (· != 0)) (bne_iff_ne.2 hz)]
    exact iff_of_false (List.cons_ne_nil _ _) hz

theorem exists_nul_of_strlenFrom {k : Nat} {len : Int} (h : strlenFrom a room k = some len) :
    ∃ j : Nat, j < k + room ∧ a j = 0 := by
  induction room generalizing k with
  | zero => cases h
  | succ room ih =>
    rw [strlenFrom] at h
    split at h
    · next hz => exact ⟨k, by omega, hz⟩
    · obtain ⟨j, hj, hz⟩ := ih (k := k + 1) h
      exact ⟨j, by omega, hz⟩

theorem holds_of_strlen {len : Int} (h : strlen n a = some len) :
    Holds a 0 (text n a) ∧ (text n a).length < n ∧ len = (text n a).length := by
  obtain ⟨j, hj, hz⟩ := exists_nul_of_strlenFrom (k := 0) h
  have hlt : (text n a).length < n := text_lt_iff.2 ⟨j, by omega, hz⟩
  have hs := holds_text hlt
  exact ⟨hs, hlt, Option.some.inj (h.symm.trans (strlen_eq hs hlt))⟩

theorem shiftLeft_ne_self {col len : Int} (h : strlen n a = some len) (hlt : col < len) :
    shiftLeft n (len - col).toNat col a ≠ some a := by
  intro hshift
  obtain ⟨hs, hshort, hlen⟩ := holds_of_strlen h
  obtain ⟨k, hk⟩ : ∃ k, (len - col).toNat = k + 1 := ⟨(len - col).toNat - 1, by omega⟩
  rw [hk] at hshift
  obtain ⟨i, rfl⟩ := Int.eq_ofNat_of_zero_le (low_of_shiftLeft hshift)
  have herase : ∃ b, shiftLeft n (k + 1) i a = some b ∧
      ∀ j, b j = if (i : Int) ≤ j ∧ j < i + (k + 1 : Nat) then a (j + 1) else a j :=
    shiftLeft_eq (Int.natCast_nonneg i) (by omega)
  obtain ⟨b, hb, hbytes⟩ := herase
  have hsame : b = a := Option.some.inj (hb.symm.trans hshift)
  subst hsame
  have hin : i < (text n b).length := by omega
  have hend : (i + (k + 1 : Nat) : Int) = (text n b).length := by omega
  rw [hend] at hbytes
  have hle := Nat.lt_of_le_of_lt (List.length_eraseIdx_le (text n b) i) hshort
  have hlens := congrArg List.length (text_eq (hs.erase hin hbytes) hle)
  rw [List.length_eraseIdx_of_lt hin] at hlens
  omega

theorem exists_nul_of_strcpyFrom {src dst : Chars} {i : Int} {j : Nat}
    (h : strcpyFrom n m src room dst i j = some out) : ∃ k : Nat, k < m ∧ src k = 0 := by
  induction room generalizing dst i j with
  | zero => cases h
  | succ room ih =>
    obtain ⟨c, hc, h⟩ := Option.bind_eq_some_iff.1 h
    obtain ⟨dst', _, h⟩ := Option.bind_eq_some_iff.1 h
    obtain ⟨hj, rfl⟩ := get_eq_some.1 hc
    split at h
    · next hz => exact ⟨j, by omega, hz⟩
    · exact ih (j := j + 1) h

theorem bytes_congr {b : Chars} {k : Nat} (hb : ∀ x : Int, x < k → b x = a x) :
    bytes b k = bytes a k := by
  apply List.map_congr_left
  intro i hi
  have := List.mem_range.1 hi
  exact hb i (by omega)

theorem bytes_holds {b : Chars} {k : Nat} (h : Holds b k s) (hb : ∀ x : Int, x < k → b x = a x) :
    bytes b (k + s.length) = bytes a k ++ s := by
  rw [bytes_add, bytes_congr hb]
  congr 1
  apply bytes_eq rfl
  intro i hi
  rw [h.char i (Nat.le_of_lt hi), List.getElem?_eq_getElem hi, Option.getD_some]

theorem bytes_update {k : Nat} : bytes (Function.update a k c) (k + 1) = bytes a k ++ [c] := by
  have hlast : bytes (fun i => Function.update a k c (k + i)) 1 = [c] := by
    simp only [bytes, List.range_one, List.map_cons, List.map_nil, Int.natCast_zero, Int.add_zero,
      Function.update_self]
  rw [bytes_add, hlast, bytes_congr]
  intro x hx
  exact Function.update_of_ne (by omega) _ _

theorem text_of_bytes (h : bytes a (m + 1) = t ++ [0]) (hm : m < n) :
    text n a = t.takeWhile (· != 0) := by
  obtain ⟨k, rfl⟩ := Nat.exists_eq_add_of_lt hm
  rw [text, Nat.add_right_comm, bytes_add, h, List.append_assoc, List.takeWhile_append]
  split
  · next hall =>
    rw [List.singleton_append, List.takeWhile_cons_of_neg (by decide), List.append_nil]
    exact ((List.takeWhile_prefix _).eq_of_length hall).symm
  · rfl

end

end CharArray
