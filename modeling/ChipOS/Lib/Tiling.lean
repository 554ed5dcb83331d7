import Mathlib.Data.List.Chain
import Mathlib.Algebra.Order.Ring.Nat
import Mathlib.Tactic.Common

namespace Tiling
set_option autoImplicit true

/-- One segment of a tiling: the size of its payload and whether it is free. -/
structure Seg where
  size : Nat
  free : Bool
deriving DecidableEq, Repr

/-- The bytes a run of segments covers when each is preceded by a header of `h` bytes. -/
def span (h : Nat) : List Seg → Nat
  | [] => 0
  | s :: ss => h + s.size + span h ss

/-- The segments with the addresses of their headers, the first one at `a`. -/
def place (h a : Nat) : List Seg → List (Nat × Seg)
  | [] => []
  | s :: ss => (a, s) :: place h (a + h + s.size) ss

def used (h a : Nat) (ss : List Seg) : List (Nat × Seg) :=
  (place h a ss).filter fun p => !p.2.free

/-- No two neighbours are both free. -/
def Coalesced (ss : List Seg) : Prop :=
  ss.IsChain fun s t => ¬(s.free = true ∧ t.free = true)

/-- One left-to-right pass that joins every free segment with the free ones after it. -/
def coalesce (h : Nat) : List Seg → List Seg
  | s :: t :: ss =>
    if s.free && t.free then coalesce h (⟨s.size + (h + t.size), true⟩ :: ss)
    else s :: coalesce h (t :: ss)
  | ss => ss
termination_by ss => ss.length

@[simp] theorem span_nil : span h [] = 0 := rfl

@[simp] theorem span_cons : span h (s :: ss) = h + s.size + span h ss := rfl

@[simp] theorem span_append : span h (xs ++ ys) = span h xs + span h ys := by
  induction xs with
  | nil => simp only [List.nil_append, span_nil, Nat.zero_add]
  | cons x xs ih => simp only [List.cons_append, span_cons, ih]; omega

@[simp] theorem place_nil : place h a [] = [] := rfl

@[simp] theorem place_cons : place h a (s :: ss) = (a, s) :: place h (a + h + s.size) ss := rfl

theorem place_append : place h a (xs ++ ys) = place h a xs ++ place h (a + span h xs) ys := by
  induction xs generalizing a with
  | nil => rfl
  | cons x xs ih =>
    simp only [List.cons_append, place_cons, ih, span_cons]
    congr 3
    omega

@[simp] theorem used_nil : used h a [] = [] := rfl

theorem used_cons_free (hs : s.free = true) : used h a (s :: ss) = used h (a + h + s.size) ss := by
  simp only [used, place_cons, hs, Bool.not_true, Bool.false_eq_true, not_false_eq_true,
    List.filter_cons_of_neg]

theorem used_cons_busy (hs : s.free = false) :
    used h a (s :: ss) = (a, s) :: used h (a + h + s.size) ss := by
  simp only [used, place_cons, hs, Bool.not_false, List.filter_cons_of_pos]

theorem used_append : used h a (xs ++ ys) = used h a xs ++ used h (a + span h xs) ys := by
  simp only [used, place_append, List.filter_append]

theorem used_mid_free (hs : s.free = true) : used h a (pre ++ s :: post) =
    used h a pre ++ used h (a + span h pre + h + s.size) post := by
  rw [used_append, used_cons_free hs]

theorem used_mid_busy (hs : s.free = false) : used h a (pre ++ s :: post) =
    used h a pre ++ (a + span h pre, s) :: used h (a + span h pre + h + s.size) post := by
  rw [used_append, used_cons_busy hs]

theorem mem_used : p ∈ used h a ss ↔ p ∈ place h a ss ∧ p.2.free = false := by
  simp only [used, List.mem_filter, Bool.not_eq_eq_eq_not, Bool.not_true]

theorem place_bounds (hp : p ∈ place h a ss) :
    a ≤ p.1 ∧ p.1 + h + p.2.size ≤ a + span h ss := by
  induction ss generalizing a with
  | nil => simp only [place_nil, List.not_mem_nil] at hp
  | cons s ss ih =>
    rcases List.mem_cons.1 hp with rfl | hp
    · simp only [span_cons]; omega
    · have hb := ih hp
      simp only [span_cons]
      omega

theorem place_pairwise (h a : Nat) (ss : List Seg) :
    (place h a ss).Pairwise fun p q => p.1 + h + p.2.size ≤ q.1 := by
  induction ss generalizing a with
  | nil => exact .nil
  | cons s ss ih => exact .cons (fun q hq => (place_bounds hq).1) (ih _)

theorem place_chain (h a : Nat) (ss : List Seg) :
    (place h a ss).IsChain fun p q => q.1 = p.1 + h + p.2.size := by
  induction ss generalizing a with
  | nil => exact .nil
  | cons s ss ih =>
    refine List.isChain_cons.2 ⟨fun q hq => ?_, ih _⟩
    cases ss with
    | nil => cases hq
    | cons t ss =>
      cases hq
      rfl

theorem map_snd_place (h a : Nat) (ss : List Seg) : (place h a ss).map Prod.snd = ss := by
  induction ss generalizing a with
  | nil => rfl
  | cons s ss ih => rw [place_cons, List.map_cons, ih]

theorem length_place (h a : Nat) (ss : List Seg) : (place h a ss).length = ss.length := by
  rw [← map_snd_place h a ss, List.length_map, map_snd_place]

theorem place_split (hp : p ∈ place h a ss) :
    ∃ pre post, ss = pre ++ p.2 :: post ∧ p.1 = a + span h pre := by
  induction ss generalizing a with
  | nil => simp only [place_nil, List.not_mem_nil] at hp
  | cons s ss ih =>
    rcases List.mem_cons.1 hp with rfl | hp
    · exact ⟨[], ss, rfl, rfl⟩
    · obtain ⟨pre, post, rfl, he⟩ := ih hp
      refine ⟨s :: pre, post, rfl, ?_⟩
      simp only [he, span_cons]
      omega

theorem mem_place_mid : (a + span h pre, s) ∈ place h a (pre ++ s :: post) := by
  rw [place_append, place_cons]
  exact List.mem_append_right _ List.mem_cons_self

theorem place_inj (hh : 0 < h) (hp : p ∈ place h a ss) (hq : q ∈ place h a ss)
    (he : p.1 = q.1) : p = q := by
  induction ss generalizing a with
  | nil => simp only [place_nil, List.not_mem_nil] at hp
  | cons s ss ih =>
    rcases List.mem_cons.1 hp with hp | hp <;> rcases List.mem_cons.1 hq with hq | hq
    · exact hp.trans hq.symm
    · have hb := (place_bounds hq).1
      rw [hp] at he
      simp only at he
      omega
    · have hb := (place_bounds hp).1
      rw [hq] at he
      simp only at he
      omega
    · exact ih hp hq

theorem place_disjoint (hp : p ∈ place h a ss) (hq : q ∈ place h a ss)
    (hne : p.1 ≠ q.1) : p.1 + h + p.2.size ≤ q.1 ∨ q.1 + h + q.2.size ≤ p.1 := by
  induction ss generalizing a with
  | nil => simp only [place_nil, List.not_mem_nil] at hp
  | cons s ss ih =>
    rcases List.mem_cons.1 hp with rfl | hp <;> rcases List.mem_cons.1 hq with rfl | hq
    · exact absurd rfl hne
    · exact .inl (place_bounds hq).1
    · exact .inr (place_bounds hp).1
    · exact ih hp hq

@[simp] theorem coalesce_nil : coalesce h [] = [] := by
  rw [coalesce]
  intro s t ss he
  cases he

@[simp] theorem coalesce_singleton : coalesce h [s] = [s] := by
  rw [coalesce]
  intro s t ss he
  cases he

@[simp] theorem span_coalesce : span h (coalesce h ss) = span h ss := by
  fun_induction coalesce h ss with
  | case1 s t ss hf ih => simp only [ih, span_cons]; omega
  | case2 s t ss hf ih => simp only [span_cons, ih]
  | case3 => rfl

@[simp] theorem used_coalesce : used h a (coalesce h ss) = used h a ss := by
  fun_induction coalesce h ss generalizing a with
  | case1 s t ss hf ih =>
    obtain ⟨hs, ht⟩ := Bool.and_eq_true_iff.1 hf
    rw [ih, used_cons_free rfl, used_cons_free hs, used_cons_free ht]
    congr 1
    simp only
    omega
  | case2 s t ss hf ih =>
    cases hs : s.free with
    | true => rw [used_cons_free hs, used_cons_free hs, ih]
    | false => rw [used_cons_busy hs, used_cons_busy hs, ih]
  | case3 => rfl

theorem coalesce_head (hs : s ∈ (coalesce h ss).head?) : ∃ t ∈ ss.head?, t.free = s.free := by
  fun_induction coalesce h ss with
  | case1 s' t ss hf ih =>
    obtain ⟨u, hu, he⟩ := ih hs
    simp only [List.head?_cons, Option.mem_def, Option.some.injEq] at hu
    subst u
    exact ⟨s', rfl, (Bool.and_eq_true_iff.1 hf).1.trans he⟩
  | case2 s' t ss hf ih =>
    simp only [List.head?_cons, Option.mem_def, Option.some.injEq] at hs
    exact ⟨s', rfl, congrArg Seg.free hs⟩
  | case3 ss => exact ⟨s, hs, rfl⟩

/-- One pass joins everything that can be joined. -/
theorem coalesce_coalesced (h : Nat) (ss : List Seg) : Coalesced (coalesce h ss) := by
  fun_induction coalesce h ss with
  | case1 s t ss hf ih => exact ih
  | case2 s t ss hf ih =>
    refine List.isChain_cons.2 ⟨fun u hu => ?_, ih⟩
    obtain ⟨v, hv, he⟩ := coalesce_head hu
    simp only [List.head?_cons, Option.mem_def, Option.some.injEq] at hv
    subst v
    rw [← he, ← Bool.and_eq_true_iff]
    exact hf
  | case3 ss hss =>
    match ss, hss with
    | [], _ => exact .nil
    | [s], _ => exact .singleton s
    | s :: t :: ss, hss => exact (hss s t ss rfl).elim

theorem coalesce_sizes {P : Nat → Prop} (hP : ∀ m n, P m → P n → P (m + (h + n)))
    (hss : ∀ s ∈ ss, P s.size) : ∀ s ∈ coalesce h ss, P s.size := by
  fun_induction coalesce h ss with
  | case1 s t ss hf ih =>
    apply ih
    intro u hu
    rcases List.mem_cons.1 hu with rfl | hu
    · exact hP _ _ (hss s List.mem_cons_self) (hss t (List.mem_cons_of_mem _ List.mem_cons_self))
    · exact hss u (List.mem_cons_of_mem _ (List.mem_cons_of_mem _ hu))
  | case2 s t ss hf ih =>
    intro u hu
    rcases List.mem_cons.1 hu with rfl | hu
    · exact hss u List.mem_cons_self
    · exact ih (fun v hv => hss v (List.mem_cons_of_mem _ hv)) u hu
  | case3 ss => exact hss

theorem Coalesced.tail (hc : Coalesced (s :: ss)) : Coalesced ss := List.IsChain.tail hc

theorem Coalesced.head_busy (hc : Coalesced (s :: t :: ss)) (hs : s.free = true) :
    t.free = false := by
  have hst := (List.isChain_cons_cons.1 hc).1
  cases ht : t.free with
  | false => rfl
  | true => exact (hst ⟨hs, ht⟩).elim

/-- Replacing a segment by one that is in use, followed by an optional free remainder,
creates no free neighbours, because the replaced segment was free itself. -/
theorem Coalesced.carve (hc : Coalesced (pre ++ s :: post)) (hs : s.free = true)
    (hu : u.free = false) :
    Coalesced (pre ++ u :: post) ∧ Coalesced (pre ++ u :: ⟨n, true⟩ :: post) := by
  obtain ⟨hl, hr⟩ := List.isChain_split.1 hc
  have hpre : (pre ++ [u]).IsChain fun s t => ¬(s.free = true ∧ t.free = true) := by
    rw [List.isChain_append] at hl ⊢
    refine ⟨hl.1, .singleton u, ?_⟩
    intro x _ y hy
    simp only [List.head?_cons, Option.mem_def, Option.some.injEq] at hy
    subst y
    simp only [hu, Bool.false_eq_true, and_false, not_false_eq_true]
  constructor
  · refine List.isChain_split.2 ⟨hpre, List.isChain_cons.2 ⟨fun v _ => ?_, Coalesced.tail hr⟩⟩
    simp only [hu, Bool.false_eq_true, false_and, not_false_eq_true]
  · refine List.isChain_split.2 ⟨hpre, List.isChain_cons.2 ⟨fun v _ => ?_, ?_⟩⟩
    · simp only [hu, Bool.false_eq_true, false_and, not_false_eq_true]
    · refine List.isChain_cons.2 ⟨fun v hv => ?_, Coalesced.tail hr⟩
      have := (List.isChain_cons.1 hr).1 v hv
      simpa only [hs, true_and] using this

theorem used_bounds (hp : p ∈ used h a ss) : a ≤ p.1 ∧ p.1 + h + p.2.size ≤ a + span h ss :=
  place_bounds (mem_used.1 hp).1

def occupied (h a : Nat) (ss : List Seg) : Nat :=
  ((used h a ss).map fun p => h + p.2.size).sum

def gaps (ss : List Seg) : Nat := ((ss.filter Seg.free).map Seg.size).sum

theorem used_length : (used h a ss).length = ss.countP fun s => !s.free := by
  induction ss generalizing a with
  | nil => rfl
  | cons s ss ih =>
    cases hs : s.free with
    | true => rw [used_cons_free hs, ih, List.countP_cons_of_neg (by rw [hs]; decide)]
    | false =>
      rw [used_cons_busy hs, List.length_cons, ih, List.countP_cons_of_pos (by rw [hs]; decide)]

theorem occupied_cons_free (hs : s.free = true) :
    occupied h a (s :: ss) = occupied h (a + h + s.size) ss := by
  rw [occupied, occupied, used_cons_free hs]

theorem occupied_cons_busy (hs : s.free = false) :
    occupied h a (s :: ss) = h + s.size + occupied h (a + h + s.size) ss := by
  rw [occupied, occupied, used_cons_busy hs, List.map_cons, List.sum_cons]

theorem span_eq (h a : Nat) (ss : List Seg) :
    span h ss = occupied h a ss + gaps ss + h * ss.countP Seg.free := by
  induction ss generalizing a with
  | nil => rfl
  | cons s ss ih =>
    have hrest := ih (a + h + s.size)
    cases hs : s.free with
    | true =>
      have hg : gaps (s :: ss) = s.size + gaps ss := by
        rw [gaps, List.filter_cons_of_pos hs, List.map_cons, List.sum_cons, gaps]
      rw [span_cons, hrest, occupied_cons_free hs, hg, List.countP_cons_of_pos hs, Nat.mul_succ]
      omega
    | false =>
      have hs' : ¬s.free = true := by rw [hs]; decide
      have hg : gaps (s :: ss) = gaps ss := by rw [gaps, List.filter_cons_of_neg hs', gaps]
      rw [span_cons, hrest, occupied_cons_busy hs, hg, List.countP_cons_of_neg hs']
      omega

/-- The segments in use are listed in the order of their addresses, so two such lists with
the same members are equal. -/
theorem used_ext (hh : 0 < h) (hm : ∀ p, p ∈ used h a xs ↔ p ∈ used h a ys) :
    used h a xs = used h a ys := by
  have hsorted : ∀ ss, (used h a ss).Pairwise fun p q => p.1 < q.1 := by
    intro ss
    apply ((place_pairwise h a ss).sublist List.filter_sublist).imp
    intro p q hpq
    omega
  have hnodup : ∀ ss, (used h a ss).Nodup := by
    intro ss
    apply (hsorted ss).imp
    intro p q hpq he
    rw [he] at hpq
    exact Nat.lt_irrefl _ hpq
  have hperm := (List.perm_ext_iff_of_nodup (hnodup xs) (hnodup ys)).2 hm
  apply hperm.eq_of_pairwise _ (hsorted xs) (hsorted ys)
  intro p q _ _ hpq hqp
  omega

theorem span_pos (hh : 0 < h) : 0 < span h (s :: ss) := by
  simp only [span_cons]
  omega

/-- A shorter first gap is followed by a segment in use that the longer gap would cover. -/
theorem gap_not_lt (hx : Coalesced (x :: xs)) (hxf : x.free = true)
    (hspan : span h (x :: xs) = span h (y :: ys))
    (hused : used h (a + h + x.size) xs = used h (a + h + y.size) ys) : ¬x.size < y.size := by
  intro hlt
  cases xs with
  | nil =>
    simp only [span_cons, span_nil] at hspan
    omega
  | cons z zs =>
    have hz := hx.head_busy hxf
    rw [used_cons_busy hz] at hused
    have hb := used_bounds (hused ▸ List.mem_cons_self :
      (a + h + x.size, z) ∈ used h (a + h + y.size) ys)
    simp only at hb
    omega

/-- A coalesced tiling is determined by its length and the segments in use: the free
segments are exactly the maximal gaps between them. -/
theorem canonical (hh : 0 < h) (hx : Coalesced xs) (hy : Coalesced ys)
    (hspan : span h xs = span h ys) (hused : used h a xs = used h a ys) : xs = ys := by
  induction xs generalizing a ys with
  | nil =>
    cases ys with
    | nil => rfl
    | cons y ys =>
      have hpos : 0 < span h (y :: ys) := span_pos hh
      simp only [span_nil] at hspan
      omega
  | cons x xs ih =>
    cases ys with
    | nil =>
      have hpos : 0 < span h (x :: xs) := span_pos hh
      simp only [span_nil] at hspan
      omega
    | cons y ys =>
      cases hxf : x.free with
      | false =>
        cases hyf : y.free with
        | false =>
          rw [used_cons_busy hxf, used_cons_busy hyf] at hused
          have he : x = y := congrArg Prod.snd (List.cons.inj hused).1
          subst y
          rw [ih hx.tail hy.tail (by simp only [span_cons] at hspan; omega)
            (List.cons.inj hused).2]
        | true =>
          rw [used_cons_busy hxf, used_cons_free hyf] at hused
          have hb := used_bounds (hused ▸ List.mem_cons_self :
            (a, x) ∈ used h (a + h + y.size) ys)
          simp only at hb
          omega
      | true =>
        cases hyf : y.free with
        | false =>
          rw [used_cons_free hxf, used_cons_busy hyf] at hused
          have hb := used_bounds (hused.symm ▸ List.mem_cons_self :
            (a, y) ∈ used h (a + h + x.size) xs)
          simp only at hb
          omega
        | true =>
          rw [used_cons_free hxf, used_cons_free hyf] at hused
          have hsz : x.size = y.size := by
            rcases Nat.lt_trichotomy x.size y.size with hlt | he | hlt
            · exact (gap_not_lt hx hxf hspan hused hlt).elim
            · exact he
            · exact (gap_not_lt hy hyf hspan.symm hused.symm hlt).elim
          have he : x = y := by
            cases x
            cases y
            simp only at hsz hxf hyf
            rw [hsz, hxf, hyf]
          subst y
          rw [ih hx.tail hy.tail (by simp only [span_cons] at hspan; omega) hused]

theorem coalesced_of_countP (hc : ss.countP Seg.free ≤ 1) : Coalesced ss := by
  induction ss with
  | nil => exact .nil
  | cons s ss ih =>
    rw [List.countP_cons] at hc
    refine List.isChain_cons.2 ⟨?_, ih (by omega)⟩
    rintro t ht ⟨hs, htf⟩
    have hpos : 0 < ss.countP Seg.free :=
      List.countP_pos_iff.2 ⟨t, List.mem_of_mem_head? ht, htf⟩
    rw [if_pos hs] at hc
    omega

theorem coalesce_join (hh : 0 < h) (hs : s.free = true) (ht : t.free = true)
    (hc : (pre ++ post).countP Seg.free = 0) :
    coalesce h (pre ++ s :: t :: post) = pre ++ ⟨s.size + (h + t.size), true⟩ :: post := by
  apply canonical (a := 0) hh (coalesce_coalesced _ _)
  · apply coalesced_of_countP
    rw [List.countP_append] at hc
    rw [List.countP_append, List.countP_cons_of_pos rfl]
    omega
  · simp only [span_coalesce, span_append, span_cons]
    omega
  · rw [used_coalesce, used_mid_free hs, used_mid_free rfl, used_cons_free ht]
    congr 2
    simp only
    omega

theorem countP_coalesce_join (hh : 0 < h) (hs : s.free = true) (ht : t.free = true)
    (hc : (pre ++ post).countP Seg.free = 0) :
    (coalesce h (pre ++ s :: t :: post)).countP Seg.free = 1 := by
  rw [coalesce_join hh hs ht hc, List.countP_append, List.countP_cons_of_pos rfl]
  rw [List.countP_append] at hc
  omega

/-- The place where a segment starts determines what comes before and after it. -/
theorem append_inj_of_span (hh : 0 < h) (he : xs ++ s :: ys = xs' ++ t :: ys')
    (hspan : span h xs = span h xs') : xs = xs' ∧ s = t ∧ ys = ys' := by
  induction xs generalizing xs' with
  | nil =>
    cases xs' with
    | nil => exact ⟨rfl, List.cons.inj he⟩
    | cons x xs' =>
      have hpos : 0 < span h (x :: xs') := span_pos hh
      simp only [span_nil] at hspan
      omega
  | cons x xs ih =>
    cases xs' with
    | nil =>
      have hpos : 0 < span h (x :: xs) := span_pos hh
      simp only [span_nil] at hspan
      omega
    | cons x' xs' =>
      obtain ⟨rfl, he'⟩ := List.cons.inj he
      obtain ⟨rfl, hrest⟩ := ih he' (by simp only [span_cons] at hspan; omega)
      exact ⟨rfl, hrest⟩

end Tiling
