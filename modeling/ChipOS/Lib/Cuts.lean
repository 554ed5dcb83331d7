import Mathlib.Data.List.Basic
import Mathlib.Data.List.Infix
import Mathlib.Data.List.Sort
import Mathlib.Tactic.Common

namespace Cuts
set_option autoImplicit true

/-- A buffer with room for `limit` elements. What does not fit is dropped. -/
def push (limit : Nat) (cur : List α) (a : α) : List α :=
  if cur.length < limit then cur ++ [a] else cur

/-- The pieces between the elements that satisfy `stop`, as a loop collects them one after another
in a buffer; `cur` is what it has of the first one. -/
def pieces (stop : α → Bool) (limit : Nat) (cur : List α) : List α → List (List α)
  | [] => [cur]
  | a :: as =>
    if stop a then cur :: pieces stop limit [] as else pieces stop limit (push limit cur a) as

/-- All pieces but the last one if it is empty. -/
def closed : List (List α) → List (List α)
  | [] => []
  | l :: ls => if l.isEmpty && ls.isEmpty then [] else l :: closed ls

/-- The lines of a text, where the elements that satisfy `stop` end lines. -/
def lines (stop : α → Bool) (as : List α) : List (List α) := closed (as.splitOnP stop)

/-- The text of lines that each have an end of their own. -/
def ended (sep : α) (ls : List (List α)) : List α := ls.flatMap (· ++ [sep])

/-- The pieces that are not empty, each cut to `limit` elements. -/
def kept (limit : Nat) (ls : List (List α)) : List (List α) :=
  (ls.map (List.take limit)).filter fun l => !l.isEmpty

section
variable {stop : α → Bool} {as bs cur needle l : List α} {ls ms : List (List α)}

theorem push_length (h : cur.length ≤ limit) : (push limit cur a).length ≤ limit := by
  rw [push]
  split
  · next hlt => rwa [List.length_append, List.length_singleton]
  · exact h

theorem pieces_eq_modifyHead (h : cur.length ≤ limit) : pieces stop limit cur as =
    ((as.splitOnP stop).modifyHead (cur ++ ·)).map (List.take limit) := by
  induction as generalizing cur with
  | nil =>
    rw [pieces, List.splitOnP_nil, List.modifyHead_cons, List.append_nil, List.map_singleton,
      List.take_of_length_le h]
  | cons a as ih =>
    obtain ⟨s, ss, hs⟩ := List.exists_cons_of_ne_nil (List.splitOnP_ne_nil stop as)
    have hnil : ∀ {l}, l.length ≤ limit → pieces stop limit l as =
        ((as.splitOnP stop).modifyHead (l ++ ·)).map (List.take limit) := ih
    rw [pieces, List.splitOnP_cons_eq_if_modifyHead]
    by_cases ha : stop a = true
    · rw [if_pos ha, if_pos ha, hnil (Nat.zero_le _), hs]
      simp only [List.modifyHead_cons, List.nil_append, List.append_nil, List.map_cons,
        List.take_of_length_le h]
    · rw [if_neg ha, if_neg ha, hnil (push_length h), hs]
      simp only [List.modifyHead_cons, List.map_cons, List.cons.injEq, and_true]
      rw [push]
      split
      · rw [List.append_assoc, List.singleton_append]
      · rw [List.take_append_of_le_length (by omega), List.take_append_of_le_length (by omega)]

theorem pieces_eq : pieces stop limit [] as = (as.splitOnP stop).map (List.take limit) := by
  obtain ⟨s, ss, hs⟩ := List.exists_cons_of_ne_nil (List.splitOnP_ne_nil stop as)
  rw [pieces_eq_modifyHead (Nat.zero_le _), hs, List.modifyHead_cons, List.nil_append]

theorem flatten_splitOnP : (as.splitOnP stop).flatten = as.filter (!stop ·) := by
  induction as with
  | nil => rfl
  | cons a as ih =>
    obtain ⟨s, ss, hs⟩ := List.exists_cons_of_ne_nil (List.splitOnP_ne_nil stop as)
    rw [List.splitOnP_cons_eq_if_modifyHead]
    by_cases ha : stop a = true
    · rw [if_pos ha, List.flatten_cons, ih, List.filter_cons_of_neg (by simp [ha])]
      rfl
    · rw [if_neg ha, List.filter_cons_of_pos (by simp [ha]), ← ih, hs]
      rfl

theorem splitOnP_append (h : ∀ a ∈ as, stop a = false) :
    (as ++ bs).splitOnP stop = (bs.splitOnP stop).modifyHead (as ++ ·) := by
  obtain ⟨s, ss, hs⟩ := List.exists_cons_of_ne_nil (List.splitOnP_ne_nil stop bs)
  induction as with
  | nil => rw [hs, List.modifyHead_cons, List.nil_append, List.nil_append, hs]
  | cons a as ih =>
    rw [List.cons_append, List.splitOnP_cons_eq_if_modifyHead, if_neg (by rw [h a List.mem_cons_self]; decide),
      ih fun b hb => h b (List.mem_cons_of_mem _ hb), hs]
    rfl

theorem closed_cons (hne : ls ≠ []) : closed (l :: ls) = l :: closed ls := by
  rw [closed, if_neg]
  rw [Bool.and_eq_true, List.isEmpty_iff, List.isEmpty_iff]
  exact fun h => hne h.2

theorem closed_append (hne : ms ≠ []) : closed (ls ++ ms) = ls ++ closed ms := by
  induction ls with
  | nil => rfl
  | cons l ls ih =>
    rw [List.cons_append, closed_cons (List.append_ne_nil_of_right_ne_nil ls hne), ih,
      List.cons_append]

theorem closed_flatten : (closed ls).flatten = ls.flatten := by
  induction ls with
  | nil => rfl
  | cons l ls ih =>
    rw [closed]
    split
    · next h =>
      rw [Bool.and_eq_true, List.isEmpty_iff, List.isEmpty_iff] at h
      rw [h.1, h.2]
      rfl
    · rw [List.flatten_cons, List.flatten_cons, ih]

theorem lines_nil : lines stop [] = [] := rfl

theorem lines_append (hsep : stop sep = true) :
    lines stop (as ++ sep :: bs) = as.splitOnP stop ++ lines stop bs := by
  rw [lines, List.splitOnP_append_cons as bs hsep,
    closed_append (List.splitOnP_ne_nil stop bs), lines]

theorem lines_snoc (hsep : stop sep = true) : lines stop (as ++ [sep]) = as.splitOnP stop := by
  rw [lines_append hsep, lines_nil, List.append_nil]

theorem lines_first (h : ∀ a ∈ l, stop a = false) (hsep : stop sep = true) :
    lines stop (l ++ sep :: bs) = l :: lines stop bs := by
  rw [lines_append hsep, List.splitOnP_eq_singleton h, List.singleton_append]

theorem lines_open (hsep : stop a = false) : lines stop (as ++ [a]) = (as ++ [a]).splitOnP stop := by
  induction as with
  | nil =>
    rw [List.nil_append, lines, List.splitOnP_eq_singleton fun b hb => List.mem_singleton.1 hb ▸ hsep]
    rfl
  | cons b as ih =>
    obtain ⟨s, ss, hs⟩ := List.exists_cons_of_ne_nil (List.splitOnP_ne_nil stop (as ++ [a]))
    rw [lines, hs] at ih
    rw [lines, List.cons_append, List.splitOnP_cons_eq_if_modifyHead, hs]
    split
    · rw [closed_cons (List.cons_ne_nil s ss), ih]
    · cases ss with
      | nil => rfl
      | cons s' ss =>
        rw [closed_cons (List.cons_ne_nil s' ss), List.cons_inj_right] at ih
        rw [List.modifyHead_cons, closed_cons (List.cons_ne_nil s' ss), ih]

theorem lines_flatten : (lines stop as).flatten = as.filter (!stop ·) := by
  rw [lines, closed_flatten, flatten_splitOnP]

theorem head_splitOnP_isPrefix (h : as.splitOnP stop = s :: ss) : s <+: as := by
  induction as generalizing s ss with
  | nil =>
    cases h
    exact List.prefix_refl []
  | cons a as ih =>
    obtain ⟨t, ts, ht⟩ := List.exists_cons_of_ne_nil (List.splitOnP_ne_nil stop as)
    rw [List.splitOnP_cons_eq_if_modifyHead] at h
    split at h
    · cases h
      exact List.nil_prefix
    · rw [ht, List.modifyHead_cons] at h
      cases h
      exact (List.prefix_cons_inj a).2 (ih ht)

theorem infix_of_mem_splitOnP (h : l ∈ as.splitOnP stop) : l <:+: as := by
  induction as generalizing l with
  | nil =>
    cases List.mem_singleton.1 h
    exact List.infix_refl []
  | cons a as ih =>
    obtain ⟨s, ss, hs⟩ := List.exists_cons_of_ne_nil (List.splitOnP_ne_nil stop as)
    rw [List.splitOnP_cons_eq_if_modifyHead] at h
    split at h
    · rcases List.mem_cons.1 h with rfl | h
      · exact List.nil_infix
      · exact List.infix_cons (ih h)
    · rw [hs, List.modifyHead_cons] at h
      rcases List.mem_cons.1 h with rfl | h
      · exact ((List.prefix_cons_inj a).2 (head_splitOnP_isPrefix hs)).isInfix
      · exact List.infix_cons (ih (hs ▸ List.mem_cons_of_mem _ h))

theorem infix_iff_splitOnP (h : ∀ a ∈ needle, stop a = false) :
    needle <:+: as ↔ ∃ l ∈ as.splitOnP stop, needle <:+: l := by
  constructor
  · rintro ⟨pre, post, rfl⟩
    obtain ⟨s, ss, hs⟩ := List.exists_cons_of_ne_nil (List.splitOnP_ne_nil stop post)
    have htail : (needle ++ post).splitOnP stop = (needle ++ s) :: ss := by
      rw [splitOnP_append h, hs, List.modifyHead_cons]
    rw [List.append_assoc]
    clear hs
    induction pre with
    | nil => exact ⟨needle ++ s, htail ▸ List.mem_cons_self, List.infix_append_left⟩
    | cons a pre ih =>
      obtain ⟨l, hl, hin⟩ := ih
      rw [List.cons_append, List.splitOnP_cons_eq_if_modifyHead]
      split
      · exact ⟨l, List.mem_cons_of_mem _ hl, hin⟩
      · obtain ⟨t, ts, ht⟩ := List.exists_cons_of_ne_nil
          (List.splitOnP_ne_nil stop (pre ++ (needle ++ post)))
        rw [ht] at hl ⊢
        rw [List.modifyHead_cons]
        rcases List.mem_cons.1 hl with rfl | hl
        · exact ⟨a :: l, List.mem_cons_self, List.infix_cons hin⟩
        · exact ⟨l, List.mem_cons_of_mem _ hl, hin⟩
  · rintro ⟨l, hl, hin⟩
    exact hin.trans (infix_of_mem_splitOnP hl)

/-- More text behind a text extends its pieces and adds new ones. -/
theorem splitOnP_extends (bs : List α) {k : Nat} (h : (as.splitOnP stop)[k]? = some l) :
    ∃ l', ((as ++ bs).splitOnP stop)[k]? = some l' ∧ l <+: l' := by
  induction as generalizing k l with
  | nil =>
    obtain ⟨s, ss, hs⟩ := List.exists_cons_of_ne_nil (List.splitOnP_ne_nil stop bs)
    cases k with
    | zero =>
      cases h
      exact ⟨s, by rw [List.nil_append, hs]; rfl, List.nil_prefix⟩
    | succ k => cases h
  | cons a as ih =>
    obtain ⟨s, ss, hs⟩ := List.exists_cons_of_ne_nil (List.splitOnP_ne_nil stop as)
    obtain ⟨t, ts, ht⟩ := List.exists_cons_of_ne_nil (List.splitOnP_ne_nil stop (as ++ bs))
    rw [List.splitOnP_cons_eq_if_modifyHead] at h
    rw [List.cons_append, List.splitOnP_cons_eq_if_modifyHead]
    by_cases ha : stop a = true
    · rw [if_pos ha] at h ⊢
      cases k with
      | zero =>
        cases h
        exact ⟨[], rfl, List.nil_prefix⟩
      | succ k => exact ih h
    · rw [if_neg ha, hs, List.modifyHead_cons] at h
      rw [if_neg ha, ht, List.modifyHead_cons]
      cases k with
      | zero =>
        cases h
        have hfirst : (as.splitOnP stop)[0]? = some s := by rw [hs]; rfl
        obtain ⟨l', hl', hp⟩ := ih hfirst
        rw [ht] at hl'
        cases hl'
        exact ⟨a :: t, rfl, (List.prefix_cons_inj a).2 hp⟩
      | succ k =>
        have hlater : (as.splitOnP stop)[k + 1]? = some l := by rw [hs]; exact h
        obtain ⟨l', hl', hp⟩ := ih hlater
        rw [ht] at hl'
        exact ⟨l', hl', hp⟩

theorem length_splitOnP : (as.splitOnP stop).length = as.countP stop + 1 := by
  induction as with
  | nil => rfl
  | cons a as ih =>
    rw [List.splitOnP_cons_eq_if_modifyHead]
    split
    · next ha => rw [List.length_cons, ih, List.countP_cons_of_pos ha]
    · next ha => rw [List.length_modifyHead, ih, List.countP_cons_of_neg ha]

theorem ended_cons : ended sep (l :: ls) = l ++ sep :: ended sep ls := by
  rw [ended, List.flatMap_cons, List.append_assoc]
  rfl

theorem lines_ended (h : ∀ l ∈ ls, ∀ a ∈ l, stop a = false) (hsep : stop sep = true) :
    lines stop (ended sep ls) = ls := by
  induction ls with
  | nil => rfl
  | cons l ls ih =>
    rw [ended_cons, lines_first (h l List.mem_cons_self) hsep,
      ih fun m hm => h m (List.mem_cons_of_mem l hm)]

theorem lines_append_ended (h : ∀ l ∈ ls, ∀ a ∈ l, stop a = false) (hsep : stop sep = true) :
    lines stop (as ++ ended sep ls) = lines stop as ++ ls ↔
      ls = [] ∨ as = [] ∨ ∃ a, as.getLast? = some a ∧ stop a = true := by
  rcases List.eq_nil_or_concat as with rfl | ⟨bs, b, rfl⟩
  · exact iff_of_true (lines_ended h hsep) (.inr (.inl rfl))
  rw [List.concat_eq_append]
  by_cases hb : stop b = true
  · refine iff_of_true ?_ (.inr (.inr ⟨b, List.getLast?_concat, hb⟩))
    rw [List.append_assoc, List.singleton_append, lines_append hb, lines_snoc hb, lines_ended h hsep]
  cases ls with
  | nil => exact iff_of_true (by rw [ended, List.flatMap_nil, List.append_nil, List.append_nil]) (.inl rfl)
  | cons l ls =>
    refine iff_of_false (fun he => ?_) ?_
    · -- the first of the lines goes on where the text stops
      have hlen := congrArg List.length he
      have hopen : l.countP stop = 0 := by
        rw [List.countP_eq_zero]
        intro a ha
        rw [h l List.mem_cons_self a ha]
        decide
      rw [ended_cons, ← List.append_assoc, lines_append hsep,
        lines_ended (fun m hm => h m (List.mem_cons_of_mem l hm)) hsep,
        lines_open (Bool.eq_false_iff.2 hb), List.length_append, List.length_append,
        length_splitOnP, length_splitOnP, List.countP_append, hopen, List.length_cons] at hlen
      omega
    · rintro (hnil | hnil | ⟨a, ha, hstop⟩)
      · cases hnil
      · exact absurd hnil (List.append_ne_nil_of_right_ne_nil bs (List.cons_ne_nil b []))
      · rw [List.getLast?_concat] at ha
        cases ha
        exact hb hstop

theorem splitOnP_congr {stop' : α → Bool} (h : ∀ a ∈ as, stop a = stop' a) :
    as.splitOnP stop = as.splitOnP stop' := by
  induction as with
  | nil => rfl
  | cons a as ih =>
    rw [List.splitOnP_cons_eq_if_modifyHead, List.splitOnP_cons_eq_if_modifyHead,
      h a List.mem_cons_self, ih fun b hb => h b (List.mem_cons_of_mem _ hb)]

theorem kept_cons : kept limit (l :: ls) = kept limit [l] ++ kept limit ls := by
  rw [kept, List.map_cons, ← List.singleton_append, List.filter_append]
  rfl

theorem kept_closed : kept limit (closed ls) = kept limit ls := by
  induction ls with
  | nil => rfl
  | cons l ls ih =>
    rw [closed]
    split
    · next h =>
      rw [Bool.and_eq_true, List.isEmpty_iff, List.isEmpty_iff] at h
      have hnone : kept limit [([] : List α)] = [] := by
        rw [kept, List.map_singleton, List.take_nil]
        rfl
      rw [h.1, h.2, hnone]
      rfl
    · rw [kept_cons, ih, ← kept_cons]

theorem of_mem_kept (h : l ∈ kept limit ls) : l ≠ [] ∧ l.length ≤ limit := by
  obtain ⟨hl, hne⟩ := List.mem_filter.1 h
  obtain ⟨l', _, rfl⟩ := List.mem_map.1 hl
  refine ⟨?_, List.length_take_le limit l'⟩
  rintro hnil
  rw [hnil] at hne
  cases hne

theorem kept_eq_self : kept limit ls = ls ↔ ∀ l ∈ ls, l ≠ [] ∧ l.length ≤ limit := by
  constructor
  · intro h l hl
    exact of_mem_kept (h ▸ hl)
  · intro h
    have hmap : ls.map (List.take limit) = ls.map id := by
      apply List.map_congr_left
      intro l hl
      exact List.take_of_length_le (h l hl).2
    rw [kept, hmap, List.map_id, List.filter_eq_self]
    intro l hl
    rw [Bool.not_eq_true', Bool.eq_false_iff, ne_eq, List.isEmpty_iff]
    exact (h l hl).1

theorem kept_lines : kept limit (as.splitOnP stop) = lines stop as ↔
    ∀ l ∈ lines stop as, l ≠ [] ∧ l.length ≤ limit := by
  rw [← kept_eq_self, lines, kept_closed]

theorem kept_flatten_length : (kept limit ls).flatten.length ≤ ls.flatten.length := by
  induction ls with
  | nil => exact Nat.le_refl _
  | cons l ls ih =>
    have hone : (kept limit [l]).flatten.length ≤ l.length := by
      rw [kept, List.map_singleton, List.filter_singleton]
      cases !(l.take limit).isEmpty with
      | false => exact Nat.zero_le l.length
      | true =>
        rw [cond_true, List.flatten_singleton, List.length_take]
        exact Nat.min_le_right limit l.length
    rw [kept_cons, List.flatten_append, List.flatten_cons, List.length_append, List.length_append]
    omega

theorem kept_pieces : kept limit (pieces stop limit [] as) = kept limit (as.splitOnP stop) := by
  rw [pieces_eq, kept, List.map_map]
  congr 1
  apply List.map_congr_left
  intro l _
  exact List.take_take.trans (by rw [Nat.min_self])

theorem kept_lines_snoc : kept limit (as.splitOnP stop) = lines stop (as ++ [a]) ↔
    (∀ l ∈ lines stop (as ++ [a]), l ≠ [] ∧ l.length ≤ limit) ∧ stop a = true := by
  by_cases ha : stop a = true
  · rw [lines_snoc ha, kept_eq_self]
    exact (and_iff_left ha).symm
  · refine iff_of_false (fun h => ?_) fun h => ha h.2
    have hlen := congrArg (fun ls => ls.flatten.length) h
    have hle : (kept limit (as.splitOnP stop)).flatten.length ≤ _ := kept_flatten_length
    have hlast : [a].filter (!stop ·) = [a] := List.filter_cons_of_pos (by simp [ha])
    simp only [lines_flatten, List.filter_append, hlast, List.length_append,
      List.length_singleton] at hlen
    rw [flatten_splitOnP] at hle
    omega

theorem mem_findIdxs {p : α → Bool} {n k : Nat} {as : List α} :
    n + k ∈ as.findIdxs p n ↔ ∃ a, as[k]? = some a ∧ p a = true := by
  rw [List.mem_findIdxs_iff_getElem_sub_pos, Nat.add_sub_cancel_left]
  constructor
  · rintro ⟨_, hk, hp⟩
    exact ⟨as[k], List.getElem?_eq_getElem hk, hp⟩
  · rintro ⟨a, ha, hp⟩
    obtain ⟨hk, rfl⟩ := List.getElem?_eq_some_iff.1 ha
    exact ⟨Nat.le_add_right n k, hk, hp⟩

theorem findIdxs_ne_nil {p : α → Bool} {n : Nat} {as : List α} :
    as.findIdxs p n ≠ [] ↔ ∃ a ∈ as, p a = true := by
  rw [ne_eq, List.findIdxs_eq_nil_iff]
  simp only [not_forall, Bool.not_eq_false, exists_prop]

/-- If every place found in `as` is found in `bs`, the two searches agree exactly if no place of
`bs` is missed. -/
theorem findIdxs_eq_iff {p : α → Bool} {q : β → Bool} {as : List α} {bs : List β} (n : Nat)
    (h : ∀ (k : Nat) a, as[k]? = some a → p a = true → ∃ b, bs[k]? = some b ∧ q b = true) :
    as.findIdxs p n = bs.findIdxs q n ↔
      ∀ (k : Nat) b, bs[k]? = some b → q b = true → ∃ a, as[k]? = some a ∧ p a = true := by
  constructor
  · intro he k b hb hq
    exact mem_findIdxs.1 (he ▸ mem_findIdxs.2 ⟨b, hb, hq⟩)
  · intro hall
    apply List.pairwise_findIdxs.eq_of_mem_iff List.pairwise_findIdxs
    intro i
    by_cases hi : n ≤ i
    · obtain ⟨k, rfl⟩ := Nat.exists_eq_add_of_le hi
      rw [mem_findIdxs, mem_findIdxs]
      constructor
      · rintro ⟨a, ha, hp⟩
        exact h k a ha hp
      · rintro ⟨b, hb, hq⟩
        exact hall k b hb hq
    · exact iff_of_false (fun hm => hi (List.ge_of_mem_findIdxs i hm))
        fun hm => hi (List.ge_of_mem_findIdxs i hm)

end

end Cuts
