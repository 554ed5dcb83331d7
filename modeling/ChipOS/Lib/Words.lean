import Mathlib.Data.List.TakeWhile
import Mathlib.Tactic.Common

namespace Words
set_option autoImplicit true

/-- The maximal runs of elements that are not separators. -/
def words (p : α → Bool) (as : List α) : List (List α) :=
  (as.splitOnP p).filter fun w => !w.isEmpty

variable {p : α → Bool}

theorem words_append (hp : p sep = true) :
    words p (as ++ sep :: bs) = words p as ++ words p bs := by
  rw [words, List.splitOnP_append_cons as bs hp, List.filter_append]
  rfl

theorem words_cons (hp : p sep = true) : words p (sep :: as) = words p as := by
  have happend : words p ([] ++ sep :: as) = words p [] ++ words p as := words_append hp
  exact happend

theorem words_single (h : ∀ a ∈ as, p a = false) (hne : as ≠ []) : words p as = [as] := by
  rw [words, List.splitOnP_eq_singleton h]
  cases as with
  | nil => exact absurd rfl hne
  | cons a as => rfl

theorem mem_words_single (h : ∀ a ∈ as, p a = false) (hw : w ∈ words p as) : w = as := by
  by_cases hne : as = []
  · subst hne
    cases hw
  · rw [words_single h hne] at hw
    exact List.mem_singleton.1 hw

theorem dropWhile_head {as : List α} (h : as.dropWhile p = a :: rest) : p a = false := by
  induction as with
  | nil => cases h
  | cons b as ih =>
    by_cases hb : p b = true
    · rw [List.dropWhile_cons_of_pos hb] at h
      exact ih h
    · rw [List.dropWhile_cons_of_neg hb] at h
      cases h
      exact Bool.eq_false_iff.2 hb

theorem words_dropWhile (p : α → Bool) (as : List α) : words p (as.dropWhile p) = words p as := by
  induction as with
  | nil => rfl
  | cons a as ih =>
    by_cases ha : p a = true
    · rw [List.dropWhile_cons_of_pos ha, ih, words_cons ha]
    · rw [List.dropWhile_cons_of_neg ha]

theorem words_first (ha : p a = false) : words p (a :: as) =
    (a :: as).takeWhile (!p ·) :: words p ((a :: as).dropWhile (!p ·)).tail := by
  have hsplit : (a :: as).takeWhile (!p ·) ++ (a :: as).dropWhile (!p ·) = a :: as :=
    List.takeWhile_append_dropWhile
  have hword : ∀ b ∈ (a :: as).takeWhile (!p ·), p b = false := by
    intro b hb
    have hnot := List.mem_takeWhile_imp (p := (!p ·)) hb
    simpa using hnot
  have hne : (a :: as).takeWhile (!p ·) ≠ [] := by
    rw [List.takeWhile_cons_of_pos (by rw [ha]; rfl)]
    exact List.cons_ne_nil _ _
  generalize hrest : (a :: as).dropWhile (!p ·) = rest at hsplit
  cases rest with
  | nil =>
    rw [List.append_nil] at hsplit
    rw [hsplit] at hword hne ⊢
    exact words_single hword hne
  | cons sep rest =>
    have hsep : p sep = true := by simpa using dropWhile_head hrest
    have happend : words p ((a :: as).takeWhile (!p ·) ++ sep :: rest) = _ := words_append hsep
    rw [hsplit, words_single hword hne] at happend
    exact happend

theorem exists_word_of_run (hrun : ∀ a ∈ run, p a = false) (hne : run ≠ []) (rest : List α) :
    ∃ w ∈ words p (run ++ rest), run.length ≤ w.length := by
  obtain ⟨a, as, rfl⟩ := List.exists_cons_of_ne_nil hne
  have hfirst : words p (a :: (as ++ rest)) = _ := words_first (hrun a List.mem_cons_self)
  refine ⟨_, hfirst ▸ List.mem_cons_self, ?_⟩
  have hsplit : a :: (as ++ rest) = (a :: as) ++ rest := rfl
  rw [hsplit, List.takeWhile_append_of_pos fun b hb => by rw [hrun b hb]; rfl, List.length_append]
  exact Nat.le_add_right _ _

theorem words_eq_nil : words p as = [] ↔ ∀ a ∈ as, p a = true := by
  induction as with
  | nil => exact iff_of_true rfl fun a ha => absurd ha List.not_mem_nil
  | cons a as ih =>
    by_cases ha : p a = true
    · rw [words_cons ha, ih, List.forall_mem_cons]
      exact (and_iff_right ha).symm
    · rw [words_first (Bool.eq_false_iff.2 ha), List.forall_mem_cons]
      exact iff_of_false (List.cons_ne_nil _ _) fun h => ha h.1

theorem mem_words (hw : w ∈ words p as) (ha : a ∈ w) : a ∈ as ∧ p a = false := by
  induction hn : as.length using Nat.strong_induction_on generalizing as with
  | _ n ih =>
    have hsub := List.dropWhile_sublist p (l := as)
    rw [← words_dropWhile] at hw
    cases hd : as.dropWhile p with
    | nil =>
      rw [hd] at hw
      cases hw
    | cons b bs =>
      rw [hd] at hw hsub
      rw [words_first (dropWhile_head hd)] at hw
      rcases List.mem_cons.1 hw with rfl | hw
      · have hnot := List.mem_takeWhile_imp (p := (!p ·)) ha
        exact ⟨hsub.mem ((List.takeWhile_sublist _).mem ha), by simpa using hnot⟩
      · have hrest := List.dropWhile_sublist (!p ·) (l := b :: bs)
        have hle := hsub.length_le
        have hle' := hrest.length_le
        rw [List.length_cons] at hle hle'
        have hshort : ((b :: bs).dropWhile (!p ·)).tail.length < n := by
          rw [List.length_tail]
          omega
        obtain ⟨hmem, hsep⟩ := ih _ hshort hw rfl
        exact ⟨hsub.mem (hrest.mem (List.mem_of_mem_tail hmem)), hsep⟩

end Words
