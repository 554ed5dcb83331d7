import ChipOS.Lib.Words
import Mathlib.Algebra.BigOperators.Group.List.Basic
import Mathlib.Algebra.Order.Ring.Nat
import Mathlib.Data.List.Infix

namespace Occurrences
open Words
set_option autoImplicit true

/-- The number of places in a list from which on it satisfies `p`. -/
def places (p : List α → Bool) (as : List α) : Nat := as.tails.countP p

/-- The list is not the start and the end of itself, but for the whole. So it occurs at no two places
that overlap. -/
def Unbordered (word : List α) : Prop :=
  ∀ k < word.length, 0 < k → ¬word.drop k <+: word

instance [DecidableEq α] {word : List α} : Decidable (Unbordered word) :=
  inferInstanceAs (Decidable (∀ k < word.length, 0 < k → ¬word.drop k <+: word))

/-- What is behind a separator makes no difference. -/
def Within (sep : α → Bool) (p : List α → Bool) : Prop :=
  ∀ as s bs, sep s = true → p (as ++ s :: bs) = p as

section
variable {p : List α → Bool} {sep : α → Bool} {word as : List α}

theorem places_nil (h : p [] = false) : places p [] = 0 := by
  rw [places, List.tails, List.countP_singleton, h]
  rfl

theorem places_cons (p : List α → Bool) (a : α) (as : List α) :
    places p (a :: as) = (p (a :: as)).toNat + places p as := by
  rw [places, List.tails_cons, List.countP_cons, Nat.add_comm]
  cases p (a :: as) <;> rfl

theorem places_skip {k : Nat} (h : ∀ j < k, p (as.drop j) = false) (hk : k ≤ as.length) :
    places p as = places p (as.drop k) := by
  induction k generalizing as with
  | zero => rfl
  | succ k ih =>
    cases as with
    | nil => cases hk
    | cons a as =>
      have hrest : places p as = places p (as.drop k) :=
        ih (fun j hj => h (j + 1) (Nat.succ_lt_succ hj)) (Nat.le_of_succ_le_succ hk)
      have hfirst : p (a :: as) = false := h 0 (Nat.succ_pos k)
      rw [places_cons, hfirst, hrest, List.drop_succ_cons]
      exact Nat.zero_add _

theorem places_eq_zero (h : ∀ j, p (as.drop j) = false) : places p as = 0 := by
  have hnil := h as.length
  rw [List.drop_length] at hnil
  rw [places_skip (fun j _ => h j) (Nat.le_refl _), List.drop_length, places_nil hnil]

theorem places_append (hw : Within sep p) (hs : sep s = true) (as bs : List α) :
    places p (as ++ s :: bs) = places p as + places p bs := by
  induction as with
  | nil =>
    have hnil := hw [] s bs hs
    rw [List.nil_append] at hnil
    have hone : places p [] = (p []).toNat := by
      rw [places, List.tails, List.countP_singleton]
      cases p [] <;> rfl
    rw [List.nil_append, places_cons, hnil, hone]
  | cons a as ih =>
    have hfirst := hw (a :: as) s bs hs
    rw [List.cons_append] at hfirst
    rw [List.cons_append, places_cons, places_cons, ih, hfirst, Nat.add_assoc]

theorem places_words (hw : Within sep p) (hnil : p [] = false) (as : List α) :
    places p as = ((words sep as).map (places p)).sum := by
  induction hn : as.length using Nat.strong_induction_on generalizing as with
  | _ n ih =>
    have hsplit : as.takeWhile (!sep ·) ++ as.dropWhile (!sep ·) = as :=
      List.takeWhile_append_dropWhile
    have hword : ∀ a ∈ as.takeWhile (!sep ·), sep a = false := by
      intro a ha
      have hnot := List.mem_takeWhile_imp (p := (!sep ·)) ha
      simpa using hnot
    have hfirst : places p (as.takeWhile (!sep ·)) =
        ((words sep (as.takeWhile (!sep ·))).map (places p)).sum := by
      by_cases hne : as.takeWhile (!sep ·) = []
      · rw [hne, places_nil hnil]
        rfl
      · rw [words_single hword hne, List.map_singleton, List.sum_singleton]
    cases hd : as.dropWhile (!sep ·) with
    | nil =>
      rw [hd, List.append_nil] at hsplit
      rwa [hsplit] at hfirst
    | cons s rest =>
      have hs : sep s = true := by simpa using dropWhile_head hd
      rw [hd] at hsplit
      have hlen := congrArg List.length hsplit
      rw [List.length_append, List.length_cons] at hlen
      have hrest : places p rest = ((words sep rest).map (places p)).sum :=
        ih rest.length (by omega) rest rfl
      rw [← hsplit, places_append hw hs, words_append hs, List.map_append, List.sum_append, hfirst,
        hrest]

theorem sum_map_count [BEq β] [LawfulBEq β] (f : β → Nat) (b : β) (bs : List β) :
    (bs.map f).sum = bs.count b * f b + ((bs.filter (· != b)).map f).sum := by
  induction bs with
  | nil => rw [List.count_nil, Nat.zero_mul]; rfl
  | cons c bs ih =>
    rw [List.map_cons, List.sum_cons, ih]
    by_cases hc : c = b
    · subst hc
      rw [List.count_cons_self, Nat.succ_mul, List.filter_cons_of_neg (by rw [bne_self_eq_false]; decide)]
      omega
    · rw [List.count_cons_of_ne hc, List.filter_cons_of_pos (p := (· != b)) (bne_iff_ne.2 hc),
        List.map_cons, List.sum_cons]
      omega

/-- A word that does not overlap itself occurs nowhere inside itself. -/
theorem Unbordered.not_inside (hu : Unbordered word) (h : word <+: as) {k : Nat} (hpos : 0 < k)
    (hk : k < word.length) : ¬word <+: as.drop k := by
  intro hin
  have hdrop : word.drop k <+: as.drop k := h.drop k
  have hle : (word.drop k).length ≤ word.length := by
    rw [List.length_drop]
    exact Nat.sub_le _ _
  exact hu k hk hpos (List.prefix_of_prefix_length_le hdrop hin hle)

theorem Unbordered.places (hu : Unbordered word) (hne : word ≠ [])
    (hp : ∀ t, p t = true → word <+: t) (h : word <+: as) :
    places p as = (p as).toNat + places p (as.drop word.length) := by
  cases as with
  | nil => exact absurd (List.prefix_nil.1 h) hne
  | cons a as =>
    have hlen := h.length_le
    rw [List.length_cons] at hlen
    obtain ⟨k, hk⟩ : ∃ k, word.length = k + 1 :=
      Nat.exists_eq_add_one.2 (List.length_pos_iff.2 hne)
    have hskip : Occurrences.places p as = Occurrences.places p (as.drop k) := by
      refine places_skip (fun j hj => ?_) (by omega)
      rw [← List.drop_succ_cons (a := a), Bool.eq_false_iff]
      exact fun hpj => hu.not_inside h (Nat.succ_pos j) (by omega) (hp _ hpj)
    rw [places_cons, hskip, hk, List.drop_succ_cons]

theorem prefix_append_iff (hword : ∀ c ∈ word, sep c = false) (hs : sep s = true)
    (as bs : List α) : word <+: as ++ s :: bs ↔ word <+: as := by
  refine ⟨fun h => ?_, fun h => h.trans (List.prefix_append _ _)⟩
  rcases Nat.lt_or_ge as.length word.length with hlt | hle
  swap
  · exact List.prefix_of_prefix_length_le h (List.prefix_append _ _) hle
  · have hlast : as ++ [s] <+: word := by
      have hstart : as ++ [s] <+: as ++ s :: bs :=
        (List.prefix_append_right_inj as).2 ⟨bs, rfl⟩
      refine List.prefix_of_prefix_length_le hstart h ?_
      rw [List.length_append, List.length_singleton]
      exact hlt
    have hmem : s ∈ word := hlast.subset (List.mem_append_right _ List.mem_cons_self)
    exact absurd ((hword s hmem).symm.trans hs) Bool.false_ne_true

theorem within_isPrefixOf [BEq α] [LawfulBEq α] (hword : ∀ c ∈ word, sep c = false) :
    Within sep word.isPrefixOf := by
  intro as s bs hs
  rw [Bool.eq_iff_iff, List.isPrefixOf_iff_prefix, List.isPrefixOf_iff_prefix]
  exact prefix_append_iff hword hs as bs

theorem Within.and {q : List α → Bool} (hp : Within sep p) (hq : Within sep q) :
    Within sep fun t => p t && q t := by
  intro as s bs hs
  exact congrArg₂ _ (hp as s bs hs) (hq as s bs hs)

theorem Within.not (hp : Within sep p) : Within sep fun t => !p t := by
  intro as s bs hs
  exact congrArg _ (hp as s bs hs)

theorem places_congr {q : List α → Bool} (h : ∀ t, t <:+ as → p t = q t) :
    places p as = places q as := by
  apply List.countP_congr
  intro t ht
  rw [h t ((List.mem_tails t as).1 ht)]

end

end Occurrences
