import ChipOS.Lib.NameTree
import Mathlib.Data.Set.Card
import Mathlib.Logic.Function.Basic

namespace NameTree
set_option autoImplicit true

/-- The names on the way from the root down to a node. -/
inductive PathTo (l : Links α ν) (root : α) : List ν → α → Prop
  | nil : PathTo l root [] root
  | snoc : l.live a → a ≠ root → PathTo l root p (l.parent a) → PathTo l root (p ++ [l.name a]) a

section
variable {l : Links α ν}

theorem PathTo.unique (hp : PathTo l root p a) (hq : PathTo l root q a) : p = q := by
  induction hp generalizing q with
  | nil =>
    cases hq with
    | nil => rfl
    | snoc _ hne _ => exact absurd rfl hne
  | snoc _ hne _ ih =>
    cases hq with
    | nil => exact absurd rfl hne
    | snoc _ _ hq => rw [ih hq]

theorem PathTo.live (h : IsTree l root) (hp : PathTo l root p a) : l.live a := by
  cases hp with
  | nil => exact h.root_live
  | snoc ha _ _ => exact ha

theorem IsTree.exists_path (h : IsTree l root) (ha : l.live a) : ∃ p, PathTo l root p a := by
  have hr := h.reaches a ha
  induction hr with
  | base => exact ⟨[], .nil⟩
  | @up a _ ih =>
    by_cases he : a = root
    · exact ⟨[], he ▸ .nil⟩
    · obtain ⟨p, hp⟩ := ih (h.parent_live a ha)
      exact ⟨p ++ [l.name a], .snoc ha he hp⟩

/-- A path leads to one node only, since the names of siblings differ. -/
theorem IsTree.path_inj (h : IsTree l root) (hp : PathTo l root p a) (hq : PathTo l root p b) :
    a = b := by
  induction hp generalizing b with
  | nil =>
    generalize hnil : ([] : List ν) = q at hq
    cases hq with
    | nil => rfl
    | snoc _ _ _ => exact absurd hnil (by simp)
  | @snoc a p ha hne hp ih =>
    generalize hcons : p ++ [l.name a] = q at hq
    cases hq with
    | nil => exact absurd hcons (by simp)
    | snoc hb _ hq =>
      obtain ⟨rfl, hname⟩ := List.append_inj' hcons rfl
      exact h.name_inj a b ha hb (ih hq) (List.singleton_inj.1 hname)

theorem PathTo.ne_nil (hp : PathTo l root p a) (hne : a ≠ root) : p ≠ [] := by
  cases hp with
  | nil => exact absurd rfl hne
  | snoc _ _ _ => simp

/-- The names of at most `n` nodes on the way up to the root, the node's own name first. -/
def Links.up [DecidableEq α] (l : Links α ν) (root : α) : Nat → α → List ν
  | 0, _ => []
  | n + 1, a => if a = root then [] else l.name a :: l.up root n (l.parent a)

theorem PathTo.up [DecidableEq α] (hp : PathTo l root p a) (n : Nat) :
    l.up root n a = p.reverse.take n := by
  induction hp generalizing n with
  | nil =>
    cases n with
    | zero => rfl
    | succ n => exact if_pos rfl
  | @snoc a p _ hne _ ih =>
    cases n with
    | zero => rfl
    | succ n =>
      rw [Links.up, if_neg hne, ih, List.reverse_append, List.reverse_singleton,
        List.singleton_append, List.take_succ_cons]

/-- The same links with every node live. -/
def Links.all (l : Links α ν) : Links α ν := { l with live := fun _ => True }

theorem PathTo.all (hp : PathTo l root p a) : PathTo l.all root p a := by
  induction hp with
  | nil => exact .nil
  | snoc _ hne _ ih => exact .snoc trivial hne ih

theorem up_congr [DecidableEq α] {l' : Links α ν} (hp : l'.parent = l.parent)
    (hn : l'.name = l.name) (n : Nat) (a : α) : l'.up root n a = l.up root n a := by
  induction n generalizing a with
  | zero => rfl
  | succ n ih => rw [Links.up, Links.up, hp, hn, ih]

theorem up_all [DecidableEq α] (n : Nat) (a : α) : l.all.up root n a = l.up root n a :=
  have hp : l.all.parent = l.parent := rfl
  up_congr hp rfl n a

theorem pathTo_up [DecidableEq α] {n : Nat} (h : (l.up root n a).length < n) :
    PathTo l.all root (l.up root n a).reverse a := by
  induction n generalizing a with
  | zero => exact absurd h (Nat.not_lt_zero _)
  | succ n ih =>
    rw [Links.up] at h ⊢
    by_cases hroot : a = root
    · rw [if_pos hroot, hroot]
      exact .nil
    · rw [if_neg hroot, List.length_cons] at h
      rw [if_neg hroot, List.reverse_cons]
      exact .snoc trivial hroot (ih (Nat.lt_of_succ_lt_succ h))

/-- What the nodes of a tree hold, as a map from their paths. -/
noncomputable def Links.at (l : Links α ν) (root : α) (info : α → β) (p : List ν) : Option β :=
  open Classical in if h : ∃ a, PathTo l root p a then some (info h.choose) else none

theorem IsTree.at_path (h : IsTree l root) (hp : PathTo l root p a) :
    l.at root info p = some (info a) := by
  have hex : ∃ a, PathTo l root p a := ⟨a, hp⟩
  rw [Links.at, dif_pos hex, h.path_inj hex.choose_spec hp]

theorem at_none (hp : ∀ a, ¬PathTo l root p a) : l.at root info p = none :=
  dif_neg fun ⟨a, ha⟩ => hp a ha

theorem IsTree.at_ne_none {info : α → β} (h : IsTree l root) :
    l.at root info p ≠ none ↔ ∃ a, PathTo l root p a := by
  constructor
  · intro hp
    by_contra hnone
    exact hp (at_none fun a ha => hnone ⟨a, ha⟩)
  · rintro ⟨a, ha⟩
    rw [h.at_path ha]
    exact Option.some_ne_none _

theorem IsTree.ncard_at {info : α → β} (h : IsTree l root) :
    Set.ncard {p | l.at root info p ≠ none} = Set.ncard {a | l.live a} := by
  symm
  apply Set.ncard_congr fun a ha => (h.exists_path ha).choose
  · intro a ha
    exact h.at_ne_none.2 ⟨a, (h.exists_path ha).choose_spec⟩
  · intro a b ha hb he
    have hpath := (h.exists_path ha).choose_spec
    rw [he] at hpath
    exact h.path_inj hpath (h.exists_path hb).choose_spec
  · intro p hp
    obtain ⟨a, ha⟩ := h.at_ne_none.1 hp
    have hlive := ha.live h
    exact ⟨a, hlive, (h.exists_path hlive).choose_spec.unique ha⟩

theorem IsTree.at_congr {l' : Links β ν} {info : α → γ} {info' : β → γ} (h : IsTree l root)
    (h' : IsTree l' root')
    (hto : ∀ a, PathTo l root p a → ∃ b, PathTo l' root' p b ∧ info' b = info a)
    (hof : ∀ b, PathTo l' root' p b → ∃ a, PathTo l root p a) :
    l'.at root' info' p = l.at root info p := by
  by_cases hp : ∃ a, PathTo l root p a
  · obtain ⟨a, ha⟩ := hp
    obtain ⟨b, hb, he⟩ := hto a ha
    rw [h.at_path ha, h'.at_path hb, he]
  · rw [at_none fun a ha => hp ⟨a, ha⟩, at_none fun b hb => hp (hof b hb)]

theorem PathTo.relabel {l' : Links β ν} (h : IsTree l root) (hf : Relabels f l l')
    (hp : PathTo l root p a) : PathTo l' (f root) p (f a) := by
  induction hp with
  | nil => exact .nil
  | @snoc a p ha hne _ ih =>
    rw [← hf.name a ha]
    apply PathTo.snoc (hf.live a ha)
    · intro he
      exact hne (hf.inj a root ha h.root_live he)
    · rwa [hf.parent a ha]

/-- Renumbering the nodes changes no path and nothing they hold. -/
theorem IsTree.at_relabel {l' : Links β ν} {info : α → γ} {info' : β → γ} (h : IsTree l root)
    (hf : Relabels f l l') (hi : ∀ a, l.live a → info' (f a) = info a) :
    l'.at (f root) info' = l.at root info := by
  funext p
  apply h.at_congr (h.relabel hf)
  · intro a ha
    exact ⟨f a, ha.relabel h hf, hi a (ha.live h)⟩
  · intro b hb
    obtain ⟨a, ha, rfl⟩ := hf.onto b (hb.live (h.relabel hf))
    obtain ⟨q, hq⟩ := h.exists_path ha
    exact ⟨a, hb.unique (hq.relabel h hf) ▸ hq⟩

theorem PathTo.erase (hleaf : ∀ a, l.live a → l.parent a ≠ leaf) (hp : PathTo l root p a)
    (hne : a ≠ leaf) : PathTo { l with live := fun a => l.live a ∧ a ≠ leaf } root p a := by
  induction hp with
  | nil => exact .nil
  | @snoc a p ha hroot _ ih => exact .snoc ⟨ha, hne⟩ hroot (ih (hleaf a ha))

theorem PathTo.of_erase
    (hp : PathTo { l with live := fun a => l.live a ∧ a ≠ leaf } root p a) :
    PathTo l root p a := by
  induction hp with
  | nil => exact .nil
  | snoc ha hroot _ ih => exact .snoc ha.1 hroot ih

theorem IsTree.at_erase [DecidableEq ν] {info : α → β} (h : IsTree l root)
    (hleaf : ∀ a, l.live a → l.parent a ≠ leaf) (hp : PathTo l root p leaf) :
    Links.at { l with live := fun a => l.live a ∧ a ≠ leaf } root info =
      Function.update (l.at root info) p none := by
  have herase := h.erase hleaf
  funext q
  by_cases he : q = p
  · subst he
    rw [Function.update_self]
    apply at_none
    intro a ha
    have hroot : root ≠ leaf := fun hr => hleaf root h.root_live (h.root_parent.trans hr)
    cases h.path_inj ha.of_erase hp
    exact (ha.live herase).2 rfl
  · rw [Function.update_of_ne he]
    apply h.at_congr herase
    · intro a ha
      refine ⟨a, ha.erase hleaf ?_, rfl⟩
      rintro rfl
      exact he (ha.unique hp)
    · intro a ha
      exact ⟨a, ha.of_erase⟩

theorem PathTo.insert {l' : Links α ν} (hl : Inserts l new l')
    (hp : PathTo l root p a) : PathTo l' root p a := by
  induction hp with
  | nil => exact .nil
  | @snoc a p ha hroot _ ih =>
    rw [← hl.name a ha]
    exact .snoc ((hl.live a).2 (.inl ha)) hroot (hl.parent a ha ▸ ih)

theorem PathTo.of_insert {l' : Links α ν} (h : IsTree l root) (hl : Inserts l new l')
    (hp : PathTo l' root p a) (ha : l.live a) : PathTo l root p a := by
  obtain ⟨q, hq⟩ := h.exists_path ha
  rwa [hp.unique (hq.insert hl)]

/-- A new node adds its path to the map. -/
theorem IsTree.at_insert [DecidableEq ν] {l' : Links α ν} {info info' : α → β}
    (h : IsTree l root) (hl : Inserts l new l') (h' : IsTree l' root)
    (hi : ∀ a, l.live a → info' a = info a) (hp : PathTo l' root p new) :
    l'.at root info' = Function.update (l.at root info) p (some (info' new)) := by
  funext q
  by_cases he : q = p
  · subst he
    rw [Function.update_self, h'.at_path hp]
  · rw [Function.update_of_ne he]
    apply h.at_congr h'
    · intro a ha
      exact ⟨a, ha.insert hl, hi a (ha.live h)⟩
    · intro a ha
      refine ⟨a, ha.of_insert h hl ?_⟩
      rcases (hl.live a).1 (ha.live h') with hlive | rfl
      · exact hlive
      · exact absurd (ha.unique hp) he

end

end NameTree
