import Mathlib.Tactic.Common

namespace NameTree
set_option autoImplicit true

/-- The parent links of a node lead to the root. -/
inductive Reaches (parent : α → α) (root : α) : α → Prop
  | base : Reaches parent root root
  | up : Reaches parent root (parent a) → Reaches parent root a

theorem Reaches.map {parent : α → α} {parent' : β → β} {f : α → β} {P : α → Prop}
    (h : Reaches parent root a) (ha : P a) (hP : ∀ a, P a → P (parent a))
    (hf : ∀ a, P a → parent' (f a) = f (parent a)) : Reaches parent' (f root) (f a) := by
  induction h with
  | base => exact .base
  | up _ ih =>
    apply Reaches.up
    rw [hf _ ha]
    exact ih (hP _ ha)

/-- Nodes with a name and a link to their parent. -/
structure Links (α ν : Type*) where
  live : α → Prop
  inner : α → Prop
  parent : α → α
  name : α → ν

/-- The live nodes form a tree whose root is its own parent. Only inner nodes have children,
and two children of one node have different names. -/
structure IsTree (l : Links α ν) (root : α) : Prop where
  root_live : l.live root
  root_inner : l.inner root
  root_parent : l.parent root = root
  parent_live : ∀ a, l.live a → l.live (l.parent a)
  parent_inner : ∀ a, l.live a → l.inner (l.parent a)
  reaches : ∀ a, l.live a → Reaches l.parent root a
  name_inj : ∀ a b, l.live a → l.live b → l.parent a = l.parent b → l.name a = l.name b → a = b

/-- `f` carries the live nodes of `l` onto those of `l'`. -/
structure Relabels (f : α → β) (l : Links α ν) (l' : Links β ν) : Prop where
  live : ∀ a, l.live a → l'.live (f a)
  onto : ∀ b, l'.live b → ∃ a, l.live a ∧ f a = b
  inj : ∀ a b, l.live a → l.live b → f a = f b → a = b
  inner : ∀ a, l.live a → l.inner a → l'.inner (f a)
  parent : ∀ a, l.live a → l'.parent (f a) = f (l.parent a)
  name : ∀ a, l.live a → l'.name (f a) = l.name a

section
variable {l : Links α ν}

theorem IsTree.relabel {l' : Links β ν} (h : IsTree l root) (hf : Relabels f l l') :
    IsTree l' (f root) where
  root_live := hf.live _ h.root_live
  root_inner := hf.inner _ h.root_live h.root_inner
  root_parent := by rw [hf.parent _ h.root_live, h.root_parent]
  parent_live := by
    intro b hb
    obtain ⟨a, ha, rfl⟩ := hf.onto b hb
    rw [hf.parent a ha]
    exact hf.live _ (h.parent_live a ha)
  parent_inner := by
    intro b hb
    obtain ⟨a, ha, rfl⟩ := hf.onto b hb
    rw [hf.parent a ha]
    exact hf.inner _ (h.parent_live a ha) (h.parent_inner a ha)
  reaches := by
    intro b hb
    obtain ⟨a, ha, rfl⟩ := hf.onto b hb
    exact (h.reaches a ha).map ha h.parent_live hf.parent
  name_inj := by
    intro b b' hb hb' hp hn
    obtain ⟨a, ha, rfl⟩ := hf.onto b hb
    obtain ⟨a', ha', rfl⟩ := hf.onto b' hb'
    rw [hf.parent a ha, hf.parent a' ha'] at hp
    rw [hf.name a ha, hf.name a' ha'] at hn
    have hp' := hf.inj _ _ (h.parent_live a ha) (h.parent_live a' ha') hp
    rw [h.name_inj a a' ha ha' hp' hn]

theorem IsTree.erase (h : IsTree l root) (hleaf : ∀ a, l.live a → l.parent a ≠ leaf) :
    IsTree { l with live := fun a => l.live a ∧ a ≠ leaf } root where
  root_live := by
    refine ⟨h.root_live, fun hr => hleaf root h.root_live ?_⟩
    rw [h.root_parent, hr]
  root_inner := h.root_inner
  root_parent := h.root_parent
  parent_live := fun a ha => ⟨h.parent_live a ha.1, hleaf a ha.1⟩
  parent_inner := fun a ha => h.parent_inner a ha.1
  reaches := fun a ha => h.reaches a ha.1
  name_inj := fun a b ha hb => h.name_inj a b ha.1 hb.1

structure Inserts (l : Links α ν) (new : α) (l' : Links α ν) : Prop where
  fresh : ¬l.live new
  live : ∀ a, l'.live a ↔ l.live a ∨ a = new
  inner : ∀ a, l.live a → l.inner a → l'.inner a
  parent : ∀ a, l.live a → l'.parent a = l.parent a
  name : ∀ a, l.live a → l'.name a = l.name a

theorem IsTree.insert {l' : Links α ν} (h : IsTree l root) (hl : Inserts l new l')
    (hlive : l.live (l'.parent new)) (hinner : l.inner (l'.parent new))
    (hname : ∀ a, l.live a → l.parent a = l'.parent new → l.name a ≠ l'.name new) :
    IsTree l' root := by
  have hreach : ∀ a, l.live a → Reaches l'.parent root a :=
    fun a ha => (h.reaches a ha).map (f := id) ha h.parent_live hl.parent
  refine ⟨(hl.live _).2 (.inl h.root_live), hl.inner _ h.root_live h.root_inner, ?_, ?_, ?_, ?_, ?_⟩
  · rw [hl.parent _ h.root_live, h.root_parent]
  · intro a ha
    rcases (hl.live a).1 ha with ha | rfl
    · rw [hl.parent a ha]
      exact (hl.live _).2 (.inl (h.parent_live a ha))
    · exact (hl.live _).2 (.inl hlive)
  · intro a ha
    rcases (hl.live a).1 ha with ha | rfl
    · rw [hl.parent a ha]
      exact hl.inner _ (h.parent_live a ha) (h.parent_inner a ha)
    · exact hl.inner _ hlive hinner
  · intro a ha
    rcases (hl.live a).1 ha with ha | rfl
    · exact hreach a ha
    · exact .up (hreach _ hlive)
  · intro a b ha hb hp hn
    rcases (hl.live a).1 ha with ha | rfl <;> rcases (hl.live b).1 hb with hb | rfl
    · rw [hl.parent a ha, hl.parent b hb] at hp
      rw [hl.name a ha, hl.name b hb] at hn
      exact h.name_inj a b ha hb hp hn
    · rw [hl.parent a ha] at hp
      rw [hl.name a ha] at hn
      exact absurd hn (hname a ha hp)
    · rw [hl.parent b hb] at hp
      rw [hl.name b hb] at hn
      exact absurd hn.symm (hname b hb hp.symm)
    · rfl

end

end NameTree
