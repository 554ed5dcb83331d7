import ChipOS.Fs.VolumeCalls
import Mathlib.Data.List.Induction

namespace ChipOS
open NameTree Run Words
set_option autoImplicit true

/-- Where a path leads, whether something is there or not. -/
def Volume.resolve (v : Volume) (path : CStr) : List CStr :=
  (if path.bytes.head? = some '/'.toUInt8 then [] else v.here) ++ path.components

section
variable {fs : Filesystem} {v : Volume}

theorem isPath_prefix (hp : fs.IsPath (p ++ q) d) : ∃ e, fs.IsPath p e := by
  induction q using List.reverseRecOn generalizing d with
  | nil => exact ⟨d, (List.append_nil p) ▸ hp⟩
  | append_singleton q s ih =>
    rw [← List.append_assoc] at hp
    obtain ⟨_, _, _, hparent⟩ := isPath_concat hp
    exact ih hparent

theorem isPath_inner (ht : TreeInv fs) (hp : fs.IsPath (p ++ [s] ++ q) d) (he : fs.IsPath p e) :
    (fs.files e).type = .directory := by
  obtain ⟨c, hc⟩ := isPath_prefix hp
  obtain ⟨hlive, _, _, hparent⟩ := isPath_concat hc
  cases ht.tree.path_inj hparent he
  exact ht.tree.parent_inner c hlive

theorem descends_isPath (ht : TreeInv fs) (hp : fs.IsPath p dir)
    (hdir : (fs.files dir).type = .directory) (hs : ∀ s ∈ names, '/'.toUInt8 ∉ s.bytes) :
    Descends fs dir names d ↔ fs.IsPath (p ++ names) d ∧ (fs.files d).type = .directory := by
  induction names generalizing p dir with
  | nil =>
    rw [List.append_nil]
    constructor
    · intro hd
      cases hd
      exact ⟨hp, hdir⟩
    · rintro ⟨hd, _⟩
      cases ht.tree.path_inj hp hd
      exact .here
  | cons s names ih =>
    obtain ⟨hslash, hrest⟩ := List.forall_mem_cons.1 hs
    have hcons : p ++ s :: names = p ++ [s] ++ names := List.append_cons p s names
    rw [hcons]
    constructor
    · intro hd
      cases hd with
      | @down _ _ e _ _ hf hty hd =>
        obtain ⟨hlive, hparent, hname⟩ := findFileInDir_some hf
        have hne : e ≠ 0 := by
          rintro rfl
          apply hslash
          rw [← hname, ht.root_name]
          exact List.mem_singleton_self _
        have he : fs.IsPath (p ++ [(fs.files e).name.toCStr]) e := by
          apply PathTo.snoc hlive hne
          have hparent' : fs.links.parent e = dir := hparent
          rw [hparent']
          exact hp
        rw [hname] at he
        exact (ih he hty hrest).1 hd
    · rintro ⟨hd, hty⟩
      obtain ⟨e, he⟩ := isPath_prefix hd
      obtain ⟨hlive, _, hname, hparent⟩ := isPath_concat he
      have hdown : findFileInDir fs dir s = some e :=
        (find_iff ht.tree).2 ⟨hlive, ht.tree.path_inj hparent hp, hname⟩
      have hinner : (fs.files e).type = .directory := by
        cases names with
        | nil =>
          rw [List.append_nil] at hd
          cases ht.tree.path_inj he hd
          exact hty
        | cons t names =>
          rw [List.append_cons] at hd
          exact isPath_inner ht hd he
      exact .down hdown hinner ((ih he hinner hrest).2 ⟨hd, hty⟩)

theorem Represents.resolve_iff (hr : Represents fs v) (hne : path.bytes ≠ [])
    (hlen : path.bytes.length < maxPath - 1) : fsResolvePath fs path = .ok (some d) ↔
      fs.IsPath (v.resolve path) d ∧ (fs.files d).type = .directory := by
  rw [fsResolvePath_iff hne hlen, Filesystem.pathStart, Volume.resolve]
  have hslash : ∀ s ∈ path.components, '/'.toUInt8 ∉ s.bytes := fun _ hs => mem_components hs
  by_cases hhead : path.bytes.head? = some '/'.toUInt8
  · rw [if_pos hhead, if_pos hhead, hr.paths.table.root]
    exact descends_isPath hr.tree .nil hr.tree.tree.root_inner hslash
  · rw [if_neg hhead, if_neg hhead]
    exact descends_isPath hr.tree hr.here hr.tree.current_directory hslash

theorem Represents.node_iff (hr : Represents fs v) :
    v.node p = some .directory ↔ ∃ d, fs.IsPath p d ∧ (fs.files d).type = .directory := by
  rw [hr.node]
  constructor
  · intro hn
    by_cases hp : ∃ d, fs.IsPath p d
    · obtain ⟨d, hd⟩ := hp
      rw [hr.tree.tree.at_path hd] at hn
      exact ⟨d, hd, node_directory.1 (Option.some.inj hn)⟩
    · rw [at_none fun d hd => hp ⟨d, hd⟩] at hn
      cases hn
  · rintro ⟨d, hd, hty⟩
    rw [hr.tree.tree.at_path hd, node_directory.2 hty]

theorem resolveLoop_total (hfuel : leftLength next < fuel) :
    ∃ r, resolveLoop fs fuel dir next = .ok r := by
  induction fuel generalizing dir next with
  | zero => exact absurd hfuel (Nat.not_lt_zero _)
  | succ fuel ih =>
    rw [resolveLoop]
    rcases strtok_spec next with ⟨htok, _⟩ | ⟨token, next', htok, _, hlt⟩
    · rw [htok]
      exact ⟨_, rfl⟩
    · rw [htok]
      simp only
      cases findFileInDir fs dir token with
      | none => exact ⟨_, rfl⟩
      | some e =>
        simp only
        split
        · exact ⟨_, rfl⟩
        · exact ih (by omega)

theorem fsResolvePath_total (hlen : path.bytes.length < maxPath - 1) :
    ∃ r, fsResolvePath fs path = .ok r := by
  rw [fsResolvePath]
  split
  · exact ⟨_, rfl⟩
  · rw [strncpy_short hlen (Nat.sub_le _ _)]
    exact resolveLoop_total (Nat.lt_succ_self _)

theorem Represents.resolve (hr : Represents fs v) (hne : path.bytes ≠ [])
    (hlen : path.bytes.length < maxPath - 1) :
    if v.node (v.resolve path) = some .directory then
      ∃ d, fsResolvePath fs path = .ok (some d) ∧ fs.IsPath (v.resolve path) d
    else fsResolvePath fs path = .ok none := by
  split
  · next hn =>
    obtain ⟨d, hd, hty⟩ := hr.node_iff.1 hn
    exact ⟨d, (hr.resolve_iff hne hlen).2 ⟨hd, hty⟩, hd⟩
  · next hn =>
    obtain ⟨r, he⟩ : ∃ r, fsResolvePath fs path = .ok r := fsResolvePath_total hlen
    cases r with
    | none => exact he
    | some d => exact absurd (hr.node_iff.2 ⟨d, (hr.resolve_iff hne hlen).1 he⟩) hn

end

end ChipOS
