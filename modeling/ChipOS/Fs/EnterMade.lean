import ChipOS.Fs.Resolve

namespace ChipOS
open NameTree Run Words
set_option autoImplicit true

/-- The links with a directory `name`, made in the current directory, in the next slot. -/
def Filesystem.linksWith (fs : Filesystem) (name : CStr) : Links Nat CStr :=
  { fs.links with
    parent := Function.update fs.links.parent fs.fileCount fs.currentDir
    name := Function.update fs.links.name fs.fileCount name }

/-- The path that `rebuild_current_path` will make for a directory `name` made in the current
directory. -/
def Filesystem.newPath (fs : Filesystem) (name : CStr) : CStr :=
  slash.append (joinNames ((fs.linksWith name).up fs.rootDir 32 fs.fileCount).reverse)

/-- `cd name` enters the directory `d` and `fs_resolve_path` finds it. -/
def BothReach (fs : Filesystem) (name : CStr) (d : Nat) : Prop :=
  Enters fs name d ∧ fsResolvePath fs name = .ok (some d)

/-- When they do right after `mkdir name`, by the shape of the name. -/
def MadeReached (fs : Filesystem) (name : CStr) : Prop :=
  if name = dot then fs.currentDir = fs.fileCount
  else if name = dotDot then
    (fs.currentDir = fs.fileCount ∨ (fs.files fs.currentDir).parentId = fs.fileCount) ∧
      (fs.newPath name).bytes.length ≤ 255
  else if '/'.toUInt8 ∈ name.bytes then
    (∀ b ∈ name.bytes, b = '/'.toUInt8) ∧ fs.rootDir = fs.fileCount
  else (fs.newPath name).bytes.length ≤ 255

theorem components_nil_iff {path : CStr} :
    path.components = [] ↔ ∀ b ∈ path.bytes, b = '/'.toUInt8 := by
  rw [← List.map_eq_nil_iff (f := CStr.bytes), components_bytes, words_eq_nil]
  exact forall₂_congr fun b _ => isSlash_iff

section
variable {fs fs₁ : Filesystem}

/-- What `mkdir` leaves: the new directory in the next slot, found by its name. -/
structure Made (fs : Filesystem) (name : CStr) (fs₁ : Filesystem) : Prop where
  nonempty : name.bytes ≠ []
  short : name.bytes.length < maxFilename
  currentDir : fs₁.currentDir = fs.currentDir
  rootDir : fs₁.rootDir = fs.rootDir
  parents : fs₁.links.parent = (fs.linksWith name).parent
  names : fs₁.links.name = (fs.linksWith name).name
  has : fs₁.Has name fs.fileCount

theorem made_of (he : fsMakeDirectory fs name = (fsSuccess, fs₁)) : Made fs name fs₁ := by
  have hvalid : ¬(name.bytes.length = 0 ∨ name.bytes.length ≥ maxFilename) := by
    intro h
    rw [fsMakeDirectory, dif_pos h] at he
    cases he
  rcases fsMakeDirectory_cases he with ⟨hneg, _⟩ | ⟨_, entry, h, hn, rfl⟩
  · exact absurd rfl (ne_success hneg)
  have hparents := Function.comp_update FileEntry.parentId fs.files fs.fileCount entry
  have hnames := Function.comp_update (fun e : FileEntry => e.name.toCStr) fs.files fs.fileCount entry
  rw [hn.parent] at hparents
  rw [hn.name] at hnames
  exact ⟨fun hnil => hvalid (.inl (congrArg List.length hnil)), by omega, rfl, rfl, hparents,
    hnames, hn.find (h := h), hn.added_type (h := h)⟩

theorem Made.fits (hm : Made fs name fs₁) :
    fs₁.Fits fs.fileCount ↔ (fs.newPath name).bytes.length ≤ 255 := by
  rw [Filesystem.Fits, Filesystem.pathString, up_congr hm.parents hm.names, hm.rootDir]
  exact Nat.lt_succ_iff

theorem Made.currentParent (hm : Made fs name fs₁) :
    (fs₁.files fs₁.currentDir).parentId = fs.fileCount ↔
      fs.currentDir = fs.fileCount ∨ (fs.files fs.currentDir).parentId = fs.fileCount := by
  have hparent : (fs₁.files fs₁.currentDir).parentId =
      Function.update fs.links.parent fs.fileCount fs.currentDir fs.currentDir := by
    rw [hm.currentDir]
    exact congrFun hm.parents fs.currentDir
  rw [hparent]
  by_cases hc : fs.currentDir = fs.fileCount
  · rw [hc, Function.update_self]
    exact iff_of_true rfl (.inl rfl)
  · rw [Function.update_of_ne hc]
    exact (or_iff_right hc).symm

theorem Made.resolve (hm : Made fs name fs₁) (hs : '/'.toUInt8 ∉ name.bytes) :
    fsResolvePath fs₁ name = .ok (some fs.fileCount) := by
  have hmax : maxFilename < maxPath - 1 := by decide
  exact (resolve_name hm.nonempty (Nat.lt_trans hm.short hmax) hs).2 hm.has

theorem Made.resolve_slash (hm : Made fs name fs₁) (hs : '/'.toUInt8 ∈ name.bytes) :
    fsResolvePath fs₁ name = .ok (some fs.fileCount) ↔
      (∀ b ∈ name.bytes, b = '/'.toUInt8) ∧ fs.rootDir = fs.fileCount := by
  have hmax : maxFilename < maxPath - 1 := by decide
  rw [fsResolvePath_iff hm.nonempty (Nat.lt_trans hm.short hmax), ← components_nil_iff]
  by_cases hnil : name.components = []
  · have hstart : fs₁.pathStart name = fs.rootDir :=
      (if_pos (components_nil_head hm.nonempty hnil)).trans hm.rootDir
    rw [hnil, hstart]
    constructor
    · intro hd
      generalize hend : fs.fileCount = d at hd
      cases hd
      exact ⟨rfl, rfl⟩
    · rintro ⟨_, hd⟩
      rw [hd]
      exact .here
  · refine iff_of_false (fun hd => ?_) fun h => hnil h.1
    have hlast := hd.last hnil
    rw [(findFileInDir_some hm.has.1).2.2] at hlast
    exact mem_components hlast hs

theorem Made.reached (ht : InTable fs₁) (hm : Made fs name fs₁) :
    BothReach fs₁ name fs.fileCount ↔ MadeReached fs name := by
  rw [BothReach, MadeReached]
  split
  · next hdot =>
    subst hdot
    rw [and_iff_left (hm.resolve (by decide)), enters_iff ht, cdTarget_dot, hm.currentDir]
    constructor
    · rintro (⟨_, hd⟩ | ⟨he, _⟩)
      · exact hd.symm
      · cases he
    · intro hd
      exact .inl ⟨rfl, hd.symm⟩
  split
  · next hdotDot =>
    subst hdotDot
    rw [and_iff_left (hm.resolve (by decide)), enters_iff ht, cdTarget_dotDot, hm.fits,
      ← hm.currentParent]
    constructor
    · rintro (⟨he, _⟩ | ⟨he, hfits⟩)
      · cases he
      · exact ⟨Option.some.inj (Prod.mk.inj he).2, hfits⟩
    · rintro ⟨hd, hfits⟩
      exact .inr ⟨by rw [hd], hfits⟩
  next hdot hdotDot =>
  rw [enters_name ht hm.nonempty hdot hdotDot, and_iff_right hm.has]
  split
  · next hs =>
    rw [hm.resolve_slash hs]
    refine and_iff_right_of_imp fun h => ?_
    rw [← h.2, ← hm.rootDir]
    exact rootDir_fits fs₁
  · next hs => rw [and_iff_left (hm.resolve hs), hm.fits]

end

/-- In a reachable state `cd` enters a directory just made and `fs_resolve_path` finds it, unless
its name means something else to them or its path does not fit `current_path`. -/
theorem made_entered (hr : Reach fsStep (fsInit t) fs)
    (he : fsMakeDirectory fs name = (fsSuccess, fs₁)) :
    BothReach fs₁ name fs.fileCount ↔ MadeReached fs name := by
  have ht : InTable fs₁ := by
    have hmade := inTable_makeDirectory (inTable_reach hr) name
    rwa [he] at hmade
  exact (made_of he).reached ht

theorem made_entered_new : BothReach (fsMakeDirectory (fsInit 0) (.ofString "a")).2 (.ofString "a") 4 ↔
    MadeReached (fsInit 0) (.ofString "a") :=
  made_entered (t := 0) .refl rfl

/-- After `mkdir ..` in the root `cd ..` stays in the root, and after `mkdir a/b` the new directory
is not found by `fs_resolve_path`. -/
theorem made_not_entered : (∃ fs₁ fs₂, fsMakeDirectory (fsInit 0) dotDot = (fsSuccess, fs₁) ∧
      fsChangeDirectory fs₁ dotDot = .ok (fsSuccess, fs₂) ∧ fs₂.currentDir = 0 ∧
      (fsInit 0).fileCount = 4) ∧
    ∃ fs₁, fsMakeDirectory (fsInit 0) (.ofString "a/b") = (fsSuccess, fs₁) ∧
      fsResolvePath fs₁ (.ofString "a/b") = .ok none :=
  ⟨⟨_, _, rfl, rfl, rfl, rfl⟩, _, rfl, rfl⟩

end ChipOS
