import ChipOS.Fs.PathBuffers
import ChipOS.Lib.Words

namespace ChipOS
open Run Words
set_option autoImplicit true

def isSlash (b : UInt8) : Bool := slash.bytes.contains b

theorem isSlash_iff : isSlash b = true ↔ b = '/'.toUInt8 := by
  rw [isSlash, List.contains_iff_mem]
  exact List.mem_singleton

/-- The names between the slashes of a path. -/
def CStr.components (path : CStr) : List CStr :=
  (words isSlash path.bytes).attach.map fun w =>
    ⟨w.1, fun h => path.no_nul (mem_words w.2 h).1⟩

theorem components_bytes (path : CStr) :
    path.components.map CStr.bytes = words isSlash path.bytes := by
  rw [CStr.components, List.map_map]
  exact List.attach_map_subtype_val _

theorem components_eq {path : CStr} (h : names.map CStr.bytes = words isSlash path.bytes) :
    path.components = names := by
  have hmap := (components_bytes path).trans h.symm
  exact (List.map_inj_right fun _ _ he => CStr.ext_bytes he).1 hmap

theorem components_nil {path : CStr} (h : words isSlash path.bytes = []) : path.components = [] :=
  components_eq h.symm

theorem components_single {path : CStr} (hne : path.bytes ≠ [])
    (hs : '/'.toUInt8 ∉ path.bytes) : path.components = [path] := by
  apply components_eq
  rw [words_single _ hne]
  · rfl
  · intro b hb
    rw [Bool.eq_false_iff]
    intro hslash
    exact hs (isSlash_iff.1 hslash ▸ hb)

theorem mem_components {path name : CStr} (hn : name ∈ path.components) :
    '/'.toUInt8 ∉ name.bytes := by
  intro hm
  have hw : name.bytes ∈ words isSlash path.bytes := by
    rw [← components_bytes]
    exact List.mem_map_of_mem hn
  have hslash : isSlash '/'.toUInt8 = true := rfl
  exact absurd (mem_words hw hm).2 (by rw [hslash]; decide)

theorem components_nil_head {path : CStr} (hne : path.bytes ≠ []) (hc : path.components = []) :
    path.bytes.head? = some '/'.toUInt8 := by
  have hwords := components_bytes path
  rw [hc] at hwords
  cases hb : path.bytes with
  | nil => exact absurd hb hne
  | cons b bs =>
    rw [hb] at hwords
    by_cases hslash : isSlash b = true
    · rw [List.head?_cons, isSlash_iff.1 hslash]
    · rw [words_first (Bool.eq_false_iff.2 hslash)] at hwords
      cases hwords

def leftComponents : Option CStr → List CStr
  | none => []
  | some s => s.components

def leftLength : Option CStr → Nat
  | none => 0
  | some s => s.bytes.length

theorem left_rest (rest : CStr) :
    (leftComponents (if rest.bytes = [] then none else some rest.next)).map CStr.bytes =
      words isSlash rest.bytes.tail ∧
    leftLength (if rest.bytes = [] then none else some rest.next) = rest.bytes.length - 1 := by
  split
  · next hnil =>
    rw [hnil]
    exact ⟨rfl, rfl⟩
  · exact ⟨components_bytes rest.next, List.length_tail⟩

theorem strtok_spec (next : Option CStr) :
    strtok slash next = none ∧ leftComponents next = [] ∨
    ∃ token next', strtok slash next = some (token, next') ∧
      leftComponents next = token :: leftComponents next' ∧ leftLength next' < leftLength next := by
  cases next with
  | none => exact .inl ⟨rfl, rfl⟩
  | some s =>
    have hwords := words_dropWhile isSlash s.bytes
    have hlen := (List.dropWhile_sublist isSlash (l := s.bytes)).length_le
    cases hstart : s.bytes.dropWhile isSlash with
    | nil =>
      rw [hstart] at hwords
      exact .inl ⟨if_pos hstart, components_nil hwords.symm⟩
    | cons b bs =>
      rw [hstart] at hwords hlen
      rw [words_first (dropWhile_head hstart)] at hwords
      have hne : s.bytes.dropWhile isSlash ≠ [] := hstart ▸ List.cons_ne_nil b bs
      obtain ⟨hrest, hleft⟩ := left_rest ((s.skip isSlash).skip (!isSlash ·))
      have hrest' : ((s.skip isSlash).skip (!isSlash ·)).bytes = (b :: bs).dropWhile (!isSlash ·) :=
        congrArg (List.dropWhile (!isSlash ·)) hstart
      have htoken : ((s.skip isSlash).span (!isSlash ·)).bytes = (b :: bs).takeWhile (!isSlash ·) :=
        congrArg (List.takeWhile (!isSlash ·)) hstart
      have hlen' := (List.dropWhile_sublist (!isSlash ·) (l := b :: bs)).length_le
      refine .inr ⟨_, _, if_neg hne, ?_, ?_⟩
      · apply components_eq
        rw [List.map_cons, ← hwords]
        exact congrArg₂ List.cons htoken
          (hrest.trans (congrArg (fun bytes => words isSlash bytes.tail) hrest'))
      · refine Nat.lt_of_le_of_lt (Nat.le_of_eq hleft) ?_
        rw [List.length_cons] at hlen hlen'
        rw [hrest', leftLength]
        omega

/-- Going down from a directory along names. -/
inductive Descends (fs : Filesystem) : Nat → List CStr → Nat → Prop
  | here : Descends fs dir [] dir
  | down : findFileInDir fs dir name = some e → (fs.files e).type = .directory →
      Descends fs e names d → Descends fs dir (name :: names) d

section
variable {fs : Filesystem}

theorem Descends.last (h : Descends fs dir names d) (hne : names ≠ []) :
    (fs.files d).name.toCStr ∈ names := by
  induction h with
  | here => exact absurd rfl hne
  | @down dir name e names d hf _ h ih =>
    by_cases hnil : names = []
    · subst hnil
      cases h
      rw [(findFileInDir_some hf).2.2]
      exact List.mem_cons_self
    · exact List.mem_cons_of_mem _ (ih hnil)

/-- The loop goes down along the components that are left. -/
theorem resolveLoop_iff (hfuel : leftLength next < fuel) :
    resolveLoop fs fuel dir next = .ok (some d) ↔ Descends fs dir (leftComponents next) d := by
  induction fuel generalizing dir next with
  | zero => exact absurd hfuel (Nat.not_lt_zero _)
  | succ fuel ih =>
    rw [resolveLoop]
    rcases strtok_spec next with ⟨htok, hleft⟩ | ⟨token, next', htok, hleft, hlt⟩
    · rw [htok, hleft]
      constructor
      · intro he
        cases he
        exact .here
      · intro hd
        cases hd
        rfl
    · rw [htok, hleft]
      simp only
      cases hf : findFileInDir fs dir token with
      | none =>
        constructor
        · intro he
          cases he
        · intro hd
          cases hd with
          | down hf' _ _ => cases hf.symm.trans hf'
      | some e =>
        simp only
        by_cases ht : (fs.files e).type = .directory
        · rw [if_neg (not_not.2 ht), ih (by omega)]
          constructor
          · exact .down hf ht
          · intro hd
            cases hd with
            | down hf' _ hrest =>
              cases hf.symm.trans hf'
              exact hrest
        · rw [if_pos ht]
          constructor
          · intro he
            cases he
          · intro hd
            cases hd with
            | down hf' ht' _ =>
              cases hf.symm.trans hf'
              exact absurd ht' ht

/-- Where `fs_resolve_path` starts. -/
def Filesystem.pathStart (fs : Filesystem) (path : CStr) : Nat :=
  if path.bytes.head? = some '/'.toUInt8 then fs.rootDir else fs.currentDir

theorem fsResolvePath_iff (hne : path.bytes ≠ []) (hlen : path.bytes.length < maxPath - 1) :
    fsResolvePath fs path = .ok (some d) ↔ Descends fs (fs.pathStart path) path.components d := by
  have hcopy : (CBuf.ofBytes maxPath (by decide) (path.bytes ++
      List.replicate (maxPath - 1 - path.bytes.length) 0)).toCStr = path :=
    CBuf.ofBytes_pad (by decide) (Nat.lt_of_lt_of_le hlen (Nat.sub_le _ _))
  rw [fsResolvePath, if_neg hne, strncpy_short hlen (Nat.sub_le _ _)]
  simp only [hcopy]
  have hfuel : leftLength (some path) < path.bytes.length + 1 := Nat.lt_succ_self _
  exact resolveLoop_iff hfuel

/-- The directory `d` is found under `name` in the current directory. -/
def Filesystem.Has (fs : Filesystem) (name : CStr) (d : Nat) : Prop :=
  findFileInDir fs fs.currentDir name = some d ∧ (fs.files d).type = .directory

def Filesystem.Fits (fs : Filesystem) (d : Nat) : Prop :=
  (fs.pathString d).bytes.length < maxPathLength

theorem Filesystem.Has.unique (h : fs.Has name d) (h' : fs.Has name d') : d = d' :=
  Option.some.inj (h.1.symm.trans h'.1)

def dot : CStr := .ofString "."

def dotDot : CStr := .ofString ".."

/-- `cd path` ends in the directory `d`. -/
def Enters (fs : Filesystem) (path : CStr) (d : Nat) : Prop :=
  ∃ fs', fsChangeDirectory fs path = .ok (fsSuccess, fs') ∧ fs'.currentDir = d

theorem cdTarget_dot : cdTarget fs dot = (fsSuccess, none) := rfl

theorem cdTarget_dotDot : cdTarget fs dotDot = (fsSuccess, some (fs.files fs.currentDir).parentId) :=
  rfl

theorem cdTarget_name (hne : path.bytes ≠ []) (hdot : path ≠ dot) (hdotDot : path ≠ dotDot) :
    cdTarget fs path ≠ (fsSuccess, none) ∧
      ∀ d, cdTarget fs path = (fsSuccess, some d) ↔ fs.Has path d := by
  have hlen : path.bytes.length ≠ 0 := fun h => hne (List.length_eq_zero_iff.1 h)
  have hdot' : strcmp path.bytes (CStr.ofString ".").bytes ≠ 0 := fun h => hdot (strcmp_eq_zero.1 h)
  have hdotDot' : strcmp path.bytes (CStr.ofString "..").bytes ≠ 0 :=
    fun h => hdotDot (strcmp_eq_zero.1 h)
  rw [cdTarget, if_neg hlen, if_neg hdot', if_neg hdotDot']
  cases hf : findFileInDir fs fs.currentDir path with
  | none =>
    refine ⟨fun he => ?_, fun d => ⟨fun he => ?_, fun h => ?_⟩⟩
    · cases he
    · cases he
    · cases hf.symm.trans h.1
  | some i =>
    simp only
    by_cases ht : (fs.files i).type = .directory
    · rw [if_neg (not_not.2 ht)]
      refine ⟨fun he => ?_, fun d => ⟨fun he => ?_, fun h => ?_⟩⟩
      · cases he
      · cases he
        exact ⟨hf, ht⟩
      · cases hf.symm.trans h.1
        rfl
    · rw [if_pos ht]
      refine ⟨fun he => ?_, fun d => ⟨fun he => ?_, fun h => ?_⟩⟩
      · cases he
      · cases he
      · cases hf.symm.trans h.1
        exact absurd h.2 ht

theorem enters_iff (ht : InTable fs) : Enters fs path d ↔
    cdTarget fs path = (fsSuccess, none) ∧ d = fs.currentDir ∨
    cdTarget fs path = (fsSuccess, some d) ∧ fs.Fits d := by
  rw [Enters]
  cases htarget : cdTarget fs path with
  | mk r target =>
  cases target with
  | none =>
    rw [fsChangeDirectory_stay ht htarget]
    constructor
    · rintro ⟨fs', he, rfl⟩
      cases he
      exact .inl ⟨rfl, rfl⟩
    · rintro (⟨he, rfl⟩ | ⟨he, _⟩)
      · cases he
        exact ⟨fs, rfl, rfl⟩
      · cases he
  | some e =>
    by_cases hfits : fs.Fits e
    · rw [fsChangeDirectory_enter ht htarget hfits]
      constructor
      · rintro ⟨fs', hok, rfl⟩
        cases hok
        exact .inr ⟨rfl, hfits⟩
      · rintro (⟨hok, _⟩ | ⟨hok, _⟩)
        · cases hok
        · cases hok
          exact ⟨_, rfl, rfl⟩
    · rw [fsChangeDirectory_overflow ht htarget hfits]
      constructor
      · rintro ⟨fs', hok, _⟩
        cases hok
      · rintro (⟨hok, _⟩ | ⟨hok, hd⟩)
        · cases hok
        · cases hok
          exact absurd hd hfits

theorem resolve_name (hne : path.bytes ≠ []) (hlen : path.bytes.length < maxPath - 1)
    (hs : '/'.toUInt8 ∉ path.bytes) : fsResolvePath fs path = .ok (some d) ↔ fs.Has path d := by
  have hstart : fs.pathStart path = fs.currentDir :=
    if_neg fun hhead => hs (List.mem_of_mem_head? hhead)
  rw [fsResolvePath_iff hne hlen, components_single hne hs, hstart]
  constructor
  · intro hd
    cases hd with
    | down hf ht hrest =>
      cases hrest
      exact ⟨hf, ht⟩
  · intro h
    exact .down h.1 h.2 .here

theorem rootDir_fits (fs : Filesystem) : fs.Fits fs.rootDir := by
  rw [Filesystem.Fits, Filesystem.pathString, NameTree.Links.up, if_pos rfl]
  decide

/-- `cd` and `ls` resolve the path alike. -/
def Alike (fs : Filesystem) (path : CStr) : Prop :=
  ∀ d, Enters fs path d ↔ fsResolvePath fs path = .ok (some d)

/-- When they do, by the shape of the path. -/
def AlikeWhen (fs : Filesystem) (path : CStr) : Prop :=
  if path = dot then fs.Has dot fs.currentDir
  else if path = dotDot then
    ∀ d, d = (fs.files fs.currentDir).parentId ∧ fs.Fits d ↔ fs.Has dotDot d
  else if '/'.toUInt8 ∈ path.bytes then
    (∀ d, fs.Has path d → ¬fs.Fits d) ∧
        (∀ d, ¬Descends fs (fs.pathStart path) path.components d) ∨
      path.components = [] ∧ fs.Has path fs.rootDir
  else ∀ d, fs.Has path d → fs.Fits d

theorem alike_dot (ht : InTable fs) : Alike fs dot ↔ fs.Has dot fs.currentDir := by
  have hne : dot.bytes ≠ [] := by decide
  have hlen : dot.bytes.length < maxPath - 1 := by decide
  have hresolve : ∀ d, fsResolvePath fs dot = .ok (some d) ↔ fs.Has dot d :=
    fun _ => resolve_name hne hlen (by decide)
  constructor
  · intro h
    exact (hresolve _).1 ((h _).1 ((enters_iff ht).2 (.inl ⟨cdTarget_dot, rfl⟩)))
  · intro h d
    rw [enters_iff ht, hresolve]
    constructor
    · rintro (⟨_, rfl⟩ | ⟨he, _⟩)
      · exact h
      · cases he
    · intro hd
      exact .inl ⟨cdTarget_dot, hd.unique h⟩

theorem alike_dotDot (ht : InTable fs) : Alike fs dotDot ↔
    ∀ d, d = (fs.files fs.currentDir).parentId ∧ fs.Fits d ↔ fs.Has dotDot d := by
  have hne : dotDot.bytes ≠ [] := by decide
  have hlen : dotDot.bytes.length < maxPath - 1 := by decide
  apply forall_congr'
  intro d
  rw [enters_iff ht, resolve_name hne hlen (by decide), cdTarget_dotDot]
  apply iff_congr ?_ Iff.rfl
  constructor
  · rintro (⟨he, _⟩ | ⟨he, hfits⟩)
    · cases he
    · cases he
      exact ⟨rfl, hfits⟩
  · rintro ⟨rfl, hfits⟩
    exact .inr ⟨rfl, hfits⟩

theorem enters_name (ht : InTable fs) (hne : path.bytes ≠ []) (hdot : path ≠ dot)
    (hdotDot : path ≠ dotDot) : Enters fs path d ↔ fs.Has path d ∧ fs.Fits d := by
  obtain ⟨hstay, htarget⟩ : cdTarget fs path ≠ (fsSuccess, none) ∧ _ :=
    cdTarget_name hne hdot hdotDot
  rw [enters_iff ht, htarget]
  constructor
  · rintro (⟨he, _⟩ | h)
    · exact absurd he hstay
    · exact h
  · exact .inr

theorem alike_name (ht : InTable fs) (hne : path.bytes ≠ []) (hlen : path.bytes.length < maxPath - 1)
    (hdot : path ≠ dot) (hdotDot : path ≠ dotDot) (hs : '/'.toUInt8 ∉ path.bytes) :
    Alike fs path ↔ ∀ d, fs.Has path d → fs.Fits d := by
  apply forall_congr'
  intro d
  rw [enters_name ht hne hdot hdotDot, resolve_name hne hlen hs]
  exact and_iff_left_iff_imp

theorem alike_slash (ht : InTable fs) (hne : path.bytes ≠ [])
    (hlen : path.bytes.length < maxPath - 1) (hdot : path ≠ dot) (hdotDot : path ≠ dotDot)
    (hs : '/'.toUInt8 ∈ path.bytes) : Alike fs path ↔
    (∀ d, fs.Has path d → ¬fs.Fits d) ∧
        (∀ d, ¬Descends fs (fs.pathStart path) path.components d) ∨
      path.components = [] ∧ fs.Has path fs.rootDir := by
  have halike : Alike fs path ↔ ∀ d, fs.Has path d ∧ fs.Fits d ↔
      Descends fs (fs.pathStart path) path.components d := by
    apply forall_congr'
    intro d
    rw [enters_name ht hne hdot hdotDot, fsResolvePath_iff hne hlen]
  rw [halike]
  constructor
  · intro h
    by_cases hfound : ∃ d, fs.Has path d ∧ fs.Fits d
    · obtain ⟨d, hd⟩ := hfound
      have hdown := (h d).1 hd
      have hnone : path.components = [] := by
        by_contra hsome
        have hlast := hdown.last hsome
        rw [(findFileInDir_some hd.1.1).2.2] at hlast
        exact mem_components hlast hs
      have hstart : fs.pathStart path = fs.rootDir := if_pos (components_nil_head hne hnone)
      rw [hnone, hstart] at hdown
      cases hdown
      exact .inr ⟨hnone, hd.1⟩
    · have hnot : ∀ d, fs.Has path d → ¬fs.Fits d := fun d hd hfits => hfound ⟨d, hd, hfits⟩
      exact .inl ⟨hnot, fun d hdown => hfound ⟨d, (h d).2 hdown⟩⟩
  · rintro (⟨hnot, hdown⟩ | ⟨hnone, hroot⟩) d
    · exact ⟨fun hd => absurd hd.2 (hnot d hd.1), fun hd => absurd hd (hdown d)⟩
    · have hstart : fs.pathStart path = fs.rootDir := if_pos (components_nil_head hne hnone)
      rw [hnone, hstart]
      constructor
      · rintro ⟨hd, _⟩
        rw [hd.unique hroot]
        exact .here
      · intro hd
        cases hd
        exact ⟨hroot, rootDir_fits fs⟩

end

/-- In a reachable state `cd` and `ls` resolve a path alike exactly when its shape allows it: a
name other than `.` and `..` whose directory has a path that fits, or one of the few
coincidences for the other shapes. -/
theorem cd_ls_alike (hr : Reach fsStep (fsInit t) fs) (hne : path.bytes ≠ [])
    (hlen : path.bytes.length < 255) : Alike fs path ↔ AlikeWhen fs path := by
  have ht := inTable_reach hr
  rw [AlikeWhen]
  split
  · next hdot =>
    rw [hdot]
    exact alike_dot ht
  split
  · next hdotDot =>
    rw [hdotDot]
    exact alike_dotDot ht
  next hdot hdotDot =>
  split
  · next hs => exact alike_slash ht hne hlen hdot hdotDot hs
  · next hs => exact alike_name ht hne hlen hdot hdotDot hs

theorem cd_ls_alike_home : Alike (fsInit 0) (.ofString "home") ↔
    AlikeWhen (fsInit 0) (.ofString "home") :=
  cd_ls_alike (t := 0) .refl (by decide) (by decide)

/-- `cd ..` leaves `/home`, and `ls ..` finds nothing there. -/
theorem cd_ls_differ : ∃ fs fs', exec fsStep (fsInit 0) [.changeDirectory (.ofString "home")] = .ok fs ∧
    fsChangeDirectory fs (.ofString "..") = .ok (fsSuccess, fs') ∧ fs'.currentDir = 0 ∧
    fsResolvePath fs (.ofString "..") = .ok none :=
  ⟨_, _, rfl, rfl, rfl, rfl⟩

end ChipOS
