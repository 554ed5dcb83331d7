import ChipOS.Fs.Resolve
import ChipOS.Fs.WhereAmI

namespace ChipOS
open NameTree Run
set_option autoImplicit true

def exactPath (names : List CStr) : CStr := if names = [] then slash else slashNames names

theorem slashNames_drop (names : List CStr) (k : Nat) (hk : k ≤ names.length) :
    (slashNames (names.drop k)).bytes.length + k ≤ (slashNames names).bytes.length := by
  induction names generalizing k with
  | nil =>
    cases Nat.le_zero.1 hk
    exact Nat.le_refl _
  | cons name names ih =>
    cases k with
    | zero => exact Nat.le_refl _
    | succ k =>
      have hrest := ih k (Nat.le_of_succ_le_succ hk)
      have hlen : (slashNames (name :: names)).bytes.length =
          1 + (name.bytes.length + (slashNames names).bytes.length) := by
        rw [slashNames, CStr.append, CStr.append, List.length_append, List.length_append]
        rfl
      rw [List.drop_succ_cons, hlen]
      omega

/-- The names that `rebuild_current_path` and `fs_getcwd` have on their stack of 32. -/
def lastNames (names : List CStr) : List CStr := names.drop (names.length - 32)

theorem lastNames_nil : lastNames names = [] ↔ names = [] := by
  rw [lastNames, List.drop_eq_nil_iff, ← List.length_eq_zero_iff]
  omega

theorem exactPath_lastNames_le (names : List CStr) :
    (exactPath (lastNames names)).bytes.length ≤ (exactPath names).bytes.length := by
  by_cases hnil : names = []
  · rw [hnil]
    exact Nat.le_refl _
  · have hdrop := slashNames_drop names (names.length - 32) (Nat.sub_le _ _)
    rw [exactPath, exactPath, if_neg hnil, if_neg (mt lastNames_nil.1 hnil), lastNames]
    omega

theorem exactPath_lastNames : exactPath (lastNames names) = exactPath names ↔ names.length ≤ 32 := by
  constructor
  · intro he
    by_cases hnil : names = []
    · rw [hnil]
      exact Nat.zero_le _
    · have hdrop := slashNames_drop names (names.length - 32) (Nat.sub_le _ _)
      rw [exactPath, exactPath, if_neg hnil, if_neg (mt lastNames_nil.1 hnil), lastNames] at he
      rw [he] at hdrop
      omega
  · intro hle
    rw [lastNames, Nat.sub_eq_zero_of_le hle, List.drop_zero]

section
variable {fs fs' : Filesystem} {id : Nat}

theorem pathString_lastNames (hp : fs.Chain names d) :
    fs.pathString d = exactPath (lastNames names) := by
  rw [pathString_chain hp, List.take_reverse, List.reverse_reverse, exactPath, ← lastNames]
  split
  · next hnil =>
    rw [hnil]
    exact CStr.append_empty slash
  · next hne => exact slash_joinNames _ hne

/-- Where the way up leads to the root both calls make the same string. -/
theorem wherePath_chain (hp : fs.Chain names fs.currentDir) :
    fs.wherePath = fs.pathString fs.currentDir := by
  rw [Filesystem.wherePath]
  split
  · next hroot =>
    rw [hroot, Filesystem.pathString, Links.up, if_pos rfl]
    exact (CStr.append_empty slash).symm
  · next hroot =>
    have hnil : lastNames names ≠ [] := mt lastNames_nil.1 (PathTo.ne_nil hp hroot)
    rw [Filesystem.cwdString, cwdNames_eq hp hp (Nat.le_refl _), chain_up hp, List.take_reverse,
      List.reverse_reverse, ← lastNames, pathString_lastNames hp, exactPath, if_neg hnil]

theorem fsGetcwd_success (ht : InTable fs) (he : fsGetcwd fs size = .ok (fsSuccess, s)) :
    s = fs.wherePath.bytes := by
  by_cases hs : 1 ≤ size
  · rw [Filesystem.wherePath]
    by_cases hroot : fs.currentDir = fs.rootDir
    · rw [fsGetcwd_root hroot hs] at he
      rw [if_pos hroot]
      split at he
      · cases he
      · cases he
        rfl
    · rw [fsGetcwd_eq ht hroot hs] at he
      rw [if_neg hroot]
      obtain ⟨buf, hfill, hok⟩ := bind_eq_ok.1 he
      by_cases hfits : fs.cwdString.bytes.length < size
      · rw [fill_fits hfits] at hfill
        cases hfill
        cases hok
        rfl
      · rw [fill_overflows (Nat.le_of_not_lt hfits)] at hfill
        cases hfill
  · rw [fsGetcwd, dif_pos (by omega)] at he
    cases he

theorem fsGetcwd_fits (ht : InTable fs) (hfits : fs.wherePath.bytes.length < size) :
    fsGetcwd fs size = .ok (fsSuccess, fs.wherePath.bytes) := by
  have hs : 1 ≤ size := by omega
  rw [Filesystem.wherePath] at hfits ⊢
  by_cases hroot : fs.currentDir = fs.rootDir
  · rw [if_pos hroot] at hfits ⊢
    exact (fsGetcwd_root hroot hs).trans (if_neg (Nat.not_lt.2 hfits))
  · rw [if_neg hroot] at hfits ⊢
    rw [fsGetcwd_eq ht hroot hs, fill_fits hfits]
    rfl

/-- The names on the way to the current directory and the path in `current_path` are kept. -/
structure KeepsPlace (fs fs' : Filesystem) : Prop where
  currentPath : fs'.currentPath = fs.currentPath
  isPath : ∀ p, fs.IsPath p fs.currentDir → fs'.IsPath p fs'.currentDir

theorem KeepsPlace.refl : KeepsPlace fs fs := ⟨rfl, fun _ hp => hp⟩

theorem KeepsPlace.trans {fs'' : Filesystem} (h : KeepsPlace fs fs') (h' : KeepsPlace fs' fs'') : KeepsPlace fs fs'' :=
  ⟨h'.currentPath.trans h.currentPath, fun p hp => h'.isPath p (h.isPath p hp)⟩

theorem KeepsPlace.of_links (hl : fs'.links = fs.links) (hc : fs'.currentDir = fs.currentDir)
    (hp : fs'.currentPath = fs.currentPath) : KeepsPlace fs fs' := by
  refine ⟨hp, fun p hpath => ?_⟩
  rw [Filesystem.IsPath, hl, hc]
  exact hpath

theorem keepsPlace_addEntry {h : fs.fileCount < maxFiles} : KeepsPlace fs (fs.addEntry entry h).tick :=
  ⟨rfl, fun _ hp => PathTo.insert addEntry_inserts hp⟩

theorem keepsPlace_storeData : KeepsPlace fs (fs.storeData i data n) := .of_links storeData_links rfl rfl

theorem keepsPlace_removeEntry (ht : IsTree fs.links 0) (hid : id < fs.fileCount)
    (hleaf : ∀ j < fs.fileCount, (fs.files j).parentId ≠ id) (hcur : fs.currentDir ≠ id) :
    KeepsPlace fs (fs.removeEntry id) := by
  refine ⟨?_, fun p hp => ?_⟩
  · rw [Filesystem.removeEntry]
    split <;> rfl
  · rw [removeEntry_currentDir hid]
    exact isPath_removeEntry ht hid hleaf hp hcur

theorem keepsPlace_removeFound (ht : IsTree fs.links 0) (hf : findFileInDir fs fs.currentDir name = some id)
    (hleaf : ∀ j < fs.fileCount, (fs.files j).parentId ≠ id) : KeepsPlace fs (fs.removeEntry id) :=
  keepsPlace_removeEntry ht (findFileInDir_some hf).1 hleaf (found_ne_current hf hleaf)

theorem keepsPlace_write (he : fsWriteFile fs name data size = .ok (r, fs')) : KeepsPlace fs fs' := by
  rcases fsWriteFile_cases he with ⟨_, rfl⟩ | ⟨_, i, fs₁, ho, _, _, _, rfl⟩
  · exact .refl
  · cases ho with
    | existing => exact keepsPlace_storeData
    | created => exact keepsPlace_addEntry.trans keepsPlace_storeData

/-- Only `cd` moves the current directory, as long as `rm` takes leaves. -/
theorem keepsPlace_call (ht : TreeInv fs) (hd : DeletesLeaf fs op)
    (hcd : ∀ path, op ≠ .changeDirectory path) (he : fsCall fs op = .ok (r, fs')) :
    KeepsPlace fs fs' := by
  cases op with
  | createFile name type =>
    rcases fsCreateFile_cases he with ⟨_, rfl⟩ | ⟨_, entry, h, hn, rfl⟩
    · exact .refl
    · exact keepsPlace_addEntry
  | writeFile name data size => exact keepsPlace_write he
  | touchFile name =>
    rcases fsTouchFile_cases he with ⟨_, rfl⟩ | ⟨_, i, _, rfl⟩ | ⟨_, entry, h, hn, _, rfl⟩
    · exact .refl
    · exact .of_links stamp_links rfl rfl
    · exact keepsPlace_addEntry.trans keepsPlace_storeData
  | makeDirectory name =>
    rcases fsMakeDirectory_cases (Except.ok.inj he) with ⟨_, rfl⟩ | ⟨_, entry, h, hn, rfl⟩
    · exact .refl
    · have hadd : KeepsPlace fs (fs.addEntry entry h).tick := keepsPlace_addEntry
      exact ⟨hadd.currentPath, hadd.isPath⟩
  | deleteFile name =>
    rcases fsDeleteFile_cases (Except.ok.inj he) with ⟨_, rfl⟩ | ⟨_, i, hf, rfl⟩
    · exact .refl
    · exact keepsPlace_removeFound ht.tree hf (hd i hf)
  | removeDirectory name =>
    rcases fsRemoveDirectory_cases (Except.ok.inj he) with ⟨_, rfl⟩ | ⟨_, i, hf, hleaf, rfl⟩
    · exact .refl
    · exact keepsPlace_removeFound ht.tree hf hleaf
  | copyFile src dest =>
    rcases fsCopyFile_cases he with ⟨_, rfl⟩ | ⟨i, n, _, _, _, hw⟩
    · exact .refl
    · exact keepsPlace_write hw
  | moveFile src dest =>
    rcases fsMoveFile_cases he with ⟨_, rfl⟩ | ⟨_, entry, h, t, hn, rfl⟩ |
      ⟨_, i, entry, h, data, hf, hreg, hn, _, _, rfl⟩
    · exact .refl
    · have hadd : TreeInv (fs.addEntry entry h).tick := treeInv_addEntry ht hn
      exact keepsPlace_addEntry.trans (keepsPlace_removeEntry hadd.tree (Nat.lt_succ_self _)
        (addEntry_leaf ht hn) (Nat.ne_of_lt ht.current_live))
    · have hstore : TreeInv ((fs.addEntry entry h).tick.storeData fs.fileCount data
        (writeSize (fs.files i).size)) := treeInv_storeData (treeInv_addEntry ht hn)
      have hfound : findFileInDir ((fs.addEntry entry h).tick.storeData fs.fileCount data
          (writeSize (fs.files i).size)) fs.currentDir src = some i := by
        rw [findFileInDir_storeData]
        exact findFileInDir_addEntry_old hf
      apply (keepsPlace_addEntry.trans keepsPlace_storeData).trans (keepsPlace_removeFound hstore.tree hfound _)
      apply hstore.state.leaf
      rw [storeData_type, addEntry_files_lt (findFileInDir_some hf).1]
      exact hreg
  | changeDirectory path => exact absurd rfl (hcd path)

theorem PathInv.leafStep (hi : PathInv fs fs.currentPath.toCStr) (hd : DeletesLeaf fs op)
    (he : fsStep fs op = .ok fs') : PathInv fs' fs'.currentPath.toCStr := by
  obtain ⟨r, hcall⟩ := fsStep_eq_ok he
  by_cases hcd : ∃ name, op = .changeDirectory name
  · obtain ⟨name, rfl⟩ := hcd
    exact hi.changeDirectory hcall
  · have hkeeps := keepsPlace_call hi.tree hd (fun name he => hcd ⟨name, he⟩) hcall
    have htable := inTable_call hi.table hcall
    obtain ⟨p, hp⟩ := hi.tree.tree.exists_path hi.tree.current_live
    refine ⟨treeInv_call hi.tree hd hcall, htable, ?_⟩
    rw [hkeeps.currentPath, hi.current, pathString_eq hi.table.root hp,
      pathString_eq htable.root (hkeeps.isPath p hp)]

/-- `fs_getcwd` returns the path through `names` whenever it succeeds. -/
def PwdExact (fs : Filesystem) (names : List CStr) : Prop :=
  ∀ size s, fsGetcwd fs size = .ok (fsSuccess, s) → s = (exactPath names).bytes

/-- A `cd` that succeeds leaves the path of the new current directory in `current_path`, if the
parent links lead to the root and the path fits. -/
def CdExact (fs : Filesystem) (path : CStr) : Prop :=
  ∀ fs' names, fsChangeDirectory fs path = .ok (fsSuccess, fs') → fs'.Chain names fs'.currentDir →
    (exactPath names).bytes.length ≤ 255 → fs'.currentPath.toCStr = exactPath names

/-- No more than 32 names lead to `d`, if its path fits `current_path`. -/
def Filesystem.Shallow (fs : Filesystem) (d : Nat) : Prop :=
  ∀ names, fs.Chain names d → (exactPath names).bytes.length ≤ 255 → names.length ≤ 32

/-- When `cd` keeps the path exact, by the shape of its argument. -/
def CdExactWhen (fs : Filesystem) (path : CStr) : Prop :=
  if path = dot then
    ∀ names, fs.Chain names fs.currentDir → (exactPath names).bytes.length ≤ 255 →
      fs.currentPath.toCStr = exactPath names
  else if path = dotDot then fs.Shallow (fs.files fs.currentDir).parentId
  else ∀ d, path.bytes ≠ [] → fs.Has path d → fs.Shallow d

theorem pwdExact_iff (ht : InTable fs) (hp : fs.Chain names fs.currentDir) :
    PwdExact fs names ↔ names.length ≤ 32 := by
  have hwhere : fs.wherePath = exactPath (lastNames names) :=
    (wherePath_chain hp).trans (pathString_lastNames hp)
  rw [← exactPath_lastNames, ← hwhere]
  constructor
  · intro h
    exact CStr.ext_bytes (h _ _ (fsGetcwd_fits ht (Nat.lt_succ_self _)))
  · intro he size s hok
    rw [fsGetcwd_success ht hok, he]

theorem cdExact_enter (ht : InTable fs) (hd : cdTarget fs path = (fsSuccess, some d)) :
    CdExact fs path ↔ fs.Shallow d := by
  constructor
  · intro h names hp hlen
    have hstring := pathString_lastNames hp
    have hle := exactPath_lastNames_le names
    have hfits : (fs.pathString d).bytes.length < maxPathLength := by
      rw [hstring]
      exact Nat.lt_succ_of_le (Nat.le_trans hle hlen)
    have hexact : fs.pathString d = exactPath names :=
      h _ names (fsChangeDirectory_enter ht hd hfits) hp hlen
    rw [← exactPath_lastNames, ← hstring, hexact]
  · intro h fs' names he hp hlen
    by_cases hfits : (fs.pathString d).bytes.length < maxPathLength
    · cases (fsChangeDirectory_enter ht hd hfits).symm.trans he
      have hchain : fs.Chain names d := hp
      exact (pathString_lastNames hchain).trans (exactPath_lastNames.2 (h names hchain hlen))
    · cases (fsChangeDirectory_overflow ht hd hfits).symm.trans he

theorem cdExact_fails (he : ∀ fs', fsChangeDirectory fs path ≠ .ok (fsSuccess, fs')) :
    CdExact fs path := fun fs' _ hok => absurd hok (he fs')

theorem cdExact_iff (ht : InTable fs) : CdExact fs path ↔ CdExactWhen fs path := by
  rw [CdExactWhen]
  split
  · next hdot =>
    rw [hdot, CdExact, fsChangeDirectory_stay ht cdTarget_dot]
    constructor
    · intro h names
      exact h fs names rfl
    · intro h fs' names he
      cases he
      exact h names
  split
  · next hdotDot =>
    rw [hdotDot]
    exact cdExact_enter ht cdTarget_dotDot
  next hdot hdotDot =>
  by_cases hne : path.bytes = []
  · refine iff_of_true (cdExact_fails fun fs' he => ?_) fun d h => absurd hne h
    rw [fsChangeDirectory, if_pos (List.length_eq_zero_iff.2 hne)] at he
    cases he
  obtain ⟨hstay, htarget⟩ : cdTarget fs path ≠ (fsSuccess, none) ∧ _ :=
    cdTarget_name hne hdot hdotDot
  by_cases hhas : ∃ d, fs.Has path d
  · obtain ⟨d, hd⟩ := hhas
    rw [cdExact_enter ht ((htarget d).2 hd)]
    constructor
    · intro h d' _ hd'
      exact hd.unique hd' ▸ h
    · intro h
      exact h d hne hd
  · refine iff_of_true (cdExact_fails fun fs' he => ?_) fun d _ hd => absurd ⟨d, hd⟩ hhas
    have henters : Enters fs path fs'.currentDir := ⟨fs', he, rfl⟩
    rcases (enters_iff ht).1 henters with ⟨h, _⟩ | ⟨h, _⟩
    · exact hstay h
    · exact hhas ⟨_, (htarget _).1 h⟩

end

/-- In a reachable state `pwd` is exact when at most 32 names lead to the current directory, and
so is the path after a `cd` that enters a directory; `cd .` keeps the path there is. In runs
whose `rm` takes leaves only, that one is exact to the same depth. -/
theorem pwd_exact (t : Nat) :
    (∀ fs, Reach fsStep (fsInit t) fs →
      (∀ names, fs.Chain names fs.currentDir → (PwdExact fs names ↔ names.length ≤ 32)) ∧
      ∀ path, CdExact fs path ↔ CdExactWhen fs path) ∧
    ∀ ops fs, Each fsStep DeletesLeaf (fsInit t) ops → exec fsStep (fsInit t) ops = .ok fs →
      ∃ names, fs.Chain names fs.currentDir ∧
        (fs.currentPath.toCStr = exactPath names ↔ names.length ≤ 32) := by
  refine ⟨fun fs hr => ?_, fun ops fs hd he => ?_⟩
  · have ht := inTable_reach hr
    exact ⟨fun names hp => pwdExact_iff ht hp, fun path => cdExact_iff ht⟩
  · have hinv : PathInv fs fs.currentPath.toCStr :=
      hd.invariant (P := fun fs => PathInv fs fs.currentPath.toCStr) (pathInv_fsInit t)
        (fun _ _ _ hi hd he => hi.leafStep hd he) he
    obtain ⟨names, hp⟩ := hinv.tree.tree.exists_path hinv.tree.current_live
    have hchain : fs.Chain names fs.currentDir := isPath_chain hinv.table.root hp
    refine ⟨names, hchain, ?_⟩
    rw [hinv.current, pathString_lastNames hchain]
    exact exactPath_lastNames

theorem pwd_exact_home : ∃ fs names,
    exec fsStep (fsInit 0) [.changeDirectory (.ofString "home")] = .ok fs ∧
    fs.Chain names fs.currentDir ∧ (fs.currentPath.toCStr = exactPath names ↔ names.length ≤ 32) := by
  have hd : Each fsStep DeletesLeaf (fsInit 0) [.changeDirectory (.ofString "home")] :=
    ⟨trivial, fun _ _ => trivial⟩
  have hpwd := (pwd_exact 0).2 [.changeDirectory (.ofString "home")] _ hd rfl
  exact ⟨_, hpwd.choose, rfl, hpwd.choose_spec⟩

/-- Makes a directory `a` and enters it, `n` times. -/
def nestedRun : Nat → List FsOp
  | 0 => []
  | n + 1 => .makeDirectory (.ofString "a") :: .changeDirectory (.ofString "a") :: nestedRun n

/-- What the counterexample says of a state inside directories called `a`. -/
def showsPath (depth shown : Nat) (fs : Filesystem) : Prop :=
  fs.links.up fs.rootDir (depth + 1) fs.currentDir = List.replicate depth (.ofString "a") ∧
  (fsGetcwd fs 256).toOption =
    some (fsSuccess, (slashNames (List.replicate shown (.ofString "a"))).bytes) ∧
  fs.currentPath.bytes = (slashNames (List.replicate shown (.ofString "a"))).bytes

instance : Decidable (showsPath depth shown fs) := inferInstanceAs (Decidable (_ ∧ _ ∧ _))

theorem nested_run_end : (exec fsStep (fsInit 0) (nestedRun 33)).toOption.map
    (fun fs => decide (showsPath 33 32 fs)) = some true := by
  decide +kernel

/-- Inside 33 directories `a` the outermost is missing from both paths. -/
theorem pwd_drops_name : ∃ fs names s, exec fsStep (fsInit 0) (nestedRun 33) = .ok fs ∧
    fs.Chain names fs.currentDir ∧ (exactPath names).bytes.length ≤ 255 ∧
    fsGetcwd fs 256 = .ok (fsSuccess, s) ∧ s ≠ (exactPath names).bytes ∧
    fs.currentPath.bytes ≠ (exactPath names).bytes := by
  have hend := nested_run_end
  cases hrun : exec fsStep (fsInit 0) (nestedRun 33) with
  | error e =>
    rw [hrun] at hend
    cases hend
  | ok fs =>
    rw [hrun] at hend
    obtain ⟨hup, hcwd, hpath⟩ : showsPath 33 32 fs := of_decide_eq_true (Option.some.inj hend)
    have hchain : fs.Chain (fs.links.up fs.rootDir 34 fs.currentDir).reverse fs.currentDir :=
      pathTo_up (by rw [hup]; decide)
    rw [hup, List.reverse_replicate] at hchain
    have hne : (slashNames (List.replicate 32 (.ofString "a"))).bytes ≠
      (exactPath (List.replicate 33 (.ofString "a"))).bytes := by decide
    refine ⟨fs, _, _, rfl, hchain, by decide, ?_, hne, hpath ▸ hne⟩
    cases hc : fsGetcwd fs 256 with
    | error e =>
      rw [hc] at hcwd
      cases hcwd
    | ok r =>
      rw [hc] at hcwd
      exact congrArg Except.ok (Option.some.inj hcwd)

end ChipOS
