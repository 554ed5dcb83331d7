import ChipOS.Fs.PathBuffers

namespace ChipOS
open NameTree Run
set_option autoImplicit true

/-- The file system with `current_path` as a string of any length. -/
structure Tracked where
  fs : Filesystem
  path : CStr

/-- `fs_get_current_path`, given the string in `current_path`. -/
def getCurrentPath (path : CStr) (size : Nat) : Int × List UInt8 :=
  if size < 1 then (fsErrorInvalidPath, [])
  else if path.bytes.length + 1 > size then (fsErrorNoSpace, [])
  else (fsSuccess, path.bytes)

/-- `fs_getcwd` with the string it builds not limited by the buffer. -/
def getcwd (fs : Filesystem) (size : Nat) : Int × List UInt8 :=
  if size < 1 then (fsErrorInvalidPath, [])
  else if fs.currentDir = fs.rootDir then
    if size < 2 then (fsErrorNoSpace, []) else (fsSuccess, slash.bytes)
  else if fs.cwdString.bytes.length + 1 > size then (fsErrorNoSpace, fs.cwdString.bytes)
  else (fsSuccess, fs.cwdString.bytes)

def Tracked.init (t : Nat) : Tracked := ⟨fsInit t, slash⟩

/-- The calls, with `rebuild_current_path` as a string function. -/
def trackedStep (w : Tracked) : FsOp → Except Fault Tracked
  | .changeDirectory path =>
    match (cdTarget w.fs path).2 with
    | none => .ok w
    | some d => .ok ⟨{ w.fs with currentDir := d }, w.fs.pathString d⟩
  | op => (fsStep w.fs op).map fun fs => ⟨fs, w.path⟩

/-- The calls that keep the entries a tree without regard to the data in the files. -/
def PlainOp (fs : Filesystem) : FsOp → Prop
  | .makeDirectory _ => True
  | .removeDirectory _ => True
  | .changeDirectory _ => True
  | .createFile name type => type = .regular ∧ name.bytes.length < maxFilename - 1
  | .deleteFile name => ∃ i, findFileInDir fs fs.currentDir name = some i ∧
      (fs.files i).type = .regular
  | _ => False

/-- What these calls, `cd` apart, do to the tables. -/
inductive PlainChange (fs : Filesystem) : Filesystem → Prop
  | none : PlainChange fs fs
  | add (h : fs.fileCount < maxFiles) : Fresh fs s t entry →
      PlainChange fs { (fs.addEntry entry h).tick with nextFileId := n }
  | remove : findFileInDir fs fs.currentDir name = some i →
      (∀ j < fs.fileCount, (fs.files j).parentId ≠ i) → PlainChange fs (fs.removeEntry i)

/-- The path in `current_path` is that of the current directory. -/
structure PathInv (fs : Filesystem) (path : CStr) : Prop where
  tree : TreeInv fs
  table : InTable fs
  current : path = fs.pathString fs.currentDir

section
variable {fs fs' : Filesystem}

theorem plainChange_of (ht : TreeInv fs) (hp : PlainOp fs op)
    (hcd : ∀ path, op ≠ .changeDirectory path) :
    ∃ fs', fsStep fs op = .ok fs' ∧ PlainChange fs fs' := by
  cases op with
  | makeDirectory name =>
    have he : fsMakeDirectory fs name = (_, (fsMakeDirectory fs name).2) := rfl
    refine ⟨(fsMakeDirectory fs name).2, rfl, ?_⟩
    rcases fsMakeDirectory_cases he with ⟨_, he⟩ | ⟨_, entry, h, hn, he⟩
    · rw [he]
      exact .none
    · rw [he]
      exact .add h hn
  | removeDirectory name =>
    have he : fsRemoveDirectory fs name = (_, (fsRemoveDirectory fs name).2) := rfl
    refine ⟨(fsRemoveDirectory fs name).2, rfl, ?_⟩
    rcases fsRemoveDirectory_cases he with ⟨_, he⟩ | ⟨_, i, hf, hleaf, he⟩
    · rw [he]
      exact .none
    · rw [he]
      exact .remove hf hleaf
  | deleteFile name =>
    obtain ⟨i, hf, hreg⟩ := hp
    refine ⟨fs.removeEntry i, ?_, .remove hf (ht.state.leaf hreg)⟩
    rw [fsStep, fsCall, fsDeleteFile, hf]
    rfl
  | createFile name type =>
    cases hc : fsCreateFile fs name type with
    | error e => exact absurd (fsCreateFile_error hc).2 (Nat.not_le.2 hp.2)
    | ok p =>
      obtain ⟨r, fs'⟩ := p
      refine ⟨fs', by rw [fsStep, fsCall, hc]; rfl, ?_⟩
      rcases fsCreateFile_cases hc with ⟨_, rfl⟩ | ⟨_, entry, h, hn, rfl⟩
      · exact .none
      · exact .add (n := fs.nextFileId) h hn
  | changeDirectory path => exact absurd rfl (hcd path)
  | writeFile => exact hp.elim
  | touchFile => exact hp.elim
  | copyFile => exact hp.elim
  | moveFile => exact hp.elim

theorem isPath_chain (hroot : fs.rootDir = 0) (hp : fs.IsPath p d) : fs.Chain p d := by
  rw [Filesystem.Chain, hroot]
  exact PathTo.all hp

theorem chain_up (hp : fs.Chain p d) (n : Nat) : fs.links.up fs.rootDir n d = p.reverse.take n := by
  rw [← up_all, PathTo.up hp]

theorem pathString_chain (hp : fs.Chain p d) :
    fs.pathString d = slash.append (joinNames (p.reverse.take 32).reverse) := by
  rw [Filesystem.pathString, chain_up hp]

theorem pathString_eq (hroot : fs.rootDir = 0) (hp : fs.IsPath p d) :
    fs.pathString d = slash.append (joinNames (p.reverse.take 32).reverse) :=
  pathString_chain (isPath_chain hroot hp)

theorem PlainChange.tree (ht : TreeInv fs) (hc : PlainChange fs fs') : TreeInv fs' := by
  cases hc with
  | none => exact ht
  | add h hn =>
    have hadd := treeInv_addEntry (h := h) ht hn
    exact treeInv_enter hadd hadd.current_live hadd.current_directory
  | remove hf hleaf => exact treeInv_removeFound ht hf hleaf

theorem PlainChange.table (ht : InTable fs) (hc : PlainChange fs fs') : InTable fs' := by
  cases hc with
  | none => exact ht
  | add h hn =>
    have hadd := inTable_addEntry (h := h) ht hn
    exact ⟨hadd.root, hadd.current, hadd.parent⟩
  | remove hf _ => exact inTable_removeEntry ht (findFileInDir_some hf).1

theorem PlainChange.isPath (ht : TreeInv fs) (hc : PlainChange fs fs')
    (hp : fs.IsPath p fs.currentDir) : fs'.IsPath p fs'.currentDir := by
  cases hc with
  | none => exact hp
  | add h hn => exact PathTo.insert (addEntry_inserts (h := h)) hp
  | remove hf hleaf =>
    have hid := (findFileInDir_some hf).1
    rw [removeEntry_currentDir hid]
    exact isPath_removeEntry ht.tree hid hleaf hp (found_ne_current hf hleaf)

theorem PlainChange.currentPath (hc : PlainChange fs fs') : fs'.currentPath = fs.currentPath := by
  cases hc with
  | none => rfl
  | add _ _ => rfl
  | remove _ _ =>
    rw [Filesystem.removeEntry]
    split <;> rfl

theorem PathInv.change (hi : PathInv fs path) (hc : PlainChange fs fs') : PathInv fs' path := by
  obtain ⟨p, hp⟩ := hi.tree.tree.exists_path hi.tree.current_live
  refine ⟨hc.tree hi.tree, hc.table hi.table, ?_⟩
  rw [hi.current, pathString_eq hi.table.root hp,
    pathString_eq (hc.table hi.table).root (hc.isPath hi.tree hp)]

theorem PathInv.enter (hi : PathInv fs path) (hd : cdTarget fs name = (r, some d)) :
    PathInv { fs with currentDir := d } (fs.pathString d) := by
  have htable : InTable { fs with currentDir := d } :=
    ⟨hi.table.root, cdTarget_lt hi.table hd, hi.table.parent⟩
  have htarget : d < fs.fileCount ∧ (fs.files d).type = .directory := by
    rcases cdTarget_cases hd with rfl | ⟨hf, hdir⟩
    · exact ⟨hi.tree.tree.parent_live _ hi.tree.current_live,
        hi.tree.tree.parent_inner _ hi.tree.current_live⟩
    · exact ⟨(findFileInDir_some hf).1, hdir⟩
  exact ⟨⟨hi.tree.tree, hi.tree.root_name, htarget.1, htarget.2⟩, htable, rfl⟩

theorem pathInv_fsInit (t : Nat) : PathInv (fsInit t) slash := by
  have hroot : (fsInit t).IsPath [] (fsInit t).currentDir := .nil
  refine ⟨treeInv_fsInit t, inTable_fsInit t, ?_⟩
  rw [pathString_eq (inTable_fsInit t).root hroot]
  exact (CStr.append_empty slash).symm

/-- On a way up that leads to the root `fs_getcwd` does not come back to the current directory. -/
theorem cwdNames_eq (hcur : fs.Chain p fs.currentDir) (hq : fs.Chain q a)
    (hle : q.length ≤ p.length) (n : Nat) : fs.cwdNames n a = fs.links.up fs.rootDir n a := by
  induction n generalizing a q with
  | zero => rfl
  | succ n ih =>
    rw [Filesystem.cwdNames, Links.up]
    cases hq with
    | nil => rw [if_pos rfl, if_pos rfl]
    | @snoc a q _ hne hq =>
      rw [List.length_append, List.length_singleton] at hle
      have hup : fs.Chain q (fs.files a).parentId := hq
      have hback : (fs.files a).parentId ≠ fs.currentDir := by
        intro hb
        rw [hb] at hup
        have hpq : q.length = p.length := congrArg List.length (hup.unique hcur)
        omega
      rw [if_neg hne, if_neg hne, if_neg hback, ih hup (by omega)]
      rfl

theorem PathInv.cwdString (hi : PathInv fs path) (hroot : fs.currentDir ≠ fs.rootDir) :
    fs.cwdString = path := by
  obtain ⟨p, hp⟩ := hi.tree.tree.exists_path hi.tree.current_live
  have hnil : (p.reverse.take 32).reverse ≠ [] := by
    have hne : p ≠ [] := hp.ne_nil (hi.table.root ▸ hroot)
    simpa using hne
  have hchain : fs.Chain p fs.currentDir := isPath_chain hi.table.root hp
  rw [hi.current, pathString_eq hi.table.root hp, Filesystem.cwdString,
    cwdNames_eq hchain hchain (Nat.le_refl _), hi.table.root, PathTo.up hp, slash_joinNames _ hnil]

theorem PathInv.root_path (hi : PathInv fs path) (hroot : fs.currentDir = fs.rootDir) :
    path = slash := by
  have hnil : fs.IsPath [] fs.currentDir := by
    rw [hroot, hi.table.root]
    exact .nil
  rw [hi.current, pathString_eq hi.table.root hnil]
  exact CStr.append_empty slash

/-- Both calls fail for want of space, or both succeed with the same string. -/
def Agree (a b : Int × List UInt8) : Prop :=
  a.1 = fsErrorNoSpace ∧ b.1 = fsErrorNoSpace ∨ a.1 = fsSuccess ∧ b.1 = fsSuccess ∧ a.2 = b.2

theorem PathInv.agree (hi : PathInv fs path) (hs : 2 ≤ size) :
    Agree (getCurrentPath path size) (getcwd fs size) := by
  have hpos : ¬size < 1 := by omega
  rw [getCurrentPath, getcwd, if_neg hpos, if_neg hpos]
  by_cases hroot : fs.currentDir = fs.rootDir
  · have hfits : ¬slash.bytes.length + 1 > size := Nat.not_lt.2 hs
    rw [if_pos hroot, hi.root_path hroot, if_neg hfits, if_neg (Nat.not_lt.2 hs)]
    exact .inr ⟨rfl, rfl, rfl⟩
  · rw [if_neg hroot, hi.cwdString hroot]
    by_cases hlong : path.bytes.length + 1 > size
    · rw [if_pos hlong, if_pos hlong]
      exact .inl ⟨rfl, rfl⟩
    · rw [if_neg hlong, if_neg hlong]
      exact .inr ⟨rfl, rfl, rfl⟩

theorem PathInv.trackedStep {w : Tracked} (hi : PathInv w.fs w.path) (hp : PlainOp w.fs op) :
    ∃ w', trackedStep w op = .ok w' ∧ PathInv w'.fs w'.path := by
  by_cases hcd : ∃ name, op = .changeDirectory name
  · obtain ⟨name, rfl⟩ := hcd
    rw [ChipOS.trackedStep]
    cases ht : cdTarget w.fs name with
    | mk r target =>
    cases target with
    | none => exact ⟨w, rfl, hi⟩
    | some d => exact ⟨_, rfl, hi.enter ht⟩
  · have hne : ∀ name, op ≠ .changeDirectory name := fun name he => hcd ⟨name, he⟩
    obtain ⟨fs', he, hc⟩ := plainChange_of hi.tree hp hne
    have hstep : ChipOS.trackedStep w op = (fsStep w.fs op).map fun fs => ⟨fs, w.path⟩ := by
      cases op with
      | changeDirectory name => exact absurd rfl (hne name)
      | _ => rfl
    rw [hstep, he]
    exact ⟨⟨fs', w.path⟩, rfl, hi.change hc⟩

theorem PathInv.changeDirectory (hi : PathInv fs fs.currentPath.toCStr)
    (he : fsChangeDirectory fs name = .ok (r, fs')) : PathInv fs' fs'.currentPath.toCStr := by
  cases ht : cdTarget fs name with
  | mk r' target =>
  cases target with
  | none =>
    cases (fsChangeDirectory_stay hi.table ht).symm.trans he
    exact hi
  | some d =>
    have hd := hi.enter ht
    by_cases hfits : (fs.pathString d).bytes.length < maxPathLength
    · cases (fsChangeDirectory_enter hi.table ht hfits).symm.trans he
      exact ⟨⟨hd.tree.tree, hd.tree.root_name, hd.tree.current_live, hd.tree.current_directory⟩,
        ⟨hd.table.root, hd.table.current, hd.table.parent⟩, rfl⟩
    · cases (fsChangeDirectory_overflow hi.table ht hfits).symm.trans he

/-- A call on the arrays that returns keeps the invariant. -/
theorem PathInv.step (hi : PathInv fs fs.currentPath.toCStr) (hp : PlainOp fs op)
    (he : fsStep fs op = .ok fs') : PathInv fs' fs'.currentPath.toCStr := by
  by_cases hcd : ∃ name, op = .changeDirectory name
  · obtain ⟨name, rfl⟩ := hcd
    obtain ⟨r, hcall⟩ := fsStep_eq_ok he
    exact hi.changeDirectory hcall
  · obtain ⟨fs'', he', hc⟩ := plainChange_of hi.tree hp fun name he => hcd ⟨name, he⟩
    cases he.symm.trans he'
    rw [hc.currentPath]
    exact hi.change hc

/-- In the arrays both calls succeed, since `current_path` fits. -/
theorem PathInv.arrays (hi : PathInv fs fs.currentPath.toCStr) :
    ∃ s, fsGetCurrentPath fs maxPathLength = (fsSuccess, s) ∧
      fsGetcwd fs maxPathLength = .ok (fsSuccess, s) := by
  have hfits := fs.currentPath.fits
  have hpos : 1 ≤ maxPathLength := by decide
  refine ⟨fs.currentPath.bytes, ?_, ?_⟩
  · rw [fsGetCurrentPath, if_neg (by decide), if_neg (Nat.not_lt.2 hfits)]
  · by_cases hroot : fs.currentDir = fs.rootDir
    · rw [fsGetcwd_root hroot hpos, if_neg (by decide), hi.root_path hroot]
    · have hcwd := hi.cwdString hroot
      have hlen : fs.cwdString.bytes.length < maxPathLength := hcwd ▸ hfits
      rw [fsGetcwd_eq hi.table hroot hpos, fill_fits hlen, ok_bind]
      simp only [hcwd]

end

/-- After any run of these calls the cached path and the one recomputed from the parents agree,
whatever their length; and in the arrays, as far as the cached path fits, both calls succeed
with the same string. -/
theorem where_paths_agree (t : Nat) (ops : List FsOp) :
    (Each trackedStep (fun w op => PlainOp w.fs op) (.init t) ops →
      ∃ w, exec trackedStep (.init t) ops = .ok w ∧
        Agree (getCurrentPath w.path 256) (getcwd w.fs 256)) ∧
    (∀ fs, Each fsStep PlainOp (fsInit t) ops → exec fsStep (fsInit t) ops = .ok fs →
      ∃ s, fsGetCurrentPath fs 256 = (fsSuccess, s) ∧ fsGetcwd fs 256 = .ok (fsSuccess, s)) := by
  constructor
  · intro hp
    obtain ⟨w, he, hi⟩ : ∃ w, exec trackedStep (.init t) ops = .ok w ∧ PathInv w.fs w.path :=
      hp.total (P := fun w => PathInv w.fs w.path) (pathInv_fsInit t)
        fun w op hi hp => hi.trackedStep hp
    exact ⟨w, he, hi.agree (by decide)⟩
  · intro fs hp he
    have hinv : PathInv fs fs.currentPath.toCStr :=
      hp.invariant (P := fun fs => PathInv fs fs.currentPath.toCStr) (pathInv_fsInit t)
        (fun _ _ _ hi hp he => hi.step hp he) he
    exact hinv.arrays

theorem where_paths_agree_home : ∃ w,
    exec trackedStep (.init 0) [.changeDirectory (.ofString "home")] = .ok w ∧
    Agree (getCurrentPath w.path 256) (getcwd w.fs 256) := by
  have hp : Each trackedStep (fun w op => PlainOp w.fs op) (.init 0)
    [.changeDirectory (.ofString "home")] := ⟨trivial, fun _ _ => trivial⟩
  exact (where_paths_agree 0 [.changeDirectory (.ofString "home")]).1 hp

end ChipOS
