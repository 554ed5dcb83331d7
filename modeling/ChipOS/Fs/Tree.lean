import ChipOS.Fs.Storage
import ChipOS.Lib.NameTree

namespace ChipOS
open NameTree Run
set_option autoImplicit true

/-- The live entries with their `parent_id` links. -/
def Filesystem.links (fs : Filesystem) : Links Nat CStr where
  live i := i < fs.fileCount
  inner i := (fs.files i).type = .directory
  parent i := (fs.files i).parentId
  name i := (fs.files i).name.toCStr

/-- The live entries form a tree of directories under the entry 0, which is called `/`. -/
structure TreeInv (fs : Filesystem) : Prop where
  tree : IsTree fs.links 0
  root_name : (fs.files 0).name.toCStr = slash
  current_live : fs.currentDir < fs.fileCount
  current_directory : (fs.files fs.currentDir).type = .directory

/-- The tree of the entries, with no word on the name of the root. -/
structure TreeState (fs : Filesystem) : Prop where
  tree : IsTree fs.links 0
  current_live : fs.currentDir < fs.fileCount
  current_directory : (fs.files fs.currentDir).type = .directory

section
variable {fs : Filesystem} {id : Nat}

theorem TreeInv.state (ht : TreeInv fs) : TreeState fs :=
  ⟨ht.tree, ht.current_live, ht.current_directory⟩

theorem TreeState.named (ht : TreeState fs) (hn : (fs.files 0).name.toCStr = slash) : TreeInv fs :=
  ⟨ht.tree, hn, ht.current_live, ht.current_directory⟩

theorem newSlot_lt (hid : id < fs.fileCount) (hi : i < fs.fileCount) (hne : i ≠ id) :
    fs.newSlot id i < fs.fileCount - 1 := by
  rw [Filesystem.newSlot]
  split <;> omega

theorem oldSlot_newSlot (hne : i ≠ id) : fs.oldSlot id (fs.newSlot id i) = i := by
  rw [Filesystem.newSlot]
  split
  · next hi => rw [hi, Filesystem.oldSlot, if_pos rfl]
  · rw [Filesystem.oldSlot, if_neg hne]

theorem newSlot_oldSlot (hi : i < fs.fileCount - 1) : fs.newSlot id (fs.oldSlot id i) = i := by
  rw [Filesystem.oldSlot]
  split
  · next he => rw [he, Filesystem.newSlot, if_pos rfl]
  · rw [Filesystem.newSlot, if_neg (Nat.ne_of_lt hi)]

/-- Every entry but the one removed is kept, in its new slot and with its parent renumbered. -/
theorem removeEntry_kept (hid : id < fs.fileCount) (hi : i < fs.fileCount) (hne : i ≠ id) :
    (fs.removeEntry id).files (fs.newSlot id i) =
      { fs.files i with parentId := fs.newSlot id (fs.files i).parentId } := by
  rw [removeEntry_files hid (newSlot_lt hid hi hne), oldSlot_newSlot hne]

theorem removeEntry_relabels (hid : id < fs.fileCount) :
    Relabels (fs.newSlot id) { fs.links with live := fun i => fs.links.live i ∧ i ≠ id }
      (fs.removeEntry id).links := by
  have hfile : ∀ i, i < fs.fileCount ∧ i ≠ id → (fs.removeEntry id).files (fs.newSlot id i) =
      { fs.files i with parentId := fs.newSlot id (fs.files i).parentId } :=
    fun i hi => removeEntry_kept hid hi.1 hi.2
  refine ⟨fun i hi => ?_, fun j hj => ?_, fun i j hi hj he => ?_, fun i hi ht => ?_,
    fun i hi => ?_, fun i hi => ?_⟩
  · change _ < (fs.removeEntry id).fileCount
    rw [removeEntry_fileCount]
    exact newSlot_lt hid hi.1 hi.2
  · have hcount : (fs.removeEntry id).fileCount = fs.fileCount - 1 := removeEntry_fileCount
    have hj' : j < fs.fileCount - 1 := hcount ▸ hj
    exact ⟨fs.oldSlot id j, ⟨oldSlot_lt hid hj', oldSlot_ne hj'⟩, newSlot_oldSlot hj'⟩
  · have hslot : fs.oldSlot id (fs.newSlot id i) = i := oldSlot_newSlot hi.2
    rw [← hslot, he, oldSlot_newSlot hj.2]
  · exact (congrArg FileEntry.type (hfile i hi)).trans ht
  · exact congrArg FileEntry.parentId (hfile i hi)
  · have hname := congrArg (fun entry : FileEntry => entry.name.toCStr) (hfile i hi)
    exact hname

theorem newSlot_root (ht : IsTree fs.links 0) (hid : id < fs.fileCount)
    (hleaf : ∀ j < fs.fileCount, (fs.files j).parentId ≠ id) : fs.newSlot id 0 = 0 := by
  have hne : id ≠ 0 := fun he => hleaf 0 ht.root_live (he ▸ ht.root_parent)
  rw [Filesystem.newSlot, if_neg (by omega)]

theorem treeState_removeEntry (ht : TreeState fs) (hid : id < fs.fileCount)
    (hleaf : ∀ j < fs.fileCount, (fs.files j).parentId ≠ id) (hcur : fs.currentDir ≠ id) :
    TreeState (fs.removeEntry id) := by
  have hrel := removeEntry_relabels hid
  have hcurrent : fs.links.live fs.currentDir ∧ fs.currentDir ≠ id := ⟨ht.current_live, hcur⟩
  have htree := (ht.tree.erase hleaf).relabel hrel
  rw [newSlot_root ht.tree hid hleaf] at htree
  refine ⟨htree, ?_, ?_⟩
  · rw [removeEntry_currentDir hid]
    exact hrel.live _ hcurrent
  · rw [removeEntry_currentDir hid]
    exact hrel.inner _ hcurrent ht.current_directory

theorem treeInv_removeEntry (ht : TreeInv fs) (hid : id < fs.fileCount)
    (hleaf : ∀ j < fs.fileCount, (fs.files j).parentId ≠ id) (hcur : fs.currentDir ≠ id) :
    TreeInv (fs.removeEntry id) := by
  apply (treeState_removeEntry ht.state hid hleaf hcur).named
  have hname := (removeEntry_relabels hid).name 0 (ht.tree.erase hleaf).root_live
  rw [newSlot_root ht.tree hid hleaf] at hname
  exact hname.trans ht.root_name

theorem TreeState.congr {fs' : Filesystem} (ht : TreeState fs) (hl : fs'.links = fs.links)
    (hc : fs'.currentDir = fs.currentDir) : TreeState fs' := by
  have hlive : fs'.links.live = fs.links.live := congrArg Links.live hl
  have hinner : fs'.links.inner = fs.links.inner := congrArg Links.inner hl
  refine ⟨hl ▸ ht.tree, ?_, ?_⟩
  · change fs'.links.live fs'.currentDir
    rw [hlive, hc]
    exact ht.current_live
  · change fs'.links.inner fs'.currentDir
    rw [hinner, hc]
    exact ht.current_directory

theorem TreeInv.congr {fs' : Filesystem} (ht : TreeInv fs) (hl : fs'.links = fs.links)
    (hc : fs'.currentDir = fs.currentDir) : TreeInv fs' := by
  have hname : (fs'.files 0).name.toCStr = (fs.files 0).name.toCStr := congrArg (·.name 0) hl
  exact (ht.state.congr hl hc).named (hname.trans ht.root_name)

theorem storeData_links : (fs.storeData i data n).links = fs.links := by
  simp only [Filesystem.links, storeData_parentId, storeData_name, storeData_type]
  rfl

theorem treeInv_storeData (ht : TreeInv fs) : TreeInv (fs.storeData i data n) :=
  ht.congr storeData_links rfl

theorem stamp_links : (fs.stamp i).links = fs.links := by
  have hp : ∀ j, ((fs.stamp i).files j).parentId = (fs.files j).parentId :=
    fun _ => update_field (f := FileEntry.parentId) rfl
  have hn : ∀ j, ((fs.stamp i).files j).name = (fs.files j).name :=
    fun _ => update_field (f := FileEntry.name) rfl
  have hty : ∀ j, ((fs.stamp i).files j).type = (fs.files j).type :=
    fun _ => update_field (f := FileEntry.type) rfl
  simp only [Filesystem.links, hp, hn, hty]
  rfl

theorem treeInv_stamp (ht : TreeInv fs) : TreeInv (fs.stamp i) := ht.congr stamp_links rfl

theorem addEntry_inserts {h : fs.fileCount < maxFiles} :
    Inserts fs.links fs.fileCount (fs.addEntry entry h).tick.links := by
  have hold : ∀ i < fs.fileCount, (fs.addEntry entry h).tick.files i = fs.files i :=
    fun i hi => addEntry_files_lt hi
  refine ⟨Nat.lt_irrefl _, fun i => Nat.lt_succ_iff_lt_or_eq, fun i hi hty => ?_, fun i hi => ?_,
    fun i hi => ?_⟩
  · exact (congrArg FileEntry.type (hold i hi)).trans hty
  · exact congrArg FileEntry.parentId (hold i hi)
  · exact congrArg (fun entry : FileEntry => entry.name.toCStr) (hold i hi)

theorem treeState_addEntry {h : fs.fileCount < maxFiles} (ht : TreeState fs)
    (hn : Fresh fs s t entry) : TreeState (fs.addEntry entry h).tick := by
  have hself : (fs.addEntry entry h).tick.files fs.fileCount = entry := addEntry_files_self
  have hparent : (fs.addEntry entry h).tick.links.parent fs.fileCount = fs.currentDir :=
    (congrArg FileEntry.parentId hself).trans hn.parent
  have hname : (fs.addEntry entry h).tick.links.name fs.fileCount = s :=
    (congrArg (fun entry : FileEntry => entry.name.toCStr) hself).trans hn.name
  refine ⟨ht.tree.insert addEntry_inserts ?_ ?_ ?_, Nat.lt_succ_of_lt ht.current_live, ?_⟩
  · rw [hparent]
    exact ht.current_live
  · rw [hparent]
    exact ht.current_directory
  · intro i hi hp
    rw [hparent] at hp
    rw [hname]
    exact findFileInDir_none hn.absent hi hp
  · exact (congrArg FileEntry.type (addEntry_files_lt ht.current_live)).trans ht.current_directory

theorem treeInv_addEntry {h : fs.fileCount < maxFiles} (ht : TreeInv fs)
    (hn : Fresh fs s t entry) : TreeInv (fs.addEntry entry h).tick := by
  apply (treeState_addEntry ht.state hn).named
  rw [addEntry_files_lt ht.tree.root_live]
  exact ht.root_name

theorem treeInv_enter (ht : TreeInv fs) (hd : d < fs.fileCount)
    (hty : (fs.files d).type = .directory) :
    TreeInv { fs with currentDir := d, currentPath := p, nextFileId := n } :=
  ⟨ht.tree, ht.root_name, hd, hty⟩

theorem found_ne_current (hf : findFileInDir fs fs.currentDir name = some id)
    (hleaf : ∀ j < fs.fileCount, (fs.files j).parentId ≠ id) : fs.currentDir ≠ id := by
  obtain ⟨hid, hparent, _⟩ := findFileInDir_some hf
  intro hc
  exact hleaf id hid (hparent.trans hc)

theorem treeInv_removeFound (ht : TreeInv fs) (hf : findFileInDir fs fs.currentDir name = some id)
    (hleaf : ∀ j < fs.fileCount, (fs.files j).parentId ≠ id) : TreeInv (fs.removeEntry id) :=
  treeInv_removeEntry ht (findFileInDir_some hf).1 hleaf (found_ne_current hf hleaf)

theorem find_iff (ht : IsTree fs.links 0) : findFileInDir fs dir s = some i ↔
    i < fs.fileCount ∧ (fs.files i).parentId = dir ∧ (fs.files i).name.toCStr = s := by
  refine ⟨findFileInDir_some, fun ⟨hi, hparent, hname⟩ => ?_⟩
  cases hf : findFileInDir fs dir s with
  | none => exact absurd hname (findFileInDir_none hf hi hparent)
  | some j =>
    obtain ⟨hj, hparent', hname'⟩ := findFileInDir_some hf
    have he := ht.name_inj i j hi hj (hparent.trans hparent'.symm) (hname.trans hname'.symm)
    rw [he]

theorem find_removeEntry (ht : TreeState fs) (hid : id < fs.fileCount)
    (hleaf : ∀ j < fs.fileCount, (fs.files j).parentId ≠ id) (hcur : fs.currentDir ≠ id) :
    findFileInDir (fs.removeEntry id) (fs.removeEntry id).currentDir s = some k ↔
      ∃ i, findFileInDir fs fs.currentDir s = some i ∧ i ≠ id ∧ fs.newSlot id i = k := by
  have hrel := removeEntry_relabels hid
  have hcurrent : fs.links.live fs.currentDir ∧ fs.currentDir ≠ id := ⟨ht.current_live, hcur⟩
  rw [find_iff (treeState_removeEntry ht hid hleaf hcur).tree, removeEntry_currentDir hid]
  constructor
  · rintro ⟨hk, hparent, hname⟩
    obtain ⟨i, hi, rfl⟩ := hrel.onto k hk
    have hp : fs.newSlot id (fs.files i).parentId = fs.newSlot id fs.currentDir :=
      (hrel.parent i hi).symm.trans hparent
    have hlive : fs.links.live (fs.files i).parentId ∧ (fs.files i).parentId ≠ id :=
      ⟨ht.tree.parent_live i hi.1, hleaf i hi.1⟩
    refine ⟨i, (find_iff ht.tree).2 ⟨hi.1, hrel.inj _ _ hlive hcurrent hp, ?_⟩, hi.2, rfl⟩
    exact (hrel.name i hi).symm.trans hname
  · rintro ⟨i, hf, hne, rfl⟩
    obtain ⟨hi, hparent, hname⟩ := findFileInDir_some hf
    have hparent' : fs.links.parent i = fs.currentDir := hparent
    refine ⟨hrel.live i ⟨hi, hne⟩, ?_, (hrel.name i ⟨hi, hne⟩).trans hname⟩
    exact (hrel.parent i ⟨hi, hne⟩).trans (congrArg _ hparent')

theorem TreeState.leaf (ht : TreeState fs) (hr : (fs.files id).type = .regular) :
    ∀ j < fs.fileCount, (fs.files j).parentId ≠ id := by
  rintro j hj rfl
  cases hr.symm.trans (ht.tree.parent_inner j hj)

theorem treeInv_opened {fs₁ : Filesystem} (ht : TreeInv fs) (ho : Opened fs name i fs₁) :
    TreeInv fs₁ := by
  cases ho with
  | existing => exact ht
  | created hn => exact treeInv_addEntry ht hn

theorem treeInv_write {fs' : Filesystem} (ht : TreeInv fs)
    (he : fsWriteFile fs name data size = .ok (r, fs')) : TreeInv fs' := by
  rcases fsWriteFile_cases he with ⟨_, rfl⟩ | ⟨_, i, fs₁, ho, _, _, _, rfl⟩
  · exact ht
  · exact treeInv_storeData (treeInv_opened ht ho)

theorem treeInv_makeDirectory (ht : TreeInv fs) (name : CStr) :
    TreeInv (fsMakeDirectory fs name).2 := by
  have he : fsMakeDirectory fs name = (_, (fsMakeDirectory fs name).2) := rfl
  rcases fsMakeDirectory_cases he with ⟨_, he⟩ | ⟨_, entry, h, hn, he⟩
  · rwa [he]
  · rw [he]
    have hadd : TreeInv (fs.addEntry entry h).tick := treeInv_addEntry ht hn
    exact treeInv_enter hadd hadd.current_live hadd.current_directory

theorem addEntry_leaf {h : fs.fileCount < maxFiles} (ht : TreeInv fs) (hn : Fresh fs s t entry) :
    ∀ j < (fs.addEntry entry h).tick.fileCount,
      ((fs.addEntry entry h).tick.files j).parentId ≠ fs.fileCount := by
  intro j hj hp
  have hlast : (fs.addEntry entry h).tick.fileCount = fs.fileCount + 1 := rfl
  rw [hlast] at hj
  rcases Nat.lt_succ_iff_lt_or_eq.1 hj with hj | rfl
  · have hparent : (fs.files j).parentId < fs.fileCount := ht.tree.parent_live j hj
    rw [addEntry_files_lt hj] at hp
    exact absurd hp (Nat.ne_of_lt hparent)
  · rw [addEntry_files_self, hn.parent] at hp
    exact absurd hp (Nat.ne_of_lt ht.current_live)

/-- Taking off the entry appended last. -/
theorem treeInv_rollback {h : fs.fileCount < maxFiles} (ht : TreeInv fs)
    (hn : Fresh fs s t entry) : TreeInv ((fs.addEntry entry h).tick.removeEntry fs.fileCount) :=
  treeInv_removeEntry (treeInv_addEntry ht hn) (Nat.lt_succ_self _) (addEntry_leaf ht hn)
    (Nat.ne_of_lt ht.current_live)

end

theorem treeInv_fsInit (t : Nat) : TreeInv (fsInit t) := by
  have hroot : TreeInv (fsRoot t) := by
    have hlive : ∀ i, (fsRoot t).links.live i → i = 0 := fun i hi => Nat.lt_one_iff.1 hi
    have hself : (fsRoot t).links.parent 0 = 0 := rfl
    refine ⟨⟨Nat.one_pos, rfl, hself, ?_, ?_, ?_, ?_⟩, rfl, Nat.one_pos, rfl⟩
    · intro i hi
      rw [hlive i hi]
      exact Nat.one_pos
    · intro i hi
      rw [hlive i hi]
      rfl
    · intro i hi
      rw [hlive i hi]
      exact .base
    · intro i j hi hj _ _
      rw [hlive i hi, hlive j hj]
  exact treeInv_makeDirectory (treeInv_makeDirectory (treeInv_makeDirectory hroot _) _) _

/-- `fs_delete_file` finds nothing, or an entry that is the parent of none. -/
def DeletesLeaf (fs : Filesystem) : FsOp → Prop
  | .deleteFile name => ∀ i, findFileInDir fs fs.currentDir name = some i →
      ∀ j < fs.fileCount, (fs.files j).parentId ≠ i
  | _ => True

theorem treeInv_call (ht : TreeInv fs) (hd : DeletesLeaf fs op)
    (he : fsCall fs op = .ok (r, fs')) : TreeInv fs' := by
  cases op with
  | createFile name type =>
    rcases fsCreateFile_cases he with ⟨_, rfl⟩ | ⟨_, entry, h, hn, rfl⟩
    · exact ht
    · exact treeInv_addEntry ht hn
  | writeFile name data size => exact treeInv_write ht he
  | touchFile name =>
    rcases fsTouchFile_cases he with ⟨_, rfl⟩ | ⟨_, i, _, rfl⟩ | ⟨_, entry, h, hn, _, rfl⟩
    · exact ht
    · exact treeInv_stamp ht
    · exact treeInv_storeData (treeInv_addEntry ht hn)
  | makeDirectory name =>
    have hm := treeInv_makeDirectory ht name
    rwa [Except.ok.inj he] at hm
  | deleteFile name =>
    rcases fsDeleteFile_cases (Except.ok.inj he) with ⟨_, rfl⟩ | ⟨_, i, hf, rfl⟩
    · exact ht
    · exact treeInv_removeFound ht hf (hd i hf)
  | removeDirectory name =>
    rcases fsRemoveDirectory_cases (Except.ok.inj he) with ⟨_, rfl⟩ | ⟨_, i, hf, hleaf, rfl⟩
    · exact ht
    · exact treeInv_removeFound ht hf hleaf
  | copyFile src dest =>
    rcases fsCopyFile_cases he with ⟨_, rfl⟩ | ⟨i, n, _, _, _, hw⟩
    · exact ht
    · exact treeInv_write ht hw
  | moveFile src dest =>
    rcases fsMoveFile_cases he with ⟨_, rfl⟩ | ⟨_, entry, h, t, hn, rfl⟩ |
      ⟨_, i, entry, h, data, hf, hreg, hn, _, _, rfl⟩
    · exact ht
    · exact treeInv_rollback ht hn
    · have hstore : TreeInv ((fs.addEntry entry h).tick.storeData fs.fileCount data
        (writeSize (fs.files i).size)) := treeInv_storeData (treeInv_addEntry ht hn)
      have hcur : ((fs.addEntry entry h).tick.storeData fs.fileCount data
        (writeSize (fs.files i).size)).currentDir = fs.currentDir := rfl
      have hfound : findFileInDir ((fs.addEntry entry h).tick.storeData fs.fileCount data
          (writeSize (fs.files i).size)) fs.currentDir src = some i := by
        rw [findFileInDir_storeData]
        exact findFileInDir_addEntry_old hf
      apply treeInv_removeFound hstore (hcur ▸ hfound)
      apply hstore.state.leaf
      rw [storeData_type, addEntry_files_lt (findFileInDir_some hf).1]
      exact hreg
  | changeDirectory path =>
    rcases fsChangeDirectory_cases he with rfl | ⟨_, d, p, rfl, rfl | ⟨hd, hty⟩⟩
    · exact ht
    · exact treeInv_enter ht (ht.tree.parent_live _ ht.current_live)
        (ht.tree.parent_inner _ ht.current_live)
    · exact treeInv_enter ht hd hty

theorem treeInv_step (ht : TreeInv fs) (hd : DeletesLeaf fs op) (he : fsStep fs op = .ok fs') :
    TreeInv fs' := by
  obtain ⟨r, hcall⟩ := fsStep_eq_ok he
  exact treeInv_call ht hd hcall

/-- The entries stay a tree in every run that deletes only leaves by `fs_delete_file`. -/
theorem entries_form_tree (t : Nat) (ops : List FsOp) (hd : Each fsStep DeletesLeaf (fsInit t) ops)
    (he : exec fsStep (fsInit t) ops = .ok fs) : TreeInv fs :=
  hd.invariant (treeInv_fsInit t) (fun _ _ _ ht hd he => treeInv_step ht hd he) he

theorem entries_form_tree_bin : ∃ fs,
    exec fsStep (fsInit 0) [.deleteFile (.ofString "bin")] = .ok fs ∧ TreeInv fs := by
  refine ⟨_, rfl, entries_form_tree 0 [.deleteFile (.ofString "bin")] ⟨?_, fun _ _ => trivial⟩ rfl⟩
  intro i hf
  have hbin : findFileInDir (fsInit 0) (fsInit 0).currentDir (.ofString "bin") = some 2 := by decide
  cases hbin.symm.trans hf
  decide

/-- The file left behind in a deleted directory becomes its own parent. -/
theorem delete_breaks_tree : ∃ fs,
    exec fsStep (fsInit 0) [.changeDirectory (.ofString "home"), .touchFile (.ofString "a"),
      .changeDirectory (.ofString ".."), .deleteFile (.ofString "home")] = .ok fs ∧
    (fs.files 1).type = .regular ∧ (fs.files 1).parentId = 1 ∧ ¬TreeInv fs := by
  refine ⟨_, rfl, rfl, rfl, fun ht => ?_⟩
  have hlive : 1 < 4 := by decide
  have hinner : FileType.regular = .directory := ht.tree.parent_inner 1 hlive
  cases hinner

end ChipOS
