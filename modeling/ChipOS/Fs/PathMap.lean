import ChipOS.Fs.Tree
import ChipOS.Lib.TreePaths

namespace ChipOS
open NameTree Run
set_option autoImplicit true

/-- The names on the way from the root to the entry `i` are `p`. -/
def Filesystem.IsPath (fs : Filesystem) (p : List CStr) (i : Nat) : Prop := PathTo fs.links 0 p i

structure EntryInfo where
  type : FileType
  size : Nat
  permissions : Nat
  dataOffset : Nat
  createdTime : Nat
  modifiedTime : Nat
deriving DecidableEq

def FileEntry.info (entry : FileEntry) : EntryInfo where
  type := entry.type
  size := entry.size
  permissions := entry.permissions
  dataOffset := entry.dataOffset
  createdTime := entry.createdTime
  modifiedTime := entry.modifiedTime

/-- The file system as a map from absolute paths to what is there. -/
noncomputable def Filesystem.pathMap (fs : Filesystem) : List CStr → Option EntryInfo :=
  fs.links.at 0 fun i => (fs.files i).info

section
variable {fs : Filesystem} {id : Nat}

theorem isPath_found (hf : findFileInDir fs dir name = some id) (hne : id ≠ 0)
    (hcur : fs.IsPath cur dir) : fs.IsPath (cur ++ [name]) id := by
  obtain ⟨hid, hparent, hname⟩ := findFileInDir_some hf
  have hname' : fs.links.name id = name := hname
  have hparent' : fs.links.parent id = dir := hparent
  rw [← hname']
  exact .snoc hid hne (hparent'.symm ▸ hcur)

theorem leaf_ne_root (ht : IsTree fs.links 0) (hleaf : ∀ j < fs.fileCount, (fs.files j).parentId ≠ id) :
    id ≠ 0 :=
  fun he => hleaf 0 ht.root_live (he ▸ ht.root_parent)

theorem isPath_removeEntry (ht : IsTree fs.links 0) (hid : id < fs.fileCount)
    (hleaf : ∀ j < fs.fileCount, (fs.files j).parentId ≠ id) (hp : fs.IsPath p i) (hne : i ≠ id) :
    (fs.removeEntry id).IsPath p (fs.newSlot id i) := by
  have hpath := (PathTo.erase hleaf hp hne).relabel (ht.erase hleaf) (removeEntry_relabels hid)
  rwa [newSlot_root ht hid hleaf] at hpath

theorem at_removeEntry {info info' : Nat → β} (ht : IsTree fs.links 0) (hid : id < fs.fileCount)
    (hleaf : ∀ j < fs.fileCount, (fs.files j).parentId ≠ id) (hp : fs.IsPath p id)
    (hi : ∀ i < fs.fileCount, i ≠ id → info' (fs.newSlot id i) = info i) :
    (fs.removeEntry id).links.at 0 info' = Function.update (fs.links.at 0 info) p none := by
  have hrelabel := (ht.erase hleaf).at_relabel (removeEntry_relabels hid)
    (fun i hlive => hi i hlive.1 hlive.2)
  rw [newSlot_root ht hid hleaf] at hrelabel
  rw [hrelabel, ht.at_erase hleaf hp]

theorem removed_found (ht : TreeState fs) (hf : findFileInDir fs fs.currentDir name = some id)
    (hleaf : ∀ j < fs.fileCount, (fs.files j).parentId ≠ id) :
    TreeState (fs.removeEntry id) ∧ ∃ cur, fs.IsPath cur fs.currentDir ∧
      (fs.removeEntry id).IsPath cur (fs.removeEntry id).currentDir ∧
      fs.pathMap (cur ++ [name]) = some (fs.files id).info ∧
      (fs.removeEntry id).pathMap = Function.update fs.pathMap (cur ++ [name]) none := by
  have hid := (findFileInDir_some hf).1
  have hcur := found_ne_current hf hleaf
  obtain ⟨cur, hpath⟩ := ht.tree.exists_path ht.current_live
  have hvictim := isPath_found hf (leaf_ne_root ht.tree hleaf) hpath
  refine ⟨treeState_removeEntry ht hid hleaf hcur, cur, hpath, ?_, ht.tree.at_path hvictim, ?_⟩
  · rw [removeEntry_currentDir hid]
    exact isPath_removeEntry ht.tree hid hleaf hpath hcur
  · apply at_removeEntry ht.tree hid hleaf hvictim
    intro i hi hne
    rw [removeEntry_kept hid hi hne]
    rfl

end

inductive Removes (fs : Filesystem) (name : CStr) (fs' : Filesystem) : Prop
  | directory : fsRemoveDirectory fs name = (fsSuccess, fs') → Removes fs name fs'
  | file : findFileInDir fs fs.currentDir name = some i → (fs.files i).type = .regular →
      fsDeleteFile fs name = (fsSuccess, fs') → Removes fs name fs'

/-- A removal leaves a tree, takes the path of the child it names out of the map and nothing
else, and leaves the path of the current directory as it is. -/
theorem removes_one_path (ht : TreeState fs) (hr : Removes fs name fs') :
    TreeState fs' ∧ ∃ cur, fs.IsPath cur fs.currentDir ∧ fs'.IsPath cur fs'.currentDir ∧
      fs.pathMap (cur ++ [name]) ≠ none ∧
      fs'.pathMap = Function.update fs.pathMap (cur ++ [name]) none := by
  have hfound : ∃ id, findFileInDir fs fs.currentDir name = some id ∧
      (∀ j < fs.fileCount, (fs.files j).parentId ≠ id) ∧ fs' = fs.removeEntry id := by
    cases hr with
    | directory he =>
      rcases fsRemoveDirectory_cases he with ⟨hneg, _⟩ | ⟨_, hfound⟩
      · exact absurd rfl (ne_success hneg)
      · exact hfound
    | @file i hf hreg he =>
      rcases fsDeleteFile_cases he with ⟨hneg, _⟩ | ⟨_, id, hid, hfs⟩
      · exact absurd rfl (ne_success hneg)
      · cases hf.symm.trans hid
        exact ⟨i, hf, ht.leaf hreg, hfs⟩
  obtain ⟨id, hf, hleaf, rfl⟩ := hfound
  obtain ⟨htree, cur, hold, hnew, hthere, hmap⟩ := removed_found ht hf hleaf
  refine ⟨htree, cur, hold, hnew, ?_, hmap⟩
  rw [hthere]
  exact Option.some_ne_none _

/-- `rmdir bin` in the root of a new file system. -/
theorem removes_one_path_bin : ∃ cur, (fsInit 0).IsPath cur 0 ∧
    (fsRemoveDirectory (fsInit 0) (.ofString "bin")).2.pathMap =
      Function.update (fsInit 0).pathMap (cur ++ [.ofString "bin"]) none := by
  have hr : fsRemoveDirectory (fsInit 0) (.ofString "bin") = (fsSuccess, _) := rfl
  obtain ⟨_, cur, hcur, _, _, hmap⟩ :=
    removes_one_path (treeInv_fsInit 0).state (.directory hr)
  exact ⟨cur, hcur, hmap⟩

end ChipOS
