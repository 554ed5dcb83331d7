import ChipOS.Fs.Isolation
import ChipOS.Fs.PathMap

namespace ChipOS
open ByteMemory NameTree Run
set_option autoImplicit true

/-- The type and size of an entry, and the bytes when it is a regular file. -/
def Filesystem.held (fs : Filesystem) (i : Nat) : FileType × Nat × List UInt8 :=
  ((fs.files i).type, (fs.files i).size,
    if (fs.files i).type = .regular then fs.content i else [])

/-- The file system as a map from absolute paths to types, sizes and contents. -/
noncomputable def Filesystem.contentMap (fs : Filesystem) :
    List CStr → Option (FileType × Nat × List UInt8) :=
  fs.links.at 0 fs.held

section
variable {fs : Filesystem} {h : fs.fileCount < maxFiles}

theorem held_regular (ht : (fs.files i).type = .regular) :
    fs.held i = (.regular, (fs.files i).size, fs.content i) := by
  rw [Filesystem.held, if_pos ht, ht]

/-- The state in which `fs_move_file` has written the destination. -/
def Filesystem.filled (fs : Filesystem) (entry : FileEntry) (h : fs.fileCount < maxFiles)
    (i : Nat) : Filesystem :=
  (fs.addEntry entry h).tick.storeData fs.fileCount (fs.content i) (fs.files i).size

theorem content_length : (fs.content i).length = (fs.files i).size := slice_length

theorem moveData_regular (hn : Fresh fs dest .regular entry)
    (hf : findFileInDir fs fs.currentDir src = some i) (ht : (fs.files i).type = .regular)
    (hext : (fs.files i).dataOffset + (fs.files i).size ≤ fs.dataUsage)
    (hsize : (fs.files i).size ≤ maxFileSize)
    (hroom : fs.dataUsage + (fs.files i).size ≤ storageSize) :
    moveData (fs.addEntry entry h).tick i src dest =
      .ok (fsSuccess, (fs.filled entry h i).removeEntry i) := by
  have hfile : (fs.addEntry entry h).tick.files i = fs.files i :=
    addEntry_files_lt (findFileInDir_some hf).1
  have hsrc : findFileInDir (fs.addEntry entry h).tick
      (fs.addEntry entry h).tick.currentDir src = some i := findFileInDir_addEntry_old hf
  have hdest : findFileInDir (fs.addEntry entry h).tick
      (fs.addEntry entry h).tick.currentDir dest = some fs.fileCount := hn.find
  have hall : (fs.files i).size = readSize (fs.files i) (fs.files i).size := by
    rw [readSize, ite_self]
  have hin : ((fs.addEntry entry h).tick.files i).dataOffset + (fs.files i).size ≤ storageSize := by
    rw [hfile]
    omega
  have hread : fsReadFile (fs.addEntry entry h).tick src maxFileSize (fs.files i).size =
      .ok (((fs.files i).size : Int), fs.content i) := by
    rw [fsReadFile_regular hsrc (hfile ▸ ht) (hfile ▸ hall) hin hsize, hfile]
    rfl
  have hwrite : writeSize (fs.files i).size = (fs.files i).size :=
    if_neg (Nat.not_lt.2 hsize)
  have hwritten : fsWriteFile (fs.addEntry entry h).tick dest (fs.content i) (fs.files i).size =
      .ok (fsSuccess, fs.filled entry h i) := by
    rw [fsWriteFile, hdest]
    simp only
    rw [writeEntry_regular hn.added_type (by rw [hn.added_offset, hwrite]; exact hroom)
      (by rw [hwrite, content_length]), hwrite]
    rfl
  have hu32 : toU32 ((fs.files i).size : Int) = (fs.files i).size := by
    have hsmall : maxFileSize = 4096 := rfl
    rw [toU32]
    omega
  have hfound : findFileInDir (fs.filled entry h i) (fs.filled entry h i).currentDir src =
    some i := findFileInDir_storeData.trans hsrc
  rw [moveData, hfile, hread, ok_bind]
  simp only
  rw [hu32, if_neg (not_not.2 rfl), hwritten, ok_bind]
  simp only
  rw [if_neg (not_not.2 rfl), fsDeleteFile, hfound]
  rfl

theorem held_filled (hn : Fresh fs dest .regular entry) (hj : j < fs.fileCount)
    (hext : ∀ j < fs.fileCount, (fs.files j).type = .regular →
      (fs.files j).dataOffset + (fs.files j).size ≤ fs.dataUsage) :
    (fs.filled entry h i).held j = fs.held j := by
  have hadd : (fs.addEntry entry h).tick.files j = fs.files j := addEntry_files_lt hj
  have hfile : (fs.filled entry h i).files j = fs.files j :=
    (storeData_files_of_ne (Nat.ne_of_lt hj)).trans hadd
  rw [Filesystem.held, Filesystem.held, hfile]
  by_cases ht : (fs.files j).type = .regular
  swap
  · rw [if_neg ht, if_neg ht]
  have hclear : Copy.Clear ⟨fs.fileCount,
      ((fs.addEntry entry h).tick.files fs.fileCount).dataOffset, (fs.files i).size⟩
      (fs.addEntry entry h).tick j := by
    intro x hlo _ hx
    simp only [hn.added_offset] at hlo
    rw [Filesystem.InExtent, hadd] at hx
    have := hext j hj ht
    omega
  have hcontent : (fs.filled entry h i).content j = fs.content j := by
    rw [Filesystem.filled, (unchanged_storeData (Nat.le_of_eq content_length.symm)
      (Nat.ne_of_lt hj) hclear).content]
    rw [Filesystem.content, hadd]
    rfl
  rw [hcontent]

theorem held_destination (hn : Fresh fs dest .regular entry) :
    (fs.filled entry h i).held fs.fileCount = (.regular, (fs.files i).size, fs.content i) := by
  have ht : ((fs.filled entry h i).files fs.fileCount).type = .regular :=
    storeData_type.trans hn.added_type
  have hsize : ((fs.filled entry h i).files fs.fileCount).size = (fs.files i).size :=
    storeData_size_self
  have hoff : ((fs.filled entry h i).files fs.fileCount).dataOffset = fs.dataUsage :=
    storeData_dataOffset.trans hn.added_offset
  have hstore : (fs.filled entry h i).dataStorage = blit fs.dataStorage fs.dataUsage (fs.content i) := by
    have htake : (fs.content i).take (fs.files i).size = fs.content i :=
      List.take_of_length_le (Nat.le_of_eq content_length)
    have hblit : (fs.filled entry h i).dataStorage = blit fs.dataStorage
      ((fs.addEntry entry h).tick.files fs.fileCount).dataOffset
      ((fs.content i).take (fs.files i).size) := rfl
    rw [hblit, hn.added_offset, htake]
  have hcontent : (fs.filled entry h i).content fs.fileCount = fs.content i := by
    have hlen : (fs.files i).size = (fs.content i).length := content_length.symm
    rw [Filesystem.content, hoff, hsize, hstore, hlen, slice_blit_same]
  rw [held_regular ht, hsize, hcontent]

theorem filled_inserts :
    Inserts fs.links fs.fileCount (fs.filled entry h i).links := by
  rw [Filesystem.filled, storeData_links]
  exact addEntry_inserts

theorem filled_state (ht : TreeState fs) (hn : Fresh fs dest .regular entry) :
    TreeState (fs.filled entry h i) :=
  (treeState_addEntry ht hn).congr storeData_links rfl

theorem held_removeEntry {id : Nat} (hid : id < fs.fileCount) (hj : j < fs.fileCount)
    (hne : j ≠ id) : (fs.removeEntry id).held (fs.newSlot id j) = fs.held j := by
  simp only [Filesystem.held, Filesystem.content, removeEntry_kept hid hj hne,
    removeEntry_dataStorage]

/-- A file of at most `maxFileSize` bytes is read whole. -/
theorem fsReadFile_whole (hf : findFileInDir fs fs.currentDir name = some i)
    (ht : (fs.files i).type = .regular)
    (hs : (fs.files i).dataOffset + (fs.files i).size ≤ storageSize)
    (hsize : (fs.files i).size ≤ maxFileSize) :
    fsReadFile fs name maxFileSize maxFileSize = .ok (((fs.files i).size : Int), fs.content i) := by
  have hall : (fs.files i).size = readSize (fs.files i) maxFileSize := by
    rw [readSize]
    split <;> omega
  exact fsReadFile_regular hf ht hall hs hsize

theorem filled_files (hj : j < fs.fileCount) : (fs.filled entry h i).files j = fs.files j :=
  (storeData_files_of_ne (Nat.ne_of_lt hj)).trans (addEntry_files_lt hj)

theorem filled_source (hf : findFileInDir fs fs.currentDir src = some i) :
    findFileInDir (fs.filled entry h i) (fs.filled entry h i).currentDir src = some i :=
  findFileInDir_storeData.trans (findFileInDir_addEntry_old hf)

theorem filled_destination (hn : Fresh fs dest .regular entry) :
    findFileInDir (fs.filled entry h i) (fs.filled entry h i).currentDir dest =
      some fs.fileCount :=
  findFileInDir_storeData.trans hn.find

theorem filled_leaf (ht : TreeState fs) (hn : Fresh fs dest .regular entry)
    (hi : i < fs.fileCount) (hreg : (fs.files i).type = .regular) :
    ∀ j < (fs.filled entry h i).fileCount, ((fs.filled entry h i).files j).parentId ≠ i := by
  apply (filled_state ht hn).leaf
  rw [filled_files hi]
  exact hreg

theorem contentMap_moved (ht : TreeState fs)
    (hext : ∀ j < fs.fileCount, (fs.files j).type = .regular →
      (fs.files j).dataOffset + (fs.files j).size ≤ fs.dataUsage)
    (hn : Fresh fs dest .regular entry) (hf : findFileInDir fs fs.currentDir src = some i)
    (hreg : (fs.files i).type = .regular) (hcur : fs.IsPath cur fs.currentDir) :
    ((fs.filled entry h i).removeEntry i).IsPath cur
        ((fs.filled entry h i).removeEntry i).currentDir ∧
      ((fs.filled entry h i).removeEntry i).contentMap =
        Function.update (Function.update fs.contentMap (cur ++ [dest])
          (some (.regular, (fs.files i).size, fs.content i))) (cur ++ [src]) none := by
  have hi : i < fs.fileCount := (findFileInDir_some hf).1
  have hi' : i < (fs.filled entry h i).fileCount := Nat.lt_succ_of_lt hi
  have hstate : TreeState (fs.filled entry h i) := filled_state ht hn
  have hleaf : ∀ j < (fs.filled entry h i).fileCount,
    ((fs.filled entry h i).files j).parentId ≠ i := filled_leaf ht hn hi hreg
  have hpath : (fs.filled entry h i).IsPath cur (fs.filled entry h i).currentDir :=
    PathTo.insert filled_inserts hcur
  have hnew : (fs.filled entry h i).IsPath (cur ++ [dest]) fs.fileCount :=
    isPath_found (filled_destination hn) (Nat.ne_of_gt (Nat.zero_lt_of_lt hi)) hpath
  have hold : (fs.filled entry h i).IsPath (cur ++ [src]) i :=
    isPath_found (filled_source hf) (leaf_ne_root hstate.tree hleaf) hpath
  have hadd : (fs.filled entry h i).contentMap = Function.update fs.contentMap (cur ++ [dest])
      (some (.regular, (fs.files i).size, fs.content i)) := by
    rw [← held_destination hn]
    exact ht.tree.at_insert filled_inserts hstate.tree
      (fun j hj => held_filled hn hj hext) hnew
  constructor
  · rw [removeEntry_currentDir hi']
    exact isPath_removeEntry hstate.tree hi' hleaf hpath
      (found_ne_current (filled_source hf) hleaf)
  · rw [← hadd]
    exact at_removeEntry hstate.tree hi' hleaf hold fun j hj hne => held_removeEntry hi' hj hne

theorem lookups_moved (ht : TreeState fs) (hn : Fresh fs dest .regular entry)
    (hf : findFileInDir fs fs.currentDir src = some i) (hreg : (fs.files i).type = .regular)
    (hsize : (fs.files i).size ≤ maxFileSize)
    (hroom : fs.dataUsage + (fs.files i).size ≤ storageSize) :
    fsReadFile ((fs.filled entry h i).removeEntry i) dest maxFileSize maxFileSize =
        .ok (((fs.files i).size : Int), fs.content i) ∧
      findFileInDir ((fs.filled entry h i).removeEntry i)
        ((fs.filled entry h i).removeEntry i).currentDir src = none := by
  have hi : i < fs.fileCount := (findFileInDir_some hf).1
  have hi' : i < (fs.filled entry h i).fileCount := Nat.lt_succ_of_lt hi
  have hne : fs.fileCount ≠ i := Nat.ne_of_gt hi
  have hstate : TreeState (fs.filled entry h i) := filled_state ht hn
  have hleaf : ∀ j < (fs.filled entry h i).fileCount,
    ((fs.filled entry h i).files j).parentId ≠ i := filled_leaf ht hn hi hreg
  have hcur := found_ne_current (filled_source hf) hleaf
  have hfind : ∀ s k, findFileInDir ((fs.filled entry h i).removeEntry i)
      ((fs.filled entry h i).removeEntry i).currentDir s = some k ↔
      ∃ j, findFileInDir (fs.filled entry h i) (fs.filled entry h i).currentDir s = some j ∧
        j ≠ i ∧ (fs.filled entry h i).newSlot i j = k :=
    fun s k => find_removeEntry hstate hi' hleaf hcur
  constructor
  · have hslot := (hfind dest _).2 ⟨fs.fileCount, filled_destination hn, hne, rfl⟩
    have hheld := held_removeEntry hi' (Nat.lt_succ_self fs.fileCount) hne
    have hkept := removeEntry_kept hi' (Nat.lt_succ_self fs.fileCount) hne
    have hoff : ((fs.filled entry h i).files fs.fileCount).dataOffset = fs.dataUsage :=
      storeData_dataOffset.trans hn.added_offset
    rw [held_destination hn] at hheld
    have htype : (((fs.filled entry h i).removeEntry i).files
        ((fs.filled entry h i).newSlot i fs.fileCount)).type = .regular :=
      congrArg Prod.fst hheld
    rw [held_regular htype] at hheld
    obtain ⟨hsz, hcontent⟩ := Prod.mk.inj (Prod.mk.inj hheld).2
    rw [← hcontent, ← hsz]
    apply fsReadFile_whole hslot htype
    · rw [hsz, hkept, hoff]
      exact hroom
    · rwa [hsz]
  · rw [Option.eq_none_iff_forall_ne_some]
    intro k hk
    obtain ⟨j, hj, hne', _⟩ := (hfind src k).1 hk
    exact hne' (Option.some.inj (hj.symm.trans (filled_source hf)))

end

/-- `fs_move_file` of a regular file succeeds when the table and the storage have room. The
destination reads back the bytes of the source, which is found no more; every other path keeps
its type, size and contents, and the current directory its path. -/
theorem move_file_moves (ht : TreeState fs)
    (hext : ∀ j < fs.fileCount, (fs.files j).type = .regular →
      (fs.files j).dataOffset + (fs.files j).size ≤ fs.dataUsage)
    (hsrc : findFileInDir fs fs.currentDir src = some i) (hreg : (fs.files i).type = .regular)
    (hsize : (fs.files i).size ≤ maxFileSize)
    (hdest : findFileInDir fs fs.currentDir dest = none) (hlen : dest.bytes.length ≤ 62)
    (hcount : fs.fileCount < maxFiles)
    (hroom : fs.dataUsage + (fs.files i).size ≤ storageSize) :
    ∃ fs' cur, fsMoveFile fs src dest = .ok (fsSuccess, fs') ∧
      fsReadFile fs' dest maxFileSize maxFileSize =
        .ok (((fs.files i).size : Int), fs.content i) ∧
      findFileInDir fs' fs'.currentDir src = none ∧
      fs.IsPath cur fs.currentDir ∧ fs'.IsPath cur fs'.currentDir ∧
      fs'.contentMap = Function.update (Function.update fs.contentMap (cur ++ [dest])
        (some (.regular, (fs.files i).size, fs.content i))) (cur ++ [src]) none := by
  have hshort : dest.bytes.length < maxFilename - 1 := Nat.lt_succ_of_le hlen
  obtain ⟨entry, hn, hcreate⟩ : ∃ entry, Fresh fs dest .regular entry ∧
    fsCreateFile fs dest .regular = _ := fsCreateFile_new hcount hdest hshort
  obtain ⟨cur, hcur⟩ := ht.tree.exists_path ht.current_live
  obtain ⟨hcur', hmap⟩ : _ ∧ ((fs.filled entry hcount i).removeEntry i).contentMap = _ :=
    contentMap_moved ht hext hn hsrc hreg hcur
  obtain ⟨hread, hgone⟩ :
    fsReadFile ((fs.filled entry hcount i).removeEntry i) dest _ _ = _ ∧ _ :=
    lookups_moved ht hn hsrc hreg hsize hroom
  refine ⟨(fs.filled entry hcount i).removeEntry i, cur, ?_, hread, hgone, hcur, hcur', hmap⟩
  rw [fsMoveFile, hsrc]
  simp only
  rw [hdest, if_neg (by decide), hreg, hcreate, ok_bind]
  exact moveData_regular hn hsrc hreg (hext i (findFileInDir_some hsrc).1 hreg) hsize hroom

def emptyFile : FileEntry :=
  { name := ⟨.ofString "a", by decide⟩, type := .regular, size := 0,
    permissions := permRead ||| permWrite, parentId := 0, createdTime := 4, modifiedTime := 5,
    dataOffset := 0 }

def oneFile (data : List UInt8) (size : Nat) : Filesystem :=
  ((fsInit 0).addEntry emptyFile (by decide)).tick.storeData 4 data size

theorem oneFile_state (data : List UInt8) (size : Nat) : TreeState (oneFile data size) := by
  have hn : Fresh (fsInit 0) (.ofString "a") .regular emptyFile :=
    ⟨by decide, rfl, rfl, rfl, rfl, fun _ => rfl⟩
  exact (treeState_addEntry (treeInv_fsInit 0).state hn).congr storeData_links rfl

/-- The bytes `Hi` come to `b`. -/
theorem move_file_moves_bytes : ∃ fs' cur,
    fsMoveFile (oneFile [72, 105] 2) (.ofString "a") (.ofString "b") = .ok (fsSuccess, fs') ∧
    fsReadFile fs' (.ofString "b") maxFileSize maxFileSize = .ok (2, [72, 105]) ∧
    findFileInDir fs' fs'.currentDir (.ofString "a") = none ∧ fs'.IsPath cur fs'.currentDir ∧
    fs'.contentMap (cur ++ [.ofString "b"]) = some (.regular, 2, [72, 105]) ∧
    fs'.contentMap (cur ++ [.ofString "a"]) = none := by
  obtain ⟨fs, hfs⟩ : ∃ fs, fs = oneFile [72, 105] 2 := ⟨_, rfl⟩
  obtain ⟨hsrc, hreg, hsize, hcontent, hdest⟩ :
      findFileInDir fs fs.currentDir (.ofString "a") = some 4 ∧ (fs.files 4).type = .regular ∧
      (fs.files 4).size = 2 ∧ fs.content 4 = [72, 105] ∧
      findFileInDir fs fs.currentDir (.ofString "b") = none := by
    rw [hfs]
    decide
  obtain ⟨hext, hcount, hroom⟩ : (∀ j < fs.fileCount, (fs.files j).type = .regular →
      (fs.files j).dataOffset + (fs.files j).size ≤ fs.dataUsage) ∧ fs.fileCount < maxFiles ∧
      fs.dataUsage + (fs.files 4).size ≤ storageSize := by
    rw [hfs]
    decide
  have hstate : TreeState fs := hfs ▸ oneFile_state [72, 105] 2
  have hmax : (fs.files 4).size ≤ maxFileSize := by
    rw [hsize]
    decide
  obtain ⟨fs', cur, hmove, hread, hgone, _, hcur, hmap⟩ :=
    move_file_moves hstate hext hsrc hreg hmax hdest (by decide) hcount hroom
  rw [hsize, hcontent] at hread hmap
  have hother : cur ++ [.ofString "b"] ≠ cur ++ [.ofString "a"] := by
    intro h
    exact absurd (List.append_cancel_left h) (by decide)
  rw [← hfs]
  refine ⟨fs', cur, hmove, hread, hgone, hcur, ?_, ?_⟩
  · rw [hmap, Function.update_of_ne hother, Function.update_self]
  · rw [hmap, Function.update_self]

/-- A file longer than any that `fs_write_file` makes overruns the buffer. -/
theorem move_file_overruns : ∃ fs src dest i, TreeState fs ∧
    (∀ j < fs.fileCount, (fs.files j).type = .regular →
      (fs.files j).dataOffset + (fs.files j).size ≤ fs.dataUsage) ∧
    findFileInDir fs fs.currentDir src = some i ∧ (fs.files i).type = .regular ∧
    findFileInDir fs fs.currentDir dest = none ∧
    (1 ≤ dest.bytes.length ∧ dest.bytes.length ≤ 62) ∧ fs.fileCount < maxFiles ∧
    fs.dataUsage + (fs.files i).size ≤ storageSize ∧
    ¬∃ fs', fsMoveFile fs src dest = .ok (fsSuccess, fs') := by
  refine ⟨oneFile [] 5000, .ofString "a", .ofString "b", 4, oneFile_state [] 5000, by decide, by decide,
    rfl, by decide, by decide, by decide, by decide, ?_⟩
  have hfault : fsMoveFile (oneFile [] 5000) (.ofString "a") (.ofString "b") =
    .error (.outOfRange .fileBuffer) := rfl
  rw [hfault]
  rintro ⟨_, he⟩
  cases he

end ChipOS
