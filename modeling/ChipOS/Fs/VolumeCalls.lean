import ChipOS.Fs.StorageBounds
import ChipOS.Fs.Volume
import ChipOS.Lib.Simulation

namespace ChipOS
open ByteMemory NameTree Run
set_option autoImplicit true

/-- The call and the volume give the same answer, and go on to states that belong together. -/
def Agrees (x : Int × Filesystem) (y : Int × Volume) : Prop := y.1 = x.1 ∧ Represents x.2 y.2

theorem take_writeSize (data : List UInt8) (size : Nat) :
    (data.take size).take maxFileSize = data.take (writeSize size) := by
  have hsize : writeSize size = min maxFileSize size := by
    rw [writeSize]
    split <;> omega
  rw [List.take_take, hsize]

theorem put_put (v : Volume) (name : CStr) (x y : Node) :
    (v.put name x).put name y = v.put name y := by
  have hchild : (v.put name x).child name = v.child name := rfl
  rw [Volume.put, hchild, Volume.put, Volume.put, Function.update_idem]

section
variable {fs fs' : Filesystem} {v : Volume}

theorem full_iff : decide (fs.fileCount ≥ maxFiles) = true ↔ ¬fs.fileCount < maxFiles := by
  rw [decide_eq_true_eq]
  omega

/-- A new name is refused only for want of a slot. -/
theorem fsCreateFile_room (hf : findFileInDir fs fs.currentDir name = none)
    (h : fs.fileCount < maxFiles) (he : fsCreateFile fs name type = .ok (r, fs')) :
    r = fsSuccess := by
  rw [fsCreateFile, dif_neg (Nat.not_le.2 h), hf, if_neg (by decide)] at he
  split at he
  · cases he
  · cases he
    rfl

theorem Represents.createFile (hr : Represents fs v)
    (he : fsCreateFile fs name type = .ok (r, fs')) :
    Agrees (r, fs') (v.call (fs.full (.createFile name type)) (.createFile name type)) := by
  have hfull : fs.full (.createFile name type) = decide (fs.fileCount ≥ maxFiles) := rfl
  rw [Volume.call, hfull]
  by_cases h : fs.fileCount < maxFiles
  swap
  · rw [if_pos (full_iff.2 h)]
    rw [fsCreateFile, dif_pos (Nat.le_of_not_lt h)] at he
    cases he
    exact ⟨rfl, hr⟩
  rw [if_neg (fun hc => full_iff.1 hc h), hr.lookup]
  cases hf : findFileInDir fs fs.currentDir name with
  | some i =>
    rw [fsCreateFile, dif_neg (Nat.not_le.2 h), hf] at he
    cases he
    exact ⟨rfl, hr⟩
  | none =>
    rcases fsCreateFile_cases he with ⟨hneg, _⟩ | ⟨rfl, entry, h', hn, rfl⟩
    · exact absurd (fsCreateFile_room hf h he) (ne_success hneg)
    · exact ⟨rfl, hr.add hn⟩

theorem Represents.fill (hr : Represents fs v) {h : fs.fileCount < maxFiles}
    (hn : Fresh fs name .regular entry) (hs : fs.dataUsage + n ≤ storageSize)
    (hmax : n ≤ maxFileSize) (hd : n ≤ data.length)
    (hc : ClearOfOthers fs ⟨fs.fileCount, fs.dataUsage, n⟩) :
    Represents ((fs.addEntry entry h).tick.storeData fs.fileCount data n)
      (v.put name (.file (data.take n))) := by
  have hadd : Represents (fs.addEntry entry h).tick (v.put name (.new .regular)) := hr.add hn
  have hoff : ((fs.addEntry entry h).tick.files fs.fileCount).dataOffset = fs.dataUsage :=
    hn.added_offset
  have hclear : ClearOfOthers (fs.addEntry entry h).tick ⟨fs.fileCount, fs.dataUsage, n⟩ :=
    clearOfOthers_addEntry hn hc
  have hstore : Represents ((fs.addEntry entry h).tick.storeData fs.fileCount data n)
      ((v.put name (.new .regular)).put name (.file (data.take n))) :=
    hadd.store hn.find hn.added_type (hoff.symm ▸ hs) hmax hd (hoff.symm ▸ hclear)
  rwa [put_put] at hstore

theorem Represents.write (hr : Represents fs v)
    (ha : ∀ c ∈ writeTarget fs name size, ClearOfOthers fs c)
    (he : fsWriteFile fs name data size = .ok (r, fs')) :
    Agrees (r, fs') (v.write (fs.fileCount ≥ maxFiles) name (data.take size)) := by
  rw [Volume.write, hr.lookup, take_writeSize]
  cases hf : findFileInDir fs fs.currentDir name with
  | some i =>
    rw [fsWriteFile, hf] at he
    simp only at he
    rcases writeEntry_cases he with ⟨_, _, ht⟩ | ⟨rfl, ht, hs, hd, rfl⟩
    · rw [writeEntry, if_pos ht] at he
      cases he
      rw [Option.map_some]
      cases hnode : fs.node i with
      | file data' => exact absurd (node_file hnode) ht
      | directory => exact ⟨rfl, hr⟩
      | device => exact ⟨rfl, hr⟩
    · rw [Option.map_some, node_regular ht]
      exact ⟨rfl, hr.store hf ht hs (writeSize_le size) hd
        (ha _ (Opened.target (.existing hf) ht))⟩
  | none =>
    rw [Option.map_none]
    rcases fsWriteFile_cases he with ⟨hneg, rfl⟩ | ⟨rfl, i, fs₁, ho, ht, hs, hd, rfl⟩
    · have hno := (fsWriteFile_refused he).1 (ne_success hneg)
      rw [NoTarget, hf] at hno
      rw [if_pos (decide_eq_true hno)]
      rcases fsWriteFile_eq fs' name data size with ⟨hw, _⟩ | ⟨hw, _⟩ | ⟨i, fs₁, ho, hw⟩
      · cases hw.symm.trans he
        exact ⟨rfl, hr⟩
      · cases hw.symm.trans he
      · cases ho with
        | existing hf' => cases hf.symm.trans hf'
        | @created _ h _ => exact absurd hno (Nat.not_le.2 h)
    · cases ho with
      | existing hf' => cases hf.symm.trans hf'
      | @created entry h hn =>
        rw [if_neg (fun hc => full_iff.1 hc h)]
        rw [hn.added_offset] at hs
        have htarget : writeTarget fs name size = some ⟨fs.fileCount, fs.dataUsage, writeSize size⟩ := by
          rw [writeTarget, hf]
          exact if_pos h
        exact ⟨rfl, hr.fill hn hs (writeSize_le size) hd (ha _ htarget)⟩

theorem Represents.touchFile (hr : Represents fs v) (hc : ClearStep fs (.touchFile name))
    (he : fsTouchFile fs name = .ok (r, fs')) :
    Agrees (r, fs') (v.call (fs.full (.touchFile name)) (.touchFile name)) := by
  have hfull : fs.full (.touchFile name) = decide (fs.fileCount ≥ maxFiles) := rfl
  rw [Volume.call, hfull, hr.lookup]
  cases hf : findFileInDir fs fs.currentDir name with
  | some i =>
    rw [fsTouchFile, hf] at he
    cases he
    exact ⟨rfl, hr.stamp⟩
  | none =>
    rw [Option.map_none]
    by_cases h : fs.fileCount < maxFiles
    swap
    · rw [fsTouchFile, hf, fsCreateFile, dif_pos (Nat.le_of_not_lt h)] at he
      cases he
      simp only
      rw [if_pos (full_iff.2 h)]
      exact ⟨rfl, hr⟩
    simp only
    rw [if_neg (fun hc => full_iff.1 hc h)]
    rcases fsTouchFile_cases he with ⟨hneg, rfl⟩ | ⟨_, i, hf', _⟩ | ⟨rfl, entry, h', hn, hs, rfl⟩
    · rw [fsTouchFile, hf] at he
      obtain ⟨⟨result, fs₁⟩, hcreate, he⟩ := bind_eq_ok.1 he
      rcases fsCreateFile_cases hcreate with ⟨hneg', _⟩ | ⟨rfl, entry, h', hn, rfl⟩
      · exact absurd (fsCreateFile_room hf h hcreate) (ne_success hneg')
      · -- the write goes to the new file
        simp only [ne_eq, not_true_eq_false, ↓reduceIte] at he
        rcases fsWriteFile_refused he with ⟨hno, _⟩
        have hfind := hn.find (h := h')
        have htarget := hno (ne_success hneg)
        rw [NoTarget, addEntry_currentDir, hfind] at htarget
        exact absurd hn.added_type htarget
    · cases hf.symm.trans hf'
    · rw [hn.offset hn.type] at hs
      have htarget : (⟨fs.fileCount, fs.dataUsage, 0⟩ : Copy) ∈ storageCopy fs (.touchFile name) := by
        rw [storageCopy, if_pos hf, writeTarget, hf]
        exact if_pos h
      exact ⟨rfl, hr.fill hn hs (Nat.zero_le _) (Nat.le_refl _) (hc _ htarget)⟩

theorem Represents.makeDirectory (hr : Represents fs v)
    (he : fsMakeDirectory fs name = (r, fs')) :
    Agrees (r, fs') (v.call (fs.full (.makeDirectory name)) (.makeDirectory name)) := by
  rw [Volume.call, Filesystem.full, hr.lookup]
  have hcases := fsMakeDirectory_cases he
  rw [fsMakeDirectory] at he
  split at he
  · next hlen =>
    cases he
    rw [if_pos hlen]
    exact ⟨rfl, hr⟩
  next hlen =>
  rw [if_neg hlen]
  cases hf : findFileInDir fs fs.currentDir name with
  | some i =>
    rw [hf] at he
    cases he
    exact ⟨rfl, hr⟩
  | none =>
    rw [hf, if_neg (by decide)] at he
    rw [Option.map_none]
    simp only
    split at he
    · next hfull =>
      cases he
      rw [if_pos (decide_eq_true (.inl hfull))]
      exact ⟨rfl, hr⟩
    next hfull =>
    split at he
    · next hids =>
      cases he
      rw [if_pos (decide_eq_true (.inr hids))]
      exact ⟨rfl, hr⟩
    next hids =>
    have hroom : ¬(decide (fs.fileCount ≥ maxFiles ∨ fs.nextFileId ≥ maxFiles)) = true := by
      rw [decide_eq_true_eq]
      exact not_or.2 ⟨hfull, hids⟩
    rw [if_neg hroom]
    rcases hcases with ⟨hneg, _⟩ | ⟨_, entry, h, hn, rfl⟩
    · have hz := congrArg Prod.fst he
      exact absurd hz.symm (ne_success hneg)
    · have hadd : Represents (fs.addEntry entry h).tick (v.put name .directory) := hr.add hn
      have hz := congrArg Prod.fst he
      have hmade : u32 (fs.nextFileId + 1) = v.made + 1 := by
        have hmax : maxFiles = 256 := rfl
        rw [hr.made, u32, Nat.mod_eq_of_lt (by rw [← hr.made]; omega)]
      refine ⟨hz, ?_, ?_, ?_, hmade, hadd.node, hadd.here⟩
      · exact hr.paths.change (.add h hn)
      · exact ⟨hadd.storage.usage, hadd.storage.extent, hadd.storage.size⟩
      · exact ⟨hadd.sizes.small, hadd.sizes.zero⟩

theorem Represents.deleteFile (hr : Represents fs v) (hd : DeletesLeaf fs (.deleteFile name))
    (he : fsDeleteFile fs name = (r, fs')) :
    Agrees (r, fs') (v.call full (.deleteFile name)) := by
  rw [Volume.call, hr.lookup]
  cases hf : findFileInDir fs fs.currentDir name with
  | none =>
    rw [fsDeleteFile, hf] at he
    cases he
    exact ⟨rfl, hr⟩
  | some i =>
    rw [fsDeleteFile, hf] at he
    cases he
    exact ⟨rfl, hr.remove hf (hd i hf)⟩

theorem Represents.removeDirectory (hr : Represents fs v)
    (he : fsRemoveDirectory fs name = (r, fs')) :
    Agrees (r, fs') (v.call full (.removeDirectory name)) := by
  rw [Volume.call, hr.lookup]
  cases hf : findFileInDir fs fs.currentDir name with
  | none =>
    rw [fsRemoveDirectory, hf] at he
    cases he
    exact ⟨rfl, hr⟩
  | some i =>
    have hcases := fsRemoveDirectory_cases he
    rw [fsRemoveDirectory, hf] at he
    simp only at he
    rw [Option.map_some]
    by_cases ht : (fs.files i).type = .directory
    swap
    · rw [if_pos ht] at he
      cases he
      cases hnode : fs.node i with
      | directory => exact absurd (node_directory.1 hnode) ht
      | file data => exact ⟨rfl, hr⟩
      | device => exact ⟨rfl, hr⟩
    rw [if_neg (not_not.2 ht)] at he
    rw [node_directory.2 ht]
    have hbusy := hr.busy (hr.found hf)
    simp only
    by_cases hany : ∃ j < fs.fileCount, (fs.files j).parentId = i
    · obtain ⟨j, hj, hparent⟩ := hany
      rw [if_pos (hbusy.2 ⟨j, hj, hparent⟩)]
      rw [if_pos (List.any_eq_true.2 ⟨j, List.mem_range.2 hj, decide_eq_true hparent⟩)] at he
      cases he
      exact ⟨rfl, hr⟩
    · rw [if_neg (fun hb => hany (hbusy.1 hb))]
      rcases hcases with ⟨hneg, _⟩ | ⟨rfl, i', hf', hleaf, rfl⟩
      · rw [if_neg] at he
        · cases he
          exact absurd rfl (ne_success hneg)
        · intro hc
          obtain ⟨j, hj, hparent⟩ := List.any_eq_true.1 hc
          exact hany ⟨j, List.mem_range.1 hj, of_decide_eq_true hparent⟩
      · cases hf.symm.trans hf'
        exact ⟨rfl, hr.remove hf hleaf⟩

theorem Represents.read (hr : Represents fs v)
    (he : fsReadFile fs name capacity size = .ok (r, data)) : v.read name size = (r, data) := by
  rw [Volume.read, hr.lookup]
  rw [fsReadFile] at he
  cases hf : findFileInDir fs fs.currentDir name with
  | none =>
    rw [hf] at he
    cases he
    rfl
  | some i =>
    rw [hf] at he
    simp only at he
    rw [Option.map_some]
    split at he
    · next ht =>
      cases he
      cases hnode : fs.node i with
      | file data' => exact absurd (node_file hnode) ht
      | directory => rfl
      | device => rfl
    next ht =>
    split at he
    · cases he
    split at he
    · cases he
    cases he
    have hread : readSize (fs.files i) size = min size (fs.files i).size := by
      rw [readSize]
      split <;> omega
    have hdata : (fs.content i).take size =
        slice fs.dataStorage (fs.files i).dataOffset (readSize (fs.files i) size) := by
      rw [Filesystem.content, hread, List.take_eq_take_min, slice_length,
        slice_take (Nat.min_le_right _ _)]
    rw [node_regular (Decidable.not_not.1 ht)]
    simp only [hdata, slice_length]

theorem Represents.readFile (hr : Represents fs v) (hsize : size ≤ capacity) :
    fsReadFile fs name capacity size = .ok (v.read name size) := by
  have hok : ∃ p, fsReadFile fs name capacity size = .ok p := by
    rw [fsReadFile]
    cases hf : findFileInDir fs fs.currentDir name with
    | none => exact ⟨_, rfl⟩
    | some i =>
      dsimp only
      split
      · exact ⟨_, rfl⟩
      next ht =>
      have hlt := (findFileInDir_some hf).1
      have hextent := hr.storage.extent i hlt (Decidable.not_not.1 ht)
      have husage := hr.storage.usage
      have hread : readSize (fs.files i) size ≤ size ∧ readSize (fs.files i) size ≤ (fs.files i).size := by
        rw [readSize]
        split <;> omega
      rw [if_neg (by omega), if_neg (by omega)]
      exact ⟨_, rfl⟩
  obtain ⟨⟨r, data⟩, he⟩ := hok
  rw [he, hr.read he]

theorem write_take (v : Volume) (full : Bool) (name : CStr) (data : List UInt8) :
    v.write full name (data.take maxFileSize) = v.write full name data := by
  rw [Volume.write, Volume.write, List.take_take, Nat.min_self]

theorem Represents.copyFile (hr : Represents fs v) (hc : ClearStep fs (.copyFile src dest))
    (he : fsCopyFile fs src dest = .ok (r, fs')) :
    Agrees (r, fs') (v.call (fs.full (.copyFile src dest)) (.copyFile src dest)) := by
  have hfull : fs.full (.copyFile src dest) = decide (fs.fileCount ≥ maxFiles) := rfl
  rw [Volume.call, hfull]
  obtain ⟨⟨bytesRead, buffer⟩, hread, hrest⟩ := bind_eq_ok.1 he
  have hvol := hr.read hread
  rw [Volume.read] at hvol
  cases hl : v.lookup src with
  | none =>
    rw [hl] at hvol
    cases hvol
    cases hrest
    exact ⟨rfl, hr⟩
  | some x =>
  cases x with
  | directory =>
    rw [hl] at hvol
    cases hvol
    cases hrest
    exact ⟨rfl, hr⟩
  | device =>
    rw [hl] at hvol
    cases hvol
    cases hrest
    exact ⟨rfl, hr⟩
  | file data =>
    rw [hl] at hvol
    obtain ⟨rfl, rfl⟩ := Prod.mk.inj hvol
    have hpos : ¬(((data.take maxFileSize).length : Nat) : Int) < 0 := by omega
    simp only [hpos, ↓reduceIte, Int.toNat_natCast] at hrest
    have ha : ∀ c ∈ writeTarget fs dest (data.take maxFileSize).length, ClearOfOthers fs c := by
      rcases fsReadFile_cases hread with ⟨hneg, _⟩ | ⟨i, hf, ht, hn, _⟩
      · omega
      · rw [Int.natCast_inj.1 hn]
        simpa only [ClearStep, storageCopy, hf, if_pos ht] using hc
    have hw := hr.write ha hrest
    rwa [List.take_of_length_le (Nat.le_refl _), write_take] at hw

theorem Represents.rollback (hr : Represents fs v) {h : fs.fileCount < maxFiles}
    (hn : Fresh fs name type entry) :
    Represents ((fs.addEntry entry h).tick.removeEntry fs.fileCount) v := by
  have hadd : Represents (fs.addEntry entry h).tick (v.put name (.new type)) := hr.add hn
  have hback := hadd.remove hn.find (addEntry_leaf hr.tree hn)
  exact hr.congr sameLive_rollback hback.paths hback.storage

theorem Represents.moveFile (hr : Represents fs v) (hc : ClearStep fs (.moveFile src dest))
    (he : fsMoveFile fs src dest = .ok (r, fs')) :
    Agrees (r, fs') (v.call (fs.full (.moveFile src dest)) (.moveFile src dest)) := by
  have hfull : fs.full (.moveFile src dest) = decide (fs.fileCount ≥ maxFiles) := rfl
  rw [Volume.call, hfull, hr.lookup src, hr.lookup dest]
  rw [fsMoveFile] at he
  cases hf : findFileInDir fs fs.currentDir src with
  | none =>
    rw [hf] at he
    cases he
    exact ⟨rfl, hr⟩
  | some i =>
  rw [hf] at he
  simp only at he
  cases hd : findFileInDir fs fs.currentDir dest with
  | some j =>
    rw [hd] at he
    cases he
    exact ⟨rfl, hr⟩
  | none =>
  rw [hd, if_neg (by decide)] at he
  simp only [Option.map_some, Option.map_none]
  obtain ⟨⟨ret, fs₁⟩, hcreate, hrest⟩ := bind_eq_ok.1 he
  by_cases h : fs.fileCount < maxFiles
  swap
  · rw [fsCreateFile, dif_pos (Nat.le_of_not_lt h)] at hcreate
    cases hcreate
    cases hrest
    rw [if_pos (full_iff.2 h)]
    exact ⟨rfl, hr⟩
  rw [if_neg (fun hc => full_iff.1 hc h)]
  rcases fsCreateFile_cases hcreate with ⟨hneg, _⟩ | ⟨rfl, entry, h', hn, rfl⟩
  · exact absurd (fsCreateFile_room hd h hcreate) (ne_success hneg)
  have hdata : moveData (fs.addEntry entry h').tick i src dest = .ok (r, fs') := hrest
  rcases moveData_cases hf hn hdata with ⟨hneg, rfl⟩ | ⟨rfl, ht, hs, rfl⟩
  · obtain ⟨rfl, ht⟩ := moveData_refused hr.storage hf hn hdata hneg
    have hback : Represents ((fs.addEntry entry h').tick.removeEntry fs.fileCount) v :=
      hr.rollback hn
    cases hnode : fs.node i with
    | file data => exact absurd (node_file hnode) ht
    | directory => exact ⟨rfl, hback⟩
    | device => exact ⟨rfl, hback⟩
  · rw [ht] at hn
    have hi := (findFileInDir_some hf).1
    have hsize : writeSize (fs.files i).size = (fs.files i).size :=
      if_neg (Nat.not_lt.2 (hr.storage.size i hi ht))
    have hlen : (fs.content i).length = (fs.files i).size := slice_length
    have htarget : (⟨fs.fileCount, fs.dataUsage, (fs.files i).size⟩ : Copy) ∈
        storageCopy fs (.moveFile src dest) := by
      simp only [storageCopy, hf, ht, hd, writeTarget, hsize, and_self, ↓reduceIte]
      exact if_pos h
    rw [hsize] at hs ⊢
    have hfill : Represents ((fs.addEntry entry h').tick.storeData fs.fileCount (fs.content i)
        (fs.files i).size) (v.put dest (.file ((fs.content i).take (fs.files i).size))) :=
      hr.fill hn hs (hr.storage.size i hi ht) (Nat.le_of_eq hlen.symm) (hc _ htarget)
    rw [List.take_of_length_le (Nat.le_of_eq hlen)] at hfill
    have hsrc : findFileInDir ((fs.addEntry entry h').tick.storeData fs.fileCount (fs.content i)
        (fs.files i).size) fs.currentDir src = some i :=
      findFileInDir_storeData.trans (findFileInDir_addEntry_old hf)
    rw [node_regular ht]
    refine ⟨rfl, hfill.remove hsrc (hfill.tree.state.leaf ?_)⟩
    rw [storeData_type, addEntry_files_lt hi]
    exact ht

theorem isPath_parent (ht : TreeInv fs) (hp : fs.IsPath p i) :
    fs.IsPath p.dropLast (fs.files i).parentId := by
  cases hp with
  | nil =>
    have hzero : (fs.files 0).parentId = 0 := ht.tree.root_parent
    rw [hzero]
    exact .nil
  | snoc _ _ hp =>
    rw [List.dropLast_concat]
    exact hp

theorem Represents.changeDirectory (hr : Represents fs v)
    (he : fsChangeDirectory fs path = .ok (r, fs')) :
    Agrees (r, fs') (v.call full (.changeDirectory path)) := by
  have hstay : ∀ {r'}, cdTarget fs path = (r', none) → Agrees (r, fs') (r', v) := by
    intro r' hd
    cases (fsChangeDirectory_stay hr.paths.table hd).symm.trans he
    exact ⟨rfl, hr⟩
  have hgo : ∀ {d q}, cdTarget fs path = (fsSuccess, some d) → fs.IsPath q d →
      Agrees (r, fs') (fsSuccess, { v with here := q }) := by
    intro d q hd hp
    have hcode : r = fsSuccess := by
      by_cases hfits : (fs.pathString d).bytes.length < maxPathLength
      · cases (fsChangeDirectory_enter hr.paths.table hd hfits).symm.trans he
        rfl
      · cases (fsChangeDirectory_overflow hr.paths.table hd hfits).symm.trans he
    subst hcode
    exact ⟨rfl, hr.enter he hd hp⟩
  rw [Volume.call]
  by_cases hempty : path.bytes.length = 0
  · rw [if_pos hempty]
    exact hstay (by rw [cdTarget, if_pos hempty])
  rw [if_neg hempty]
  rw [cdTarget, if_neg hempty] at hstay hgo
  by_cases hdot : path = .ofString "."
  · rw [if_pos hdot]
    exact hstay (by rw [if_pos (strcmp_eq_zero.2 hdot)])
  rw [if_neg hdot]
  rw [if_neg (fun hc => hdot (strcmp_eq_zero.1 hc))] at hstay hgo
  by_cases hup : path = .ofString ".."
  · rw [if_pos hup]
    exact hgo (by rw [if_pos (strcmp_eq_zero.2 hup)]) (isPath_parent hr.tree hr.here)
  rw [if_neg hup, hr.lookup]
  rw [if_neg (fun hc => hup (strcmp_eq_zero.1 hc))] at hstay hgo
  cases hf : findFileInDir fs fs.currentDir path with
  | none =>
    rw [hf] at hstay
    exact hstay rfl
  | some i =>
    rw [hf] at hstay hgo
    simp only at hstay hgo
    rw [Option.map_some]
    by_cases ht : (fs.files i).type = .directory
    · rw [node_directory.2 ht]
      exact hgo (if_neg (not_not.2 ht)) (hr.found hf)
    · have hstop := hstay (if_pos ht)
      cases hnode : fs.node i with
      | directory => exact absurd (node_directory.1 hnode) ht
      | file data => exact hstop
      | device => exact hstop

/-- Every call that copies clear of other files and deletes leaves does to the volume what the
volume says. -/
theorem Represents.call (hr : Represents fs v) (hc : ClearStep fs op) (hd : DeletesLeaf fs op)
    (he : fsCall fs op = .ok (r, fs')) : Agrees (r, fs') (v.call (v.full op) op) := by
  rw [← hr.full_eq]
  cases op with
  | createFile name type => exact hr.createFile he
  | writeFile name data size => exact hr.write hc he
  | touchFile name => exact hr.touchFile hc he
  | makeDirectory name => exact hr.makeDirectory (Except.ok.inj he)
  | deleteFile name => exact hr.deleteFile hd (Except.ok.inj he)
  | removeDirectory name => exact hr.removeDirectory (Except.ok.inj he)
  | copyFile src dest => exact hr.copyFile hc he
  | moveFile src dest => exact hr.moveFile hc he
  | changeDirectory path => exact hr.changeDirectory he

theorem Represents.calls (hr : Represents fs v) (op : FsOp) (hc : ClearStep fs op)
    (hd : DeletesLeaf fs op) (he : fsCall fs op = .ok (r, fs')) : ∃ v', v.Calls op r v' ∧ Represents fs' v' := by
  obtain ⟨hcode, hnext⟩ := hr.call hc hd he
  exact ⟨_, Prod.ext hcode rfl, hnext⟩

theorem Represents.pathName (hr : Represents fs v) :
    fsGetCurrentPath fs maxPathLength = (fsSuccess, v.pathName.bytes) := by
  have hcurrent : fs.currentPath.toCStr = v.pathName :=
    hr.paths.current.trans (pathString_lastNames (isPath_chain hr.paths.table.root hr.here))
  have hbytes : fs.currentPath.bytes = v.pathName.bytes := congrArg CStr.bytes hcurrent
  rw [fsGetCurrentPath, if_neg (by decide), if_neg (Nat.not_lt.2 fs.currentPath.fits), hbytes]

end

theorem isPath_boot (t : Nat) (hi : i < 4) (hne : i ≠ 0) :
    (fsInit t).IsPath [((fsInit t).files i).name.toCStr] i := by
  have hroot : (fsInit t).IsPath [] 0 := .nil
  have hslots : i = 0 ∨ i = 1 ∨ i = 2 ∨ i = 3 := by omega
  have hparent : ((fsInit t).files i).parentId = 0 := by
    rcases hslots with rfl | rfl | rfl | rfl <;> rfl
  apply PathTo.snoc (p := []) hi hne
  rw [← hparent] at hroot
  exact hroot

theorem node_boot_none (hroot : p ≠ []) (hhome : p ≠ [.ofString "home"])
    (hbin : p ≠ [.ofString "bin"]) (hetc : p ≠ [.ofString "etc"]) : Volume.boot.node p = none := by
  have hboot : Volume.boot.node p = if p = [] then some .directory else none := by
    apply (Function.update_of_ne hetc _ _).trans
    apply (Function.update_of_ne hbin _ _).trans
    exact Function.update_of_ne hhome _ _
  rw [hboot, if_neg hroot]

theorem represents_fsInit (t : Nat) : Represents (fsInit t) .boot := by
  have hroot : (fsInit t).IsPath [] 0 := .nil
  refine ⟨pathInv_fsInit t, storageInv_fsInit t, sizeInv_fsInit t, rfl, ?_, hroot⟩
  funext p
  by_cases hp : ∃ i, (fsInit t).IsPath p i
  · obtain ⟨i, hi⟩ := hp
    have hlive : i < 4 := hi.live (treeInv_fsInit t).tree
    have hslots : i = 0 ∨ i = 1 ∨ i = 2 ∨ i = 3 := by omega
    rw [(treeInv_fsInit t).tree.at_path hi]
    by_cases hz : i = 0
    · subst hz
      cases hi.unique hroot
      rfl
    · cases hi.unique (isPath_boot t hlive hz)
      rcases hslots with rfl | rfl | rfl | rfl
      · exact absurd rfl hz
      · rfl
      · rfl
      · rfl
  · have hnot : ∀ i q, (fsInit t).IsPath q i → p ≠ q := by
      rintro i _ hi rfl
      exact hp ⟨i, hi⟩
    rw [at_none fun i hi => hp ⟨i, hi⟩]
    have hname : ∀ i < 4, i ≠ 0 → p ≠ [((fsInit t).files i).name.toCStr] :=
      fun i hi hne => hnot i _ (isPath_boot t hi hne)
    exact node_boot_none (hnot 0 [] hroot) (hname 1 (by omega) Nat.one_ne_zero)
      (hname 2 (by omega) (Nat.succ_ne_zero 1)) (hname 3 (by omega) (Nat.succ_ne_zero 2))

theorem volume_of_run (t : Nat) (ops : List FsOp)
    (hc : Each fsStep (fun fs op => ClearStep fs op ∧ DeletesLeaf fs op) (fsInit t) ops)
    (he : answers fsCall (fsInit t) ops = .ok (rs, fs)) :
    ∃ v, Gives Volume.Calls .boot ops rs v ∧ Represents fs v := by
  apply hc.simulates (represents_fsInit t) _ he
  exact fun fs op r fs' v hr hcond hcall => hr.calls op hcond.1 hcond.2 hcall

end ChipOS
