import ChipOS.Fs.Filesystem

namespace ChipOS
open ByteMemory Run
set_option autoImplicit true

theorem isIn_iff {entry : FileEntry} :
    entry.isIn dir name = true ↔ entry.parentId = dir ∧ entry.name.toCStr = name := by
  rw [FileEntry.isIn, decide_eq_true_eq, strcmp_eq_zero]

theorem findFileInDir_some (hf : findFileInDir fs dir name = some i) :
    i < fs.fileCount ∧ (fs.files i).parentId = dir ∧ (fs.files i).name.toCStr = name :=
  ⟨List.mem_range.1 (List.mem_of_find?_eq_some hf),
    isIn_iff.1 (List.find?_some (p := fun i => (fs.files i).isIn dir name) hf)⟩

theorem findFileInDir_none (hf : findFileInDir fs dir name = none) (hi : i < fs.fileCount)
    (hd : (fs.files i).parentId = dir) : (fs.files i).name.toCStr ≠ name := by
  intro hn
  exact List.find?_eq_none.1 hf i (List.mem_range.2 hi) (isIn_iff.2 ⟨hd, hn⟩)

theorem findFileInDir_congr {fs fs' : Filesystem} (hc : fs'.fileCount = fs.fileCount)
    (he : ∀ i < fs.fileCount, (fs'.files i).parentId = (fs.files i).parentId ∧
      (fs'.files i).name = (fs.files i).name) :
    findFileInDir fs' dir name = findFileInDir fs dir name := by
  rw [findFileInDir, findFileInDir, hc]
  apply List.find?_congr
  intro i hi
  obtain ⟨hp, hn⟩ := he i (List.mem_range.1 hi)
  rw [FileEntry.isIn, FileEntry.isIn, hp, hn]

/-- An entry that `fs_create_file` or `fs_make_directory` appends under the name `s`. -/
structure Fresh (fs : Filesystem) (s : CStr) (t : FileType) (entry : FileEntry) : Prop where
  absent : findFileInDir fs fs.currentDir s = none
  name : entry.name.toCStr = s
  type : entry.type = t
  size : entry.size = 0
  parent : entry.parentId = fs.currentDir
  offset : entry.type = .regular → entry.dataOffset = fs.dataUsage

section
variable {fs fs' : Filesystem} {h : fs.fileCount < maxFiles}

theorem addEntry_currentDir : (fs.addEntry entry h).tick.currentDir = fs.currentDir := rfl

theorem addEntry_files_lt (hi : i < fs.fileCount) :
    (fs.addEntry entry h).tick.files i = fs.files i :=
  Function.update_of_ne (Nat.ne_of_lt hi) _ _

theorem addEntry_files_self : (fs.addEntry entry h).tick.files fs.fileCount = entry :=
  Function.update_self _ _ _

theorem findFileInDir_addEntry : findFileInDir (fs.addEntry entry h).tick dir name =
    (findFileInDir fs dir name).or (if entry.isIn dir name then some fs.fileCount else none) := by
  have hc : (fs.addEntry entry h).tick.fileCount = fs.fileCount + 1 := rfl
  rw [findFileInDir, hc, List.range_succ, List.find?_append, List.find?_singleton,
    addEntry_files_self, findFileInDir]
  congr 1
  apply List.find?_congr
  intro i hi
  rw [addEntry_files_lt (List.mem_range.1 hi)]

theorem findFileInDir_addEntry_old (hf : findFileInDir fs dir name = some i) :
    findFileInDir (fs.addEntry entry h).tick dir name = some i := by
  rw [findFileInDir_addEntry, hf, Option.some_or]

theorem Fresh.find (hn : Fresh fs s t entry) :
    findFileInDir (fs.addEntry entry h).tick fs.currentDir s = some fs.fileCount := by
  rw [findFileInDir_addEntry, hn.absent, Option.none_or,
    if_pos (isIn_iff.2 ⟨hn.parent, hn.name⟩)]

theorem Fresh.added_type (hn : Fresh fs s t entry) :
    ((fs.addEntry entry h).tick.files fs.fileCount).type = t := by
  rw [addEntry_files_self, hn.type]

theorem Fresh.added_offset (hn : Fresh fs s .regular entry) :
    ((fs.addEntry entry h).tick.files fs.fileCount).dataOffset = fs.dataUsage := by
  rw [addEntry_files_self, hn.offset hn.type]

end

theorem ne_success (hr : r < 0) : r ≠ fsSuccess := by
  rw [fsSuccess]
  omega

theorem fsCreateFile_cases (he : fsCreateFile fs name type = .ok (r, fs')) :
    r < 0 ∧ fs' = fs ∨ r = fsSuccess ∧ ∃ entry h, Fresh fs name type entry ∧
      fs' = (fs.addEntry entry h).tick := by
  rw [fsCreateFile] at he
  split at he
  · cases he
    exact .inl ⟨by decide, rfl⟩
  split at he
  · cases he
    exact .inl ⟨by decide, rfl⟩
  next hfull hnew =>
  by_cases hlen : name.bytes.length < maxFilename - 1
  · rw [strncpy_short hlen (by decide)] at he
    cases he
    refine .inr ⟨rfl, _, _, ⟨Option.not_isSome_iff_eq_none.1 hnew, ?_, rfl, rfl, rfl, fun _ => rfl⟩,
      rfl⟩
    exact CBuf.ofBytes_pad (by decide) (Nat.lt_of_lt_of_le hlen (by decide))
  · rw [strncpy_long (Nat.le_of_not_lt hlen) (by decide)] at he
    cases he

/-- `fs_create_file` stops only at a name that leaves no room for its NUL. -/
theorem fsCreateFile_error (he : fsCreateFile fs name type = .error e) :
    e = .outOfRange .entryName ∧ maxFilename - 1 ≤ name.bytes.length := by
  rw [fsCreateFile] at he
  split at he
  · cases he
  split at he
  · cases he
  by_cases hlen : name.bytes.length < maxFilename - 1
  · rw [strncpy_short hlen (by decide)] at he
    cases he
  · rw [strncpy_long (Nat.le_of_not_lt hlen) (by decide)] at he
    cases he
    exact ⟨rfl, Nat.le_of_not_lt hlen⟩

theorem fsCreateFile_new (h : fs.fileCount < maxFiles)
    (hnew : findFileInDir fs fs.currentDir name = none)
    (hlen : name.bytes.length < maxFilename - 1) :
    ∃ entry, Fresh fs name type entry ∧
      fsCreateFile fs name type = .ok (fsSuccess, (fs.addEntry entry h).tick) := by
  cases hc : fsCreateFile fs name type with
  | error e => exact absurd (fsCreateFile_error hc).2 (Nat.not_le.2 hlen)
  | ok p =>
    obtain ⟨r, fs'⟩ := p
    rcases fsCreateFile_cases hc with ⟨hr, _⟩ | ⟨rfl, entry, h', hn, rfl⟩
    · rw [fsCreateFile, dif_neg (Nat.not_le.2 h), hnew, if_neg (by decide),
        strncpy_short hlen (by decide)] at hc
      have hz := congrArg Prod.fst (Except.ok.inj hc)
      exact absurd hz.symm (ne_success hr)
    · exact ⟨entry, hn, rfl⟩

/-- The entry a write goes to, and the state after it was found or created. -/
inductive Opened (fs : Filesystem) (name : CStr) : Nat → Filesystem → Prop
  | existing : findFileInDir fs fs.currentDir name = some i → Opened fs name i fs
  | created : Fresh fs name .regular entry →
      Opened fs name fs.fileCount (fs.addEntry entry h).tick

theorem writeEntry_cases (he : writeEntry fs i data size = .ok (r, fs')) :
    r < 0 ∧ fs' = fs ∧ (fs.files i).type ≠ .regular ∨
    r = fsSuccess ∧ (fs.files i).type = .regular ∧
      (fs.files i).dataOffset + writeSize size ≤ storageSize ∧ writeSize size ≤ data.length ∧
      fs' = fs.storeData i data (writeSize size) := by
  rw [writeEntry] at he
  split at he
  · next ht =>
    cases he
    exact .inl ⟨by decide, rfl, ht⟩
  split at he
  · cases he
  split at he
  · cases he
  next ht hs hd =>
  cases he
  exact .inr ⟨rfl, Decidable.not_not.1 ht, Nat.le_of_not_lt hs, Nat.le_of_not_lt hd, rfl⟩

theorem writeEntry_regular (ht : (fs.files i).type = .regular)
    (hs : (fs.files i).dataOffset + writeSize size ≤ storageSize)
    (hd : writeSize size ≤ data.length) :
    writeEntry fs i data size = .ok (fsSuccess, fs.storeData i data (writeSize size)) := by
  rw [writeEntry, if_neg (not_not.2 ht), if_neg (Nat.not_lt.2 hs), if_neg (Nat.not_lt.2 hd)]

/-- `fs_write_file` fails and changes nothing, or stores the data in the entry it finds or
creates. -/
theorem fsWriteFile_cases (he : fsWriteFile fs name data size = .ok (r, fs')) :
    r < 0 ∧ fs' = fs ∨
    r = fsSuccess ∧ ∃ i fs₁, Opened fs name i fs₁ ∧ (fs₁.files i).type = .regular ∧
      (fs₁.files i).dataOffset + writeSize size ≤ storageSize ∧ writeSize size ≤ data.length ∧
      fs' = fs₁.storeData i data (writeSize size) := by
  rw [fsWriteFile] at he
  split at he
  · next i hf =>
    rcases writeEntry_cases he with ⟨hr, hfs, _⟩ | ⟨hr, ht, hs, hd, hfs⟩
    · exact .inl ⟨hr, hfs⟩
    · exact .inr ⟨hr, i, fs, .existing hf, ht, hs, hd, hfs⟩
  · obtain ⟨⟨result, fs₁⟩, hc, hrest⟩ := bind_eq_ok.1 he
    clear he
    rcases fsCreateFile_cases hc with ⟨hr, rfl⟩ | ⟨rfl, entry, h, hn, rfl⟩
    · simp only [ne_eq, ne_success hr, not_false_eq_true, ↓reduceIte] at hrest
      cases hrest
      exact .inl ⟨by decide, rfl⟩
    · simp only [ne_eq, not_true_eq_false, ↓reduceIte] at hrest
      rw [addEntry_currentDir, hn.find] at hrest
      rcases writeEntry_cases hrest with ⟨_, _, ht⟩ | ⟨hr, ht, hs, hd, hfs⟩
      · rw [hn.added_type] at ht
        exact absurd rfl ht
      · exact .inr ⟨hr, _, _, .created hn, ht, hs, hd, hfs⟩

theorem fsMakeDirectory_cases (he : fsMakeDirectory fs name = (r, fs')) :
    r < 0 ∧ fs' = fs ∨ r = fsSuccess ∧ ∃ entry h, Fresh fs name .directory entry ∧
      fs' = { (fs.addEntry entry h).tick with nextFileId := u32 (fs.nextFileId + 1) } := by
  rw [fsMakeDirectory] at he
  split at he
  · cases he
    exact .inl ⟨by decide, rfl⟩
  split at he
  · cases he
    exact .inl ⟨by decide, rfl⟩
  split at he
  · cases he
    exact .inl ⟨by decide, rfl⟩
  split at he
  · cases he
    exact .inl ⟨by decide, rfl⟩
  next hnew _ _ =>
  cases he
  refine .inr ⟨rfl, _, _, ⟨Option.not_isSome_iff_eq_none.1 hnew, rfl, rfl, rfl, rfl, ?_⟩, rfl⟩
  intro ht
  cases ht

theorem fsDeleteFile_cases (he : fsDeleteFile fs name = (r, fs')) :
    r < 0 ∧ fs' = fs ∨ r = fsSuccess ∧ ∃ i, findFileInDir fs fs.currentDir name = some i ∧
      fs' = fs.removeEntry i := by
  rw [fsDeleteFile] at he
  split at he
  · cases he
    exact .inl ⟨by decide, rfl⟩
  · next i hf =>
    cases he
    exact .inr ⟨rfl, i, hf, rfl⟩

theorem fsRemoveDirectory_cases (he : fsRemoveDirectory fs name = (r, fs')) :
    r < 0 ∧ fs' = fs ∨ r = fsSuccess ∧ ∃ i, findFileInDir fs fs.currentDir name = some i ∧
      (∀ j < fs.fileCount, (fs.files j).parentId ≠ i) ∧ fs' = fs.removeEntry i := by
  rw [fsRemoveDirectory] at he
  split at he
  · cases he
    exact .inl ⟨by decide, rfl⟩
  next i hf =>
  split at he
  · cases he
    exact .inl ⟨by decide, rfl⟩
  split at he
  · cases he
    exact .inl ⟨by decide, rfl⟩
  next hany =>
  cases he
  refine .inr ⟨rfl, i, hf, fun j hj hp => hany ?_, rfl⟩
  exact List.any_eq_true.2 ⟨j, List.mem_range.2 hj, decide_eq_true hp⟩

theorem fsReadFile_cases (he : fsReadFile fs name capacity size = .ok (r, buffer)) :
    r < 0 ∧ (∀ i, findFileInDir fs fs.currentDir name = some i → (fs.files i).type ≠ .regular) ∨
    ∃ i, findFileInDir fs fs.currentDir name = some i ∧ (fs.files i).type = .regular ∧
      r = readSize (fs.files i) size ∧
      buffer = slice fs.dataStorage (fs.files i).dataOffset (readSize (fs.files i) size) := by
  rw [fsReadFile] at he
  split at he
  · next hf =>
    cases he
    exact .inl ⟨by decide, fun i hi => nomatch hf.symm.trans hi⟩
  next i hf =>
  split at he
  · next ht =>
    cases he
    exact .inl ⟨by decide, fun j hj => Option.some.inj (hf.symm.trans hj) ▸ ht⟩
  next ht =>
  split at he
  · cases he
  split at he
  · cases he
  cases he
  exact .inr ⟨i, hf, Decidable.not_not.1 ht, rfl, rfl⟩

theorem fsReadFile_regular (hf : findFileInDir fs fs.currentDir name = some i)
    (ht : (fs.files i).type = .regular) (hn : n = readSize (fs.files i) size)
    (hs : (fs.files i).dataOffset + n ≤ storageSize) (hc : n ≤ capacity) :
    fsReadFile fs name capacity size =
      .ok ((n : Int), slice fs.dataStorage (fs.files i).dataOffset n) := by
  subst hn
  rw [fsReadFile, hf]
  simp only
  rw [if_neg (not_not.2 ht), if_neg (Nat.not_lt.2 hs), if_neg (Nat.not_lt.2 hc)]

theorem fsCopyFile_cases (he : fsCopyFile fs src dest = .ok (r, fs')) :
    r < 0 ∧ fs' = fs ∨
    ∃ i n, findFileInDir fs fs.currentDir src = some i ∧ (fs.files i).type = .regular ∧
      n = readSize (fs.files i) maxFileSize ∧
      fsWriteFile fs dest (slice fs.dataStorage (fs.files i).dataOffset n) n = .ok (r, fs') := by
  obtain ⟨⟨bytesRead, buffer⟩, hread, hrest⟩ := bind_eq_ok.1 he
  rcases fsReadFile_cases hread with ⟨hneg, _⟩ | ⟨i, hf, ht, rfl, rfl⟩
  · simp only [hneg, ↓reduceIte] at hrest
    cases hrest
    exact .inl ⟨hneg, rfl⟩
  · have hpos : ¬((readSize (fs.files i) maxFileSize : Nat) : Int) < 0 := by omega
    simp only [hpos, ↓reduceIte, Int.toNat_natCast] at hrest
    exact .inr ⟨i, _, hf, ht, rfl, hrest⟩

theorem fsTouchFile_cases (he : fsTouchFile fs name = .ok (r, fs')) :
    r < 0 ∧ fs' = fs ∨
    r = fsSuccess ∧ (∃ i, findFileInDir fs fs.currentDir name = some i ∧
      fs' = fs.stamp i) ∨
    r = fsSuccess ∧ ∃ entry h, Fresh fs name .regular entry ∧
      entry.dataOffset ≤ storageSize ∧
      fs' = (fs.addEntry entry h).tick.storeData fs.fileCount [] 0 := by
  rw [fsTouchFile] at he
  split at he
  · next i hf =>
    cases he
    exact .inr (.inl ⟨rfl, i, hf, rfl⟩)
  · obtain ⟨⟨result, fs₁⟩, hc, hrest⟩ := bind_eq_ok.1 he
    clear he
    rcases fsCreateFile_cases hc with ⟨hr, rfl⟩ | ⟨rfl, entry, h, hn, rfl⟩
    · simp only [ne_eq, ne_success hr, not_false_eq_true, ↓reduceIte] at hrest
      cases hrest
      exact .inl ⟨by decide, rfl⟩
    · simp only [ne_eq, not_true_eq_false, ↓reduceIte] at hrest
      rw [fsWriteFile, addEntry_currentDir, hn.find] at hrest
      rcases writeEntry_cases hrest with ⟨_, _, ht⟩ | ⟨hr, ht, hs, hd, hfs⟩
      · rw [hn.added_type] at ht
        exact absurd rfl ht
      · rw [addEntry_files_self] at hs
        exact .inr (.inr ⟨hr, entry, h, hn, hs, hfs⟩)

theorem Fresh.delete (hn : Fresh fs s t entry) :
    fsDeleteFile (fs.addEntry entry h).tick s =
      (fsSuccess, (fs.addEntry entry h).tick.removeEntry fs.fileCount) := by
  rw [fsDeleteFile, addEntry_currentDir, hn.find]

theorem update_field {f : FileEntry → β} {files : Nat → FileEntry} (he : f entry = f (files i)) :
    f (Function.update files i entry j) = f (files j) := by
  by_cases hj : j = i
  · rw [hj, Function.update_self, he]
  · rw [Function.update_of_ne hj]

section
variable {fs : Filesystem}

@[simp] theorem storeData_parentId :
    ((fs.storeData i data size).files j).parentId = (fs.files j).parentId :=
  update_field (f := FileEntry.parentId) rfl

@[simp] theorem storeData_name :
    ((fs.storeData i data size).files j).name = (fs.files j).name :=
  update_field (f := FileEntry.name) rfl

@[simp] theorem storeData_type :
    ((fs.storeData i data size).files j).type = (fs.files j).type :=
  update_field (f := FileEntry.type) rfl

@[simp] theorem storeData_dataOffset :
    ((fs.storeData i data size).files j).dataOffset = (fs.files j).dataOffset :=
  update_field (f := FileEntry.dataOffset) rfl

theorem storeData_files_self : (fs.storeData i data size).files i =
    { fs.files i with size, modifiedTime := fs.systemTime } :=
  Function.update_self _ _ _

@[simp] theorem storeData_size_self : ((fs.storeData i data size).files i).size = size := by
  rw [storeData_files_self]

theorem storeData_files_of_ne (hj : j ≠ i) : (fs.storeData i data size).files j = fs.files j :=
  Function.update_of_ne hj _ _

theorem findFileInDir_storeData :
    findFileInDir (fs.storeData i data size) dir name = findFileInDir fs dir name := by
  have hc : (fs.storeData i data size).fileCount = fs.fileCount := rfl
  exact findFileInDir_congr hc fun _ _ => ⟨storeData_parentId, storeData_name⟩

end

/-- The part of `fs_move_file` after the destination is created. -/
def moveData (fs : Filesystem) (srcFile : Nat) (src dest : CStr) :
    Except Fault (Int × Filesystem) := do
  let (bytesRead, buffer) ← fsReadFile fs src maxFileSize (fs.files srcFile).size
  if toU32 bytesRead ≠ (fs.files srcFile).size then
    return (fsErrorPermissionDenied, (fsDeleteFile fs dest).2)
  let (written, fs) ← fsWriteFile fs dest buffer (fs.files srcFile).size
  if written ≠ fsSuccess then return (fsErrorPermissionDenied, (fsDeleteFile fs dest).2)
  return fsDeleteFile fs src

theorem fsMoveFile_eq (fs : Filesystem) (src dest : CStr) :
    (∃ r < 0, fsMoveFile fs src dest = .ok (r, fs)) ∨
    fsMoveFile fs src dest = .error (.outOfRange .entryName) ∨
    ∃ i entry h, findFileInDir fs fs.currentDir src = some i ∧
      Fresh fs dest (fs.files i).type entry ∧
      fsMoveFile fs src dest = moveData (fs.addEntry entry h).tick i src dest := by
  rw [fsMoveFile]
  cases hf : findFileInDir fs fs.currentDir src with
  | none => exact .inl ⟨fsErrorNotFound, by decide, rfl⟩
  | some i =>
    simp only
    split
    · exact .inl ⟨fsErrorAlreadyExists, by decide, rfl⟩
    cases hc : fsCreateFile fs dest (fs.files i).type with
    | error e =>
      rw [(fsCreateFile_error hc).1]
      exact .inr (.inl rfl)
    | ok p =>
      obtain ⟨ret, fs₁⟩ := p
      rw [ok_bind]
      rcases fsCreateFile_cases hc with ⟨hr, rfl⟩ | ⟨rfl, entry, h, hn, rfl⟩
      · exact .inl ⟨ret, hr, if_pos (ne_success hr)⟩
      · exact .inr (.inr ⟨i, entry, h, rfl, hn, if_neg (not_not.2 rfl)⟩)

theorem moveData_cases (hf : findFileInDir fs fs.currentDir src = some i)
    (hn : Fresh fs dest (fs.files i).type entry)
    (he : moveData (fs.addEntry entry h).tick i src dest = .ok (r, fs')) :
    r < 0 ∧ fs' = (fs.addEntry entry h).tick.removeEntry fs.fileCount ∨
    r = fsSuccess ∧ (fs.files i).type = .regular ∧
      fs.dataUsage + writeSize (fs.files i).size ≤ storageSize ∧
      fs' = ((fs.addEntry entry h).tick.storeData fs.fileCount
        (slice fs.dataStorage (fs.files i).dataOffset (fs.files i).size)
        (writeSize (fs.files i).size)).removeEntry i := by
  have hfile : (fs.addEntry entry h).tick.files i = fs.files i :=
    addEntry_files_lt (findFileInDir_some hf).1
  have hsrc : findFileInDir (fs.addEntry entry h).tick fs.currentDir src = some i :=
    findFileInDir_addEntry_old hf
  rw [moveData, hn.delete, hfile] at he
  obtain ⟨⟨bytesRead, buffer⟩, hread, hrest⟩ := bind_eq_ok.1 he
  by_cases hsize : toU32 bytesRead = (fs.files i).size
  swap
  · simp only [hsize, ne_eq, not_false_eq_true, ↓reduceIte] at hrest
    cases hrest
    exact .inl ⟨by decide, rfl⟩
  simp only [hsize, ne_eq, not_true_eq_false, ↓reduceIte] at hrest
  obtain ⟨⟨written, fs₂⟩, hw, hrest⟩ := bind_eq_ok.1 hrest
  rcases fsWriteFile_cases hw with ⟨hr, rfl⟩ | ⟨rfl, k, fs₁, hopen, ht, hs, _, rfl⟩
  · simp only [ne_success hr, not_false_eq_true, ↓reduceIte, hn.delete] at hrest
    cases hrest
    exact .inl ⟨by decide, rfl⟩
  simp only [not_true_eq_false, ↓reduceIte] at hrest
  cases hopen with
  | created hn' => cases hn'.absent.symm.trans hn.find
  | existing hk =>
    cases hk.symm.trans hn.find
    have hti : (fs.files i).type = .regular := hn.added_type.symm.trans ht
    rw [hti] at hn
    rw [hn.added_offset] at hs
    rcases fsReadFile_cases hread with ⟨_, hnot⟩ | ⟨j, hj, _, _, rfl⟩
    · exact absurd (hfile ▸ hti) (hnot i hsrc)
    cases hsrc.symm.trans hj
    have hall : readSize (fs.files i) (fs.files i).size = (fs.files i).size := by
      rw [readSize]
      split <;> rfl
    have hcur : ∀ data n, ((fs.addEntry entry h).tick.storeData fs.fileCount data n).currentDir =
      fs.currentDir := fun _ _ => rfl
    rw [hfile, hall, fsDeleteFile, findFileInDir_storeData, hcur, hsrc] at hrest
    cases hrest
    exact .inr ⟨rfl, hti, hs, rfl⟩

/-- `fs_move_file` fails and changes nothing, takes the destination it created off again, or
copies the source into the destination and removes the source. -/
theorem fsMoveFile_cases (he : fsMoveFile fs src dest = .ok (r, fs')) :
    r < 0 ∧ fs' = fs ∨
    r < 0 ∧ (∃ entry h t, Fresh fs dest t entry ∧
      fs' = (fs.addEntry entry h).tick.removeEntry fs.fileCount) ∨
    r = fsSuccess ∧ ∃ i entry h data, findFileInDir fs fs.currentDir src = some i ∧
      (fs.files i).type = .regular ∧ Fresh fs dest .regular entry ∧
      data = slice fs.dataStorage (fs.files i).dataOffset (fs.files i).size ∧
      fs.dataUsage + writeSize (fs.files i).size ≤ storageSize ∧
      fs' = ((fs.addEntry entry h).tick.storeData fs.fileCount data
        (writeSize (fs.files i).size)).removeEntry i := by
  rcases fsMoveFile_eq fs src dest with ⟨r', hr, hm⟩ | hm | ⟨i, entry, h, hf, hn, hm⟩
  · cases hm.symm.trans he
    exact .inl ⟨hr, rfl⟩
  · cases hm.symm.trans he
  · rcases moveData_cases hf hn (hm.symm.trans he) with ⟨hr, hfs⟩ | ⟨hr, ht, hs, hfs⟩
    · exact .inr (.inl ⟨hr, entry, h, _, hn, hfs⟩)
    · rw [ht] at hn
      exact .inr (.inr ⟨hr, i, entry, h, _, hf, ht, hn, rfl, hs, hfs⟩)

theorem fsChangeDirectory_cases (he : fsChangeDirectory fs path = .ok (r, fs')) :
    fs' = fs ∨ r = fsSuccess ∧ ∃ d p, fs' = { fs with currentDir := d, currentPath := p } ∧
      (d = (fs.files fs.currentDir).parentId ∨
        d < fs.fileCount ∧ (fs.files d).type = .directory) := by
  have hpath : ∀ {fs fs' : Filesystem}, rebuildCurrentPath fs = .ok fs' →
      ∃ p, fs' = { fs with currentPath := p } := by
    intro fs fs' he
    rw [rebuildCurrentPath] at he
    split at he
    · cases he
      exact ⟨_, rfl⟩
    · obtain ⟨stack, _, he⟩ := bind_eq_ok.1 he
      obtain ⟨p, _, he⟩ := bind_eq_ok.1 he
      cases he
      exact ⟨_, rfl⟩
  rw [fsChangeDirectory] at he
  split at he
  · cases he
    exact .inl rfl
  split at he
  · cases he
    exact .inl rfl
  split at he
  · split at he
    · cases he
    · obtain ⟨fs₁, hr, he⟩ := bind_eq_ok.1 he
      obtain ⟨p, rfl⟩ := hpath hr
      cases he
      exact .inr ⟨rfl, _, p, rfl, .inl rfl⟩
  split at he
  · cases he
    exact .inl rfl
  next d hf =>
  split at he
  · cases he
    exact .inl rfl
  next ht =>
  obtain ⟨fs₁, hr, he⟩ := bind_eq_ok.1 he
  obtain ⟨p, rfl⟩ := hpath hr
  cases he
  exact .inr ⟨rfl, d, p, rfl, .inr ⟨(findFileInDir_some hf).1, Decidable.not_not.1 ht⟩⟩

/-- Where the entry that `removeEntry id` leaves in slot `i` was before. -/
def Filesystem.oldSlot (fs : Filesystem) (id i : Nat) : Nat :=
  if i = id then fs.fileCount - 1 else i

/-- The slot of the entry `i` after `removeEntry id`. -/
def Filesystem.newSlot (fs : Filesystem) (id i : Nat) : Nat :=
  if i = fs.fileCount - 1 then id else i

section
variable {fs : Filesystem} {id : Nat}

@[simp] theorem removeEntry_fileCount : (fs.removeEntry id).fileCount = fs.fileCount - 1 := by
  rw [Filesystem.removeEntry]
  split <;> rfl

@[simp] theorem removeEntry_dataUsage : (fs.removeEntry id).dataUsage = fs.dataUsage := by
  rw [Filesystem.removeEntry]
  split <;> rfl

theorem removeEntry_nextFileId : (fs.removeEntry id).nextFileId = fs.nextFileId := by
  rw [Filesystem.removeEntry]
  split <;> rfl

@[simp] theorem removeEntry_dataStorage : (fs.removeEntry id).dataStorage = fs.dataStorage := by
  rw [Filesystem.removeEntry]
  split <;> rfl

theorem newSlot_last (hid : id = fs.fileCount - 1) : fs.newSlot id i = i := by
  rw [Filesystem.newSlot]
  split
  · next hi => rw [hi, hid]
  · rfl

theorem removeEntry_currentDir (hid : id < fs.fileCount) :
    (fs.removeEntry id).currentDir = fs.newSlot id fs.currentDir := by
  rw [Filesystem.removeEntry]
  split
  · rfl
  · exact (newSlot_last (by omega)).symm

theorem removeEntry_files (hid : id < fs.fileCount) (hi : i < fs.fileCount - 1) :
    (fs.removeEntry id).files i =
      { fs.files (fs.oldSlot id i) with
        parentId := fs.newSlot id (fs.files (fs.oldSlot id i)).parentId } := by
  have hren : ∀ entry : FileEntry, (if entry.parentId = fs.fileCount - 1 then
      { entry with parentId := id } else entry) =
      { entry with parentId := fs.newSlot id entry.parentId } := by
    intro entry
    rw [Filesystem.newSlot]
    split <;> rfl
  rw [Filesystem.removeEntry, Filesystem.oldSlot]
  split
  · by_cases he : i = id
    · simp only [he, Function.update_self, ↓reduceIte, hren]
      rw [if_pos (by omega)]
    · simp only [he, Function.update_of_ne, ne_eq, not_false_eq_true, ↓reduceIte, hren]
      rw [if_pos (by omega)]
  · rw [if_neg (by omega), newSlot_last (by omega)]

theorem oldSlot_lt (hid : id < fs.fileCount) (hi : i < fs.fileCount - 1) :
    fs.oldSlot id i < fs.fileCount := by
  rw [Filesystem.oldSlot]
  split <;> omega

theorem oldSlot_ne (hi : i < fs.fileCount - 1) : fs.oldSlot id i ≠ id := by
  rw [Filesystem.oldSlot]
  split <;> omega

theorem oldSlot_inj (hi : i < fs.fileCount - 1) (hj : j < fs.fileCount - 1)
    (he : fs.oldSlot id i = fs.oldSlot id j) : i = j := by
  rw [Filesystem.oldSlot, Filesystem.oldSlot] at he
  split at he <;> split at he <;> omega

end

theorem fsStep_eq_ok (he : fsStep fs op = .ok fs') : ∃ r, fsCall fs op = .ok (r, fs') := by
  rw [fsStep] at he
  cases hc : fsCall fs op with
  | error e =>
    rw [hc] at he
    cases he
  | ok p =>
    rw [hc] at he
    cases he
    exact ⟨p.1, rfl⟩

end ChipOS
