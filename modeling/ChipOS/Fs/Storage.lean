import ChipOS.Fs.Effects

namespace ChipOS
open ByteMemory Run
set_option autoImplicit true

/-- The copy into `data_storage` that a call makes for the entry in slot `file`. -/
structure Copy where
  file : Nat
  offset : Nat
  length : Nat
deriving DecidableEq, Repr

/-- Where `fs_write_file` puts the data. A new file starts at `data_usage`. -/
def writeTarget (fs : Filesystem) (name : CStr) (size : Nat) : Option Copy :=
  match findFileInDir fs fs.currentDir name with
  | some i =>
    if (fs.files i).type = .regular then some ⟨i, (fs.files i).dataOffset, writeSize size⟩
    else none
  | none =>
    if fs.fileCount < maxFiles then some ⟨fs.fileCount, fs.dataUsage, writeSize size⟩ else none

/-- `fs_write_file` has neither a regular file to write to nor a slot for a new one. -/
def NoTarget (fs : Filesystem) (name : CStr) : Prop :=
  match findFileInDir fs fs.currentDir name with
  | some i => (fs.files i).type ≠ .regular
  | none => maxFiles ≤ fs.fileCount

/-- The copy into `data_storage` that an operation is about to make. -/
def storageCopy (fs : Filesystem) : FsOp → Option Copy
  | .writeFile name _ size => writeTarget fs name size
  | .touchFile name =>
    if findFileInDir fs fs.currentDir name = none then writeTarget fs name 0 else none
  | .copyFile src dest =>
    match findFileInDir fs fs.currentDir src with
    | some i =>
      if (fs.files i).type = .regular then writeTarget fs dest (readSize (fs.files i) maxFileSize)
      else none
    | none => none
  | .moveFile src dest =>
    match findFileInDir fs fs.currentDir src with
    | some i =>
      if (fs.files i).type = .regular ∧ findFileInDir fs fs.currentDir dest = none then
        writeTarget fs dest (fs.files i).size
      else none
    | none => none
  | _ => none

theorem writeSize_le (size : Nat) : writeSize size ≤ maxFileSize := by
  rw [writeSize]
  split <;> omega

theorem readSize_le (entry : FileEntry) (size : Nat) : readSize entry size ≤ entry.size := by
  rw [readSize]
  split <;> omega

theorem readSize_le_size (entry : FileEntry) (size : Nat) : readSize entry size ≤ size := by
  rw [readSize]
  split <;> omega

theorem writeTarget_none : writeTarget fs name size = none ↔ NoTarget fs name := by
  rw [writeTarget, NoTarget]
  cases findFileInDir fs fs.currentDir name with
  | some i =>
    by_cases ht : (fs.files i).type = .regular
    · simp only [ht, ↓reduceIte, reduceCtorEq, ne_eq, not_true_eq_false]
    · simp only [ht, ↓reduceIte, ne_eq, not_false_eq_true]
  | none =>
    by_cases hc : fs.fileCount < maxFiles
    · simp only [hc, ↓reduceIte, reduceCtorEq, Nat.not_le.2 hc]
    · simp only [hc, ↓reduceIte, Nat.le_of_not_lt hc]

theorem Opened.target (ho : Opened fs name i fs₁) (ht : (fs₁.files i).type = .regular) :
    writeTarget fs name size = some ⟨i, (fs₁.files i).dataOffset, writeSize size⟩ := by
  rw [writeTarget]
  cases ho with
  | existing hf =>
    rw [hf]
    exact if_pos ht
  | @created entry h hn =>
    rw [hn.absent, hn.added_offset]
    exact if_pos h

theorem Opened.regular (ho : Opened fs name i fs₁) (ht : writeTarget fs name size = some c) :
    (fs₁.files i).type = .regular := by
  cases ho with
  | existing hf =>
    rw [writeTarget, hf] at ht
    by_contra hr
    cases ht.symm.trans (if_neg hr)
  | @created entry h hn =>
    exact hn.added_type

/-- An invariant of the tables, by the changes the calls are made of. A copy into the storage
has to be allowed. -/
structure Preserved (I : Filesystem → Prop) (Allowed : Filesystem → Copy → Prop) : Prop where
  add : ∀ {fs name t entry h}, I fs → Fresh fs name t entry → I (fs.addEntry entry h).tick
  allowed : ∀ {fs name t entry h c}, Fresh fs name t entry → Allowed fs c →
    Allowed (fs.addEntry entry h).tick c
  store : ∀ {fs i data n}, I fs → i < fs.fileCount → (fs.files i).type = .regular →
    (fs.files i).dataOffset + n ≤ storageSize → n ≤ maxFileSize →
    Allowed fs ⟨i, (fs.files i).dataOffset, n⟩ → I (fs.storeData i data n)
  remove : ∀ {fs i}, I fs → i < fs.fileCount → I (fs.removeEntry i)
  stamp : ∀ {fs i}, I fs → I (fs.stamp i)
  enter : ∀ {fs d p n}, I fs → I { fs with currentDir := d, currentPath := p, nextFileId := n }

section
variable {I : Filesystem → Prop} {Allowed : Filesystem → Copy → Prop}

theorem Preserved.opened (hp : Preserved I Allowed) (hi : I fs) (ho : Opened fs name i fs₁) :
    I fs₁ ∧ i < fs₁.fileCount ∧ ∀ c, Allowed fs c → Allowed fs₁ c := by
  cases ho with
  | existing hf => exact ⟨hi, (findFileInDir_some hf).1, fun c hc => hc⟩
  | created hn => exact ⟨hp.add hi hn, Nat.lt_succ_self _, fun c hc => hp.allowed hn hc⟩

theorem Preserved.write (hp : Preserved I Allowed) (hi : I fs)
    (ha : ∀ c ∈ writeTarget fs name size, Allowed fs c)
    (he : fsWriteFile fs name data size = .ok (r, fs')) : I fs' := by
  rcases fsWriteFile_cases he with ⟨_, rfl⟩ | ⟨_, i, fs₁, ho, ht, hs, _, rfl⟩
  · exact hi
  · obtain ⟨hi₁, hlt, hall⟩ := hp.opened hi ho
    exact hp.store hi₁ hlt ht hs (writeSize_le size) (hall _ (ha _ (ho.target ht)))

theorem Preserved.fill {h : fs.fileCount < maxFiles} (hp : Preserved I Allowed) (hi : I fs)
    (hn : Fresh fs name .regular entry) (hs : fs.dataUsage + writeSize size ≤ storageSize)
    (ha : ∀ c ∈ writeTarget fs name size, Allowed fs c) :
    I ((fs.addEntry entry h).tick.storeData fs.fileCount data (writeSize size)) := by
  have ho : Opened fs name fs.fileCount (fs.addEntry entry h).tick := .created hn
  apply hp.store (hp.add hi hn) (Nat.lt_succ_self _) hn.added_type
  · rwa [hn.added_offset]
  · exact writeSize_le size
  · exact hp.allowed hn (ha _ (ho.target hn.added_type))

theorem Preserved.makeDirectory (hp : Preserved I Allowed) (hi : I fs) (name : CStr) :
    I (fsMakeDirectory fs name).2 := by
  have he : fsMakeDirectory fs name = (_, (fsMakeDirectory fs name).2) := rfl
  rcases fsMakeDirectory_cases he with ⟨_, he⟩ | ⟨_, entry, h, hn, he⟩
  · rwa [he]
  · rw [he]
    exact hp.enter (hp.add hi hn)

theorem Preserved.fsInit (hp : Preserved I Allowed) (hi : I (fsRoot t)) : I (fsInit t) :=
  hp.makeDirectory (hp.makeDirectory (hp.makeDirectory hi _) _) _

theorem Preserved.call (hp : Preserved I Allowed) (hi : I fs)
    (ha : ∀ c ∈ storageCopy fs op, Allowed fs c) (he : fsCall fs op = .ok (r, fs')) : I fs' := by
  cases op with
  | createFile name type =>
    rcases fsCreateFile_cases he with ⟨_, rfl⟩ | ⟨_, entry, h, hn, rfl⟩
    · exact hi
    · exact hp.add hi hn
  | writeFile name data size => exact hp.write hi ha he
  | touchFile name =>
    rcases fsTouchFile_cases he with ⟨_, rfl⟩ | ⟨_, i, hf, rfl⟩ | ⟨_, entry, h, hn, hs, rfl⟩
    · exact hi
    · exact hp.stamp hi
    · rw [hn.offset hn.type] at hs
      have hempty : fs.dataUsage + writeSize 0 ≤ storageSize := hs
      apply hp.fill hi hn hempty
      simpa only [storageCopy, if_pos hn.absent] using ha
  | makeDirectory name =>
    have hm := hp.makeDirectory hi name
    rwa [Except.ok.inj he] at hm
  | deleteFile name =>
    rcases fsDeleteFile_cases (Except.ok.inj he) with ⟨_, rfl⟩ | ⟨_, i, hf, rfl⟩
    · exact hi
    · exact hp.remove hi (findFileInDir_some hf).1
  | removeDirectory name =>
    rcases fsRemoveDirectory_cases (Except.ok.inj he) with ⟨_, rfl⟩ | ⟨_, i, hf, _, rfl⟩
    · exact hi
    · exact hp.remove hi (findFileInDir_some hf).1
  | copyFile src dest =>
    rcases fsCopyFile_cases he with ⟨_, rfl⟩ | ⟨i, n, hf, ht, rfl, hw⟩
    · exact hi
    · apply hp.write hi _ hw
      simpa only [storageCopy, hf, if_pos ht] using ha
  | moveFile src dest =>
    rcases fsMoveFile_cases he with
      ⟨_, rfl⟩ | ⟨_, entry, h, t, hn, rfl⟩ | ⟨_, i, entry, h, data, hf, ht, hn, _, hs, rfl⟩
    · exact hi
    · exact hp.remove (hp.add hi hn) (Nat.lt_succ_self _)
    · apply hp.remove
      · apply hp.fill hi hn hs
        simpa only [storageCopy, hf, if_pos (And.intro ht hn.absent)] using ha
      · exact Nat.lt_succ_of_lt (findFileInDir_some hf).1
  | changeDirectory path =>
    rcases fsChangeDirectory_cases he with rfl | ⟨_, d, p, rfl, _⟩
    · exact hi
    · exact hp.enter hi

theorem Preserved.step (hp : Preserved I Allowed) (hi : I fs)
    (ha : ∀ c ∈ storageCopy fs op, Allowed fs c) (he : fsStep fs op = .ok fs') : I fs' := by
  obtain ⟨r, hc⟩ := fsStep_eq_ok he
  exact hp.call hi ha hc

end

/-- Every file ends at or before `data_usage`, which is inside the storage. -/
structure StorageInv (fs : Filesystem) : Prop where
  usage : fs.dataUsage ≤ storageSize
  extent : ∀ i < fs.fileCount, (fs.files i).type = .regular →
    (fs.files i).dataOffset + (fs.files i).size ≤ fs.dataUsage
  size : ∀ i < fs.fileCount, (fs.files i).type = .regular → (fs.files i).size ≤ maxFileSize

theorem storageInv_addEntry {h : fs.fileCount < maxFiles} (hi : StorageInv fs)
    (hn : Fresh fs name t entry) : StorageInv (fs.addEntry entry h).tick := by
  refine ⟨hi.usage, fun i hlt ht => ?_, fun i hlt ht => ?_⟩
  · rcases Nat.lt_succ_iff_lt_or_eq.1 hlt with hlt | rfl
    · rw [addEntry_files_lt hlt] at ht ⊢
      exact hi.extent i hlt ht
    · rw [addEntry_files_self] at ht ⊢
      rw [hn.offset ht, hn.size]
      exact Nat.le_refl _
  · rcases Nat.lt_succ_iff_lt_or_eq.1 hlt with hlt | rfl
    · rw [addEntry_files_lt hlt] at ht ⊢
      exact hi.size i hlt ht
    · rw [addEntry_files_self, hn.size]
      exact Nat.zero_le _

theorem storeData_dataUsage {fs : Filesystem} (hs : (fs.files i).dataOffset + n ≤ storageSize) :
    (fs.storeData i data n).dataUsage = max ((fs.files i).dataOffset + n) fs.dataUsage := by
  have hsize : storageSize = 1048576 := rfl
  have hend : u32 ((fs.files i).dataOffset + n) = (fs.files i).dataOffset + n :=
    Nat.mod_eq_of_lt (by omega)
  simp only [Filesystem.storeData, hend]
  split <;> omega

theorem storageInv_storeData (hi : StorageInv fs) (hs : (fs.files i).dataOffset + n ≤ storageSize)
    (hn : n ≤ maxFileSize) : StorageInv (fs.storeData i data n) := by
  have husage : (fs.storeData i data n).dataUsage = _ := storeData_dataUsage hs
  have := hi.usage
  refine ⟨by rw [husage]; omega, fun j hj ht => ?_, fun j hj ht => ?_⟩
  · rw [storeData_type] at ht
    rw [husage, storeData_dataOffset]
    by_cases he : j = i
    · subst he
      rw [storeData_size_self]
      omega
    · have := hi.extent j hj ht
      rw [storeData_files_of_ne he]
      omega
  · rw [storeData_type] at ht
    by_cases he : j = i
    · subst he
      rwa [storeData_size_self]
    · rw [storeData_files_of_ne he]
      exact hi.size j hj ht

theorem storageInv_removeEntry {id : Nat} (hi : StorageInv fs) (hid : id < fs.fileCount) :
    StorageInv (fs.removeEntry id) := by
  refine ⟨?_, fun i hlt ht => ?_, fun i hlt ht => ?_⟩
  · rw [removeEntry_dataUsage]
    exact hi.usage
  · rw [removeEntry_fileCount] at hlt
    rw [removeEntry_files hid hlt] at ht ⊢
    rw [removeEntry_dataUsage]
    exact hi.extent _ (oldSlot_lt hid hlt) ht
  · rw [removeEntry_fileCount] at hlt
    rw [removeEntry_files hid hlt] at ht ⊢
    exact hi.size _ (oldSlot_lt hid hlt) ht

theorem storageInv_stamp (hi : StorageInv fs) : StorageInv (fs.stamp i) := by
  have ht : ∀ j, ((fs.stamp i).files j).type = (fs.files j).type :=
    fun _ => update_field (f := FileEntry.type) rfl
  have ho : ∀ j, ((fs.stamp i).files j).dataOffset = (fs.files j).dataOffset :=
    fun _ => update_field (f := FileEntry.dataOffset) rfl
  have hs : ∀ j, ((fs.stamp i).files j).size = (fs.files j).size :=
    fun _ => update_field (f := FileEntry.size) rfl
  refine ⟨hi.usage, fun j hj hreg => ?_, fun j hj hreg => ?_⟩
  · rw [ho, hs]
    exact hi.extent j hj (ht j ▸ hreg)
  · rw [hs]
    exact hi.size j hj (ht j ▸ hreg)

/-- No restriction on the copies. -/
def AnyCopy (_ : Filesystem) (_ : Copy) : Prop := True

theorem storageInv_preserved : Preserved StorageInv AnyCopy where
  add := storageInv_addEntry
  allowed := fun _ _ => trivial
  store := fun hi _ _ hs hn _ => storageInv_storeData hi hs hn
  remove := storageInv_removeEntry
  stamp := storageInv_stamp
  enter := fun hi => ⟨hi.usage, hi.extent, hi.size⟩

theorem storageInv_fsInit (t : Nat) : StorageInv (fsInit t) := by
  apply storageInv_preserved.fsInit
  refine ⟨Nat.zero_le _, fun i hlt ht => ?_, fun i hlt ht => ?_⟩
  · cases Nat.lt_one_iff.1 hlt
    cases ht
  · cases Nat.lt_one_iff.1 hlt
    cases ht

theorem storageInv_reach (hr : Reach fsStep (fsInit t) fs) : StorageInv fs :=
  hr.invariant (storageInv_fsInit t) fun _ _ _ hi he =>
    storageInv_preserved.step hi (fun _ _ => trivial) he

/-- No entry is larger than a file can be, and only files have a size. -/
structure SizeInv (fs : Filesystem) : Prop where
  small : ∀ i < fs.fileCount, (fs.files i).size ≤ maxFileSize
  zero : ∀ i < fs.fileCount, (fs.files i).type ≠ .regular → (fs.files i).size = 0

theorem sizeInv_addEntry {h : fs.fileCount < maxFiles} (hi : SizeInv fs)
    (hn : Fresh fs name t entry) : SizeInv (fs.addEntry entry h).tick := by
  refine ⟨fun i hlt => ?_, fun i hlt ht => ?_⟩
  · rcases Nat.lt_succ_iff_lt_or_eq.1 hlt with hlt | rfl
    · rw [addEntry_files_lt hlt]
      exact hi.small i hlt
    · rw [addEntry_files_self, hn.size]
      exact Nat.zero_le _
  · rcases Nat.lt_succ_iff_lt_or_eq.1 hlt with hlt | rfl
    · rw [addEntry_files_lt hlt] at ht ⊢
      exact hi.zero i hlt ht
    · rw [addEntry_files_self, hn.size]

theorem sizeInv_storeData (hi : SizeInv fs) (ht : (fs.files i).type = .regular)
    (hn : n ≤ maxFileSize) : SizeInv (fs.storeData i data n) := by
  refine ⟨fun j hj => ?_, fun j hj hty => ?_⟩
  · by_cases he : j = i
    · rw [he, storeData_size_self]
      exact hn
    · rw [storeData_files_of_ne he]
      exact hi.small j hj
  · rw [storeData_type] at hty
    have he : j ≠ i := by
      rintro rfl
      exact hty ht
    rw [storeData_files_of_ne he]
    exact hi.zero j hj hty

theorem sizeInv_removeEntry {id : Nat} (hi : SizeInv fs) (hid : id < fs.fileCount) :
    SizeInv (fs.removeEntry id) := by
  refine ⟨fun i hlt => ?_, fun i hlt ht => ?_⟩
  · rw [removeEntry_fileCount] at hlt
    rw [removeEntry_files hid hlt]
    exact hi.small _ (oldSlot_lt hid hlt)
  · rw [removeEntry_fileCount] at hlt
    rw [removeEntry_files hid hlt] at ht ⊢
    exact hi.zero _ (oldSlot_lt hid hlt) ht

theorem sizeInv_stamp (hi : SizeInv fs) : SizeInv (fs.stamp i) := by
  have hs : ∀ j, ((fs.stamp i).files j).size = (fs.files j).size :=
    fun _ => update_field (f := FileEntry.size) rfl
  have ht : ∀ j, ((fs.stamp i).files j).type = (fs.files j).type :=
    fun _ => update_field (f := FileEntry.type) rfl
  refine ⟨fun j hj => ?_, fun j hj hty => ?_⟩
  · rw [hs]
    exact hi.small j hj
  · rw [hs]
    exact hi.zero j hj (ht j ▸ hty)

theorem sizeInv_preserved : Preserved SizeInv AnyCopy where
  add := sizeInv_addEntry
  allowed := fun _ _ => trivial
  store := fun hi _ ht _ hn _ => sizeInv_storeData hi ht hn
  remove := sizeInv_removeEntry
  stamp := sizeInv_stamp
  enter := fun hi => ⟨hi.small, hi.zero⟩

theorem sizeInv_fsInit (t : Nat) : SizeInv (fsInit t) := by
  apply sizeInv_preserved.fsInit
  refine ⟨fun i hlt => ?_, fun i hlt _ => ?_⟩
  · cases Nat.lt_one_iff.1 hlt
    exact Nat.zero_le _
  · cases Nat.lt_one_iff.1 hlt
    rfl

end ChipOS
