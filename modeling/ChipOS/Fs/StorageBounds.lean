import ChipOS.Fs.Storage

namespace ChipOS
open ByteMemory Run
set_option autoImplicit true

/-- A copy that would leave `data_storage`. -/
def Copy.Overflows (c : Copy) : Prop := storageSize < c.offset + c.length
deriving Decidable

theorem writeEntry_fault : writeEntry fs i data size = .error (.outOfRange .dataStorage) ↔
    (fs.files i).type = .regular ∧ storageSize < (fs.files i).dataOffset + writeSize size := by
  rw [writeEntry]
  constructor
  · intro he
    split at he
    · cases he
    next ht =>
    split at he
    · next hs => exact ⟨Decidable.not_not.1 ht, hs⟩
    split at he
    · cases he
    · cases he
  · rintro ⟨ht, hs⟩
    rw [if_neg (not_not.2 ht), if_pos hs]

theorem fsWriteFile_eq (fs : Filesystem) (name : CStr) (data : List UInt8) (size : Nat) :
    fsWriteFile fs name data size = .ok (fsErrorNoSpace, fs) ∧ writeTarget fs name size = none ∨
    fsWriteFile fs name data size = .error (.outOfRange .entryName) ∧
      maxFilename - 1 ≤ name.bytes.length ∧ findFileInDir fs fs.currentDir name = none ∨
    ∃ i fs₁, Opened fs name i fs₁ ∧
      fsWriteFile fs name data size = writeEntry fs₁ i data size := by
  rw [fsWriteFile]
  cases hf : findFileInDir fs fs.currentDir name with
  | some i => exact .inr (.inr ⟨i, fs, .existing hf, rfl⟩)
  | none =>
    cases hc : fsCreateFile fs name .regular with
    | error e =>
      obtain ⟨rfl, hlen⟩ := fsCreateFile_error hc
      exact .inr (.inl ⟨rfl, hlen, rfl⟩)
    | ok p =>
      obtain ⟨r, fs'⟩ := p
      simp only [ok_bind]
      rcases fsCreateFile_cases hc with ⟨hr, rfl⟩ | ⟨rfl, entry, h, hn, rfl⟩
      · refine .inl ⟨if_pos (ne_success hr), ?_⟩
        rw [writeTarget, hf]
        apply if_neg
        intro h
        rw [fsCreateFile, dif_neg (Nat.not_le.2 h), hf, if_neg (by decide)] at hc
        split at hc
        · cases hc
        · have hz := congrArg Prod.fst (Except.ok.inj hc)
          exact absurd hz.symm (ne_success hr)
      · refine .inr (.inr ⟨_, (fs.addEntry entry h).tick, .created hn, ?_⟩)
        have hfind : findFileInDir (fs.addEntry entry h).tick
          (fs.addEntry entry h).tick.currentDir name = some fs.fileCount := hn.find
        rw [if_neg (not_not.2 rfl), hfind]

theorem fsWriteFile_fault (he : fsWriteFile fs name data size = .error (.outOfRange .dataStorage)) :
    ∃ c ∈ writeTarget fs name size, c.Overflows := by
  rcases fsWriteFile_eq fs name data size with ⟨hw, _⟩ | ⟨hw, _⟩ | ⟨i, fs₁, ho, hw⟩
  · cases hw.symm.trans he
  · cases hw.symm.trans he
  · obtain ⟨ht, hs⟩ := writeEntry_fault.1 (hw.symm.trans he)
    exact ⟨_, ho.target ht, hs⟩

theorem fsWriteFile_error (he : fsWriteFile fs name data data.length = .error e) :
    e = .outOfRange .dataStorage ∨ e = .outOfRange .entryName := by
  rcases fsWriteFile_eq fs name data data.length with ⟨hw, _⟩ | ⟨hw, _⟩ | ⟨i, fs₁, _, hw⟩
  · cases hw.symm.trans he
  · cases hw.symm.trans he
    exact .inr rfl
  · rw [hw, writeEntry] at he
    split at he
    · cases he
    split at he
    · cases he
      exact .inl rfl
    split at he
    · next hlen =>
      rw [writeSize] at hlen
      split at hlen <;> omega
    · cases he

theorem fsWriteFile_refused (he : fsWriteFile fs name data size = .ok (r, fs')) :
    r ≠ fsSuccess ↔ NoTarget fs name := by
  have htarget : writeTarget fs name size = none ↔ NoTarget fs name := writeTarget_none
  rw [← htarget]
  constructor
  · intro hr
    rcases fsWriteFile_eq fs name data size with ⟨_, hw⟩ | ⟨hw, _⟩ | ⟨i, fs₁, ho, hw⟩
    · exact hw
    · cases hw.symm.trans he
    · rcases writeEntry_cases (hw.symm.trans he) with ⟨_, _, ht⟩ | ⟨hr', _⟩
      · rw [Option.eq_none_iff_forall_not_mem]
        exact fun c hc => ht (ho.regular hc)
      · exact absurd hr' hr
  · rintro hw rfl
    rcases fsWriteFile_cases he with ⟨hr, _⟩ | ⟨_, i, fs₁, ho, ht, _⟩
    · exact absurd hr (by decide)
    · cases hw.symm.trans (ho.target ht)

/-- `fs_write_file` stores what fits where it has to go. -/
theorem fsWriteFile_stores (hlen : name.bytes.length < maxFilename - 1)
    (hw : writeTarget fs name data.length = some c) (hfits : ¬c.Overflows) :
    ∃ fs', fsWriteFile fs name data data.length = .ok (fsSuccess, fs') := by
  rcases fsWriteFile_eq fs name data data.length with
    ⟨_, hnone⟩ | ⟨_, hlong, _⟩ | ⟨i, fs₁, ho, he⟩
  · cases hw.symm.trans hnone
  · omega
  · have ht := ho.regular hw
    cases hw.symm.trans (ho.target ht)
    have hroom : ¬(fs₁.files i).dataOffset + writeSize data.length > storageSize := hfits
    have hsize : ¬writeSize data.length > data.length := by
      rw [writeSize]
      split <;> omega
    rw [he, writeEntry, if_neg (not_not.2 ht), if_neg hroom, if_neg hsize]
    exact ⟨_, rfl⟩

/-- The name has an entry, or is short enough for a new one. -/
def Storable (fs : Filesystem) (name : CStr) : Prop :=
  findFileInDir fs fs.currentDir name = none → name.bytes.length < maxFilename - 1
deriving Decidable

/-- `fs_write_file` leaves `data_storage` exactly when the copy does not fit. -/
theorem fsWriteFile_fault_iff (hname : Storable fs name) :
    fsWriteFile fs name data size = .error (.outOfRange .dataStorage) ↔
      ∃ c ∈ writeTarget fs name size, c.Overflows := by
  refine ⟨fsWriteFile_fault, ?_⟩
  rintro ⟨c, hc, hs⟩
  rcases fsWriteFile_eq fs name data size with ⟨_, ht⟩ | ⟨_, hlong, hnew⟩ | ⟨i, fs₁, ho, hw⟩
  · cases ht.symm.trans hc
  · exact absurd (hname hnew) (Nat.not_lt.2 hlong)
  · have ht := ho.regular hc
    cases hc.symm.trans (ho.target ht)
    exact hw.trans (writeEntry_fault.2 ⟨ht, hs⟩)

theorem fsWriteFile_long (hnew : findFileInDir fs fs.currentDir name = none)
    (hlong : maxFilename - 1 ≤ name.bytes.length) :
    fsWriteFile fs name data size = .ok (fsErrorNoSpace, fs) ∨
      fs.fileCount < maxFiles ∧
        fsWriteFile fs name data size = .error (.outOfRange .entryName) := by
  rw [fsWriteFile, hnew, fsCreateFile]
  by_cases hroom : fs.fileCount < maxFiles
  · rw [dif_neg (Nat.not_le.2 hroom), hnew, if_neg (by decide), strncpy_long hlong (by decide)]
    exact .inr ⟨hroom, rfl⟩
  · rw [dif_pos (Nat.le_of_not_lt hroom)]
    exact .inl rfl

theorem fsWriteFile_storable
    (he : fsWriteFile fs name data size = .error (.outOfRange .dataStorage)) : Storable fs name := by
  intro hnew
  by_contra hlong
  rcases fsWriteFile_long hnew (Nat.le_of_not_lt hlong) with hw | ⟨_, hw⟩
  · cases hw.symm.trans he
  · cases hw.symm.trans he

/-- A write of so many bytes needs an entry that the name is too long for, or leaves the storage. -/
inductive WriteFaults (fs : Filesystem) (name : CStr) (size : Nat) : Fault → Prop
  | long : findFileInDir fs fs.currentDir name = none → fs.fileCount < maxFiles →
      maxFilename - 1 ≤ name.bytes.length → WriteFaults fs name size (.outOfRange .entryName)
  | storage : Storable fs name → c ∈ writeTarget fs name size → c.Overflows →
      WriteFaults fs name size (.outOfRange .dataStorage)

/-- The file stays where it is from the first write on, so later writes stop where that one would
have. -/
theorem WriteFaults.before (hw : fsWriteFile fs name data size = .ok (r, fs'))
    (hf : WriteFaults fs' name n e) : WriteFaults fs name n e := by
  rcases fsWriteFile_cases hw with ⟨_, rfl⟩ | ⟨hr, i, fs₁, ho, ht, _, _, rfl⟩
  · exact hf
  have hfound : findFileInDir fs₁ fs₁.currentDir name = some i := by
    cases ho with
    | existing hi => exact hi
    | created hn => exact hn.find
  have hfind : findFileInDir (fs₁.storeData i data (writeSize size)) fs₁.currentDir name = some i := by
    rw [findFileInDir_storeData]
    exact hfound
  cases hf with
  | long hnew _ _ => cases hnew.symm.trans hfind
  | @storage c _ hc hs =>
    have htarget : writeTarget (fs₁.storeData i data (writeSize size)) name n =
        some ⟨i, (fs₁.files i).dataOffset, writeSize n⟩ := by
      have hcur : (fs₁.storeData i data (writeSize size)).currentDir = fs₁.currentDir := rfl
      rw [writeTarget, hcur, hfind]
      simp only [storeData_type, storeData_dataOffset, if_pos ht]
    cases hc.symm.trans htarget
    refine .storage (fun hnew => ?_) (ho.target ht) hs
    by_contra hlong
    rcases fsWriteFile_long hnew (Nat.le_of_not_lt hlong) with hw' | ⟨_, hw'⟩
    · cases hw'.symm.trans hw
      exact absurd hr (by decide)
    · cases hw'.symm.trans hw

theorem fsReadFile_fault (hi : StorageInv fs) :
    fsReadFile fs name capacity size ≠ .error (.outOfRange .dataStorage) := by
  intro he
  rw [fsReadFile] at he
  split at he
  · cases he
  next i hf =>
  split at he
  · cases he
  next ht =>
  split at he
  · next hs =>
    have hext := hi.extent i (findFileInDir_some hf).1 (Decidable.not_not.1 ht)
    have husage := hi.usage
    have hread : readSize (fs.files i) size ≤ (fs.files i).size := by
      rw [readSize]
      split <;> omega
    omega
  split at he
  · cases he
  · cases he

theorem rebuildCurrentPath_fault : rebuildCurrentPath fs ≠ .error (.outOfRange .dataStorage) := by
  have happend : ∀ {p s}, appendPath p s ≠ .error (.outOfRange .dataStorage) := by
    intro p s he
    rw [appendPath] at he
    split at he <;> cases he
  have hjoin : ∀ {names p}, joinPath names p ≠ .error (.outOfRange .dataStorage) := by
    intro names p he
    fun_induction joinPath names p with
    | case1 p => cases he
    | case2 name p => exact happend he
    | case3 name names p _ ih =>
      rcases bind_eq_error.1 he with he | ⟨p', _, he⟩
      · exact happend he
      rcases bind_eq_error.1 he with he | ⟨p'', _, he⟩
      · exact happend he
      · exact ih _ he
  have hstack : ∀ {n curr}, pathStack fs n curr ≠ .error (.outOfRange .dataStorage) := by
    intro n
    induction n with
    | zero =>
      intro curr he
      cases he
    | succ n ih =>
      intro curr he
      rw [pathStack] at he
      split at he
      · cases he
      split at he
      · cases he
      rcases bind_eq_error.1 he with he | ⟨_, _, he⟩
      · exact ih he
      · cases he
  intro he
  rw [rebuildCurrentPath] at he
  split at he
  · cases he
  rcases bind_eq_error.1 he with he | ⟨_, _, he⟩
  · exact hstack he
  rcases bind_eq_error.1 he with he | ⟨_, _, he⟩
  · exact hjoin he
  · cases he

theorem writeTarget_created {h : fs.fileCount < maxFiles} (hn : Fresh fs name t entry)
    (hc : writeTarget (fs.addEntry entry h).tick name size = some c) :
    t = .regular ∧ writeTarget fs name size = some c := by
  have hfind : findFileInDir (fs.addEntry entry h).tick
    (fs.addEntry entry h).tick.currentDir name = some fs.fileCount := hn.find
  have ht := Opened.regular (.existing hfind) hc
  have hc' : writeTarget _ name size = _ := Opened.target (.existing hfind) ht
  have hreg : t = .regular := hn.added_type.symm.trans ht
  subst hreg
  refine ⟨rfl, ?_⟩
  rw [← hc, hc', hn.added_offset, writeTarget, hn.absent]
  exact if_pos h

theorem moveData_fault (hi : StorageInv fs) {h : fs.fileCount < maxFiles}
    (hf : findFileInDir fs fs.currentDir src = some i) (hn : Fresh fs dest (fs.files i).type entry)
    (he : moveData (fs.addEntry entry h).tick i src dest = .error (.outOfRange .dataStorage)) :
    (fs.files i).type = .regular ∧ ∃ c ∈ writeTarget fs dest (fs.files i).size, c.Overflows := by
  rcases bind_eq_error.1 he with hr | ⟨⟨bytesRead, buffer⟩, _, hrest⟩
  · exact absurd hr (fsReadFile_fault (storageInv_addEntry hi hn))
  simp only at hrest
  split at hrest
  · cases hrest
  rcases bind_eq_error.1 hrest with hw | ⟨⟨written, fs₂⟩, _, hrest⟩
  · obtain ⟨c, hc, hs⟩ := fsWriteFile_fault hw
    obtain ⟨ht, hc'⟩ := writeTarget_created hn hc
    rw [addEntry_files_lt (findFileInDir_some hf).1] at hc'
    exact ⟨ht, c, hc', hs⟩
  · simp only at hrest
    split at hrest <;> cases hrest

theorem fsMoveFile_fault (hi : StorageInv fs)
    (he : fsMoveFile fs src dest = .error (.outOfRange .dataStorage)) :
    ∃ c ∈ storageCopy fs (.moveFile src dest), c.Overflows := by
  rcases fsMoveFile_eq fs src dest with ⟨r, _, hm⟩ | hm | ⟨i, entry, h, hf, hn, hm⟩
  · cases hm.symm.trans he
  · cases hm.symm.trans he
  · obtain ⟨ht, hc⟩ := moveData_fault hi hf hn (hm.symm.trans he)
    simp only [storageCopy, hf, hn.absent, ht, and_self, ↓reduceIte]
    exact hc

theorem fsTouchFile_fault (he : fsTouchFile fs name = .error (.outOfRange .dataStorage)) :
    ∃ c ∈ storageCopy fs (.touchFile name), c.Overflows := by
  rw [fsTouchFile] at he
  split at he
  · cases he
  next hf =>
  rcases bind_eq_error.1 he with hc | ⟨⟨ret, fs₁⟩, hc, hrest⟩
  · cases (fsCreateFile_error hc).1
  rcases fsCreateFile_cases hc with ⟨hr, rfl⟩ | ⟨rfl, entry, h, hn, rfl⟩
  · simp only [ne_eq, ne_success hr, not_false_eq_true, ↓reduceIte] at hrest
    cases hrest
  simp only [ne_eq, not_true_eq_false, ↓reduceIte] at hrest
  obtain ⟨c, hc, hs⟩ := fsWriteFile_fault hrest
  refine ⟨c, ?_, hs⟩
  rw [storageCopy, if_pos hf]
  exact (writeTarget_created hn hc).2

theorem fsCopyFile_fault (hi : StorageInv fs)
    (he : fsCopyFile fs src dest = .error (.outOfRange .dataStorage)) :
    ∃ c ∈ storageCopy fs (.copyFile src dest), c.Overflows := by
  rcases bind_eq_error.1 he with hr | ⟨⟨bytesRead, buffer⟩, hr, hrest⟩
  · exact absurd hr (fsReadFile_fault hi)
  rcases fsReadFile_cases hr with ⟨hneg, _⟩ | ⟨i, hf, ht, rfl, rfl⟩
  · simp only [hneg, ↓reduceIte] at hrest
    cases hrest
  · have hpos : ¬((readSize (fs.files i) maxFileSize : Nat) : Int) < 0 := by omega
    simp only [hpos, ↓reduceIte, Int.toNat_natCast] at hrest
    obtain ⟨c, hc, hs⟩ := fsWriteFile_fault hrest
    refine ⟨c, ?_, hs⟩
    simp only [storageCopy, hf, ht, ↓reduceIte]
    exact hc

theorem fsChangeDirectory_fault :
    fsChangeDirectory fs path ≠ .error (.outOfRange .dataStorage) := by
  intro he
  rw [fsChangeDirectory] at he
  split at he
  · cases he
  split at he
  · cases he
  split at he
  · split at he
    · cases he
    rcases bind_eq_error.1 he with hr | ⟨_, _, hrest⟩
    · exact rebuildCurrentPath_fault hr
    · cases hrest
  split at he
  · cases he
  split at he
  · cases he
  rcases bind_eq_error.1 he with hr | ⟨_, _, hrest⟩
  · exact rebuildCurrentPath_fault hr
  · cases hrest

def Fits (fs : Filesystem) (op : FsOp) : Prop := ∀ c ∈ storageCopy fs op, ¬c.Overflows
deriving Decidable

def Filesystem.usageAfter (fs : Filesystem) : Option Copy → Nat
  | some c => max (c.offset + c.length) fs.dataUsage
  | none => fs.dataUsage

/-- A call leaves the storage exactly when its copy does not fit, and otherwise moves
`data_usage` behind the copy. -/
structure Accounts (fs : Filesystem) (copy : Option Copy)
    (call : Except Fault (Int × Filesystem)) : Prop where
  fault : call = .error (.outOfRange .dataStorage) ↔ ∃ c ∈ copy, c.Overflows
  usage : call = .ok (r, fs') → fs'.dataUsage = fs.usageAfter copy

theorem Accounts.unchanged (hf : call ≠ .error (.outOfRange .dataStorage))
    (hu : ∀ r fs', call = .ok (r, fs') → fs'.dataUsage = fs.dataUsage) :
    Accounts fs none call := by
  refine ⟨⟨fun he => absurd he hf, ?_⟩, fun he => hu _ _ he⟩
  rintro ⟨c, hc, _⟩
  cases hc

theorem Accounts.refused (hcall : call = .ok (r, fs)) : Accounts fs none call := by
  apply Accounts.unchanged
  · rw [hcall]
    intro he
    cases he
  · intro r' fs' he
    cases hcall.symm.trans he
    rfl

theorem fsWriteFile_accounts (hname : Storable fs name) :
    Accounts fs (writeTarget fs name size) (fsWriteFile fs name data size) := by
  refine ⟨fsWriteFile_fault_iff hname, fun he => ?_⟩
  have hrefused := fsWriteFile_refused he
  have hnone : writeTarget fs name size = none ↔ NoTarget fs name := writeTarget_none
  rw [← hnone] at hrefused
  rcases fsWriteFile_cases he with ⟨hr, rfl⟩ | ⟨_, i, fs₁, ho, ht, hs, _, rfl⟩
  · rw [hrefused.1 (ne_success hr)]
    rfl
  · have husage : fs₁.dataUsage = fs.dataUsage := by
      cases ho with
      | existing hf => rfl
      | created hn => rfl
    rw [ho.target ht, storeData_dataUsage hs, husage]
    rfl

theorem fsTouchFile_accounts (hi : StorageInv fs) :
    Accounts fs (storageCopy fs (.touchFile name)) (fsTouchFile fs name) := by
  refine ⟨⟨fsTouchFile_fault, ?_⟩, fun he => ?_⟩
  · rintro ⟨c, hc, hover⟩
    rw [storageCopy] at hc
    split at hc
    swap
    · cases hc
    -- an empty file takes nothing, and `data_usage` is inside the storage
    next hf =>
    rw [writeTarget, hf] at hc
    by_cases h : fs.fileCount < maxFiles
    · simp only [if_pos h, Option.mem_def, Option.some.injEq] at hc
      subst hc
      exact absurd hi.usage (Nat.not_le.2 hover)
    · simp only [if_neg h] at hc
      cases hc
  · cases hf : findFileInDir fs fs.currentDir name with
    | some i =>
      rw [fsTouchFile, hf] at he
      cases he
      rw [storageCopy, hf, if_neg (Option.some_ne_none i)]
      rfl
    | none =>
      rw [storageCopy, if_pos hf, writeTarget, hf]
      rcases fsTouchFile_cases he with ⟨_, hfs⟩ | ⟨_, i, hf', _⟩ | ⟨_, entry, h, hn, _, rfl⟩
      · rw [hfs]
        by_cases h : fs.fileCount < maxFiles
        · simp only [if_pos h]
          exact (Nat.max_self _).symm
        · simp only [if_neg h]
          rfl
      · cases hf.symm.trans hf'
      · have hoff := hn.added_offset (h := h)
        simp only [if_pos h]
        rw [storeData_dataUsage (by rw [hoff]; exact hi.usage), hoff]
        rfl

theorem fsCopyFile_accounts (hi : StorageInv fs) (hdest : Storable fs dest) :
    Accounts fs (storageCopy fs (.copyFile src dest)) (fsCopyFile fs src dest) := by
  cases hf : findFileInDir fs fs.currentDir src with
  | none =>
    simp only [storageCopy, hf]
    apply Accounts.refused (r := fsErrorInvalidPath)
    rw [fsCopyFile, fsReadFile, hf]
    rfl
  | some i =>
    by_cases ht : (fs.files i).type = .regular
    · have hext := hi.extent i (findFileInDir_some hf).1 ht
      have husage := hi.usage
      have hle := readSize_le (fs.files i) maxFileSize
      have hread : fsReadFile fs src maxFileSize maxFileSize = .ok (_, _) :=
        fsReadFile_regular hf ht rfl (by omega) (readSize_le_size (fs.files i) maxFileSize)
      have hcall : fsCopyFile fs src dest = fsWriteFile fs dest
          (slice fs.dataStorage (fs.files i).dataOffset (readSize (fs.files i) maxFileSize))
          (readSize (fs.files i) maxFileSize) := by
        have hpos : ¬((readSize (fs.files i) maxFileSize : Nat) : Int) < 0 := by omega
        rw [fsCopyFile, hread, ok_bind]
        simp only [hpos, ↓reduceIte, Int.toNat_natCast]
      simp only [storageCopy, hf, ht, ↓reduceIte, hcall]
      exact fsWriteFile_accounts hdest
    · simp only [storageCopy, hf, ht, ↓reduceIte]
      apply Accounts.refused (r := fsErrorInvalidPath)
      rw [fsCopyFile, fsReadFile, hf]
      simp only [ht, ne_eq, not_false_eq_true, ↓reduceIte]
      rfl

theorem moveData_refused (hi : StorageInv fs) {h : fs.fileCount < maxFiles}
    (hf : findFileInDir fs fs.currentDir src = some i) (hn : Fresh fs dest (fs.files i).type entry)
    (he : moveData (fs.addEntry entry h).tick i src dest = .ok (r, fs')) (hneg : r < 0) :
    r = fsErrorPermissionDenied ∧ (fs.files i).type ≠ .regular := by
  have hfile : (fs.addEntry entry h).tick.files i = fs.files i :=
    addEntry_files_lt (findFileInDir_some hf).1
  have hsrc : findFileInDir (fs.addEntry entry h).tick fs.currentDir src = some i :=
    findFileInDir_addEntry_old hf
  rw [moveData, hn.delete, hfile] at he
  obtain ⟨⟨bytesRead, buffer⟩, hread, hrest⟩ := bind_eq_ok.1 he
  by_cases hsize : toU32 bytesRead = (fs.files i).size
  · simp only [hsize, ne_eq, not_true_eq_false, ↓reduceIte] at hrest
    obtain ⟨⟨written, fs₂⟩, hw, hrest⟩ := bind_eq_ok.1 hrest
    by_cases hok : written = fsSuccess
    · simp only [hok, not_true_eq_false, ↓reduceIte] at hrest
      rcases fsWriteFile_cases hw with ⟨hneg', _⟩ | ⟨_, k, fs₁, hopen, _, _, _, rfl⟩
      · exact absurd hok (ne_success hneg')
      cases hopen with
      | created hn' => cases hn'.absent.symm.trans hn.find
      | existing hk =>
        have hcur : ∀ data n, ((fs.addEntry entry h).tick.storeData k data n).currentDir =
          fs.currentDir := fun _ _ => rfl
        rw [fsDeleteFile, findFileInDir_storeData, hcur, hsrc] at hrest
        cases hrest
        exact absurd rfl (ne_success hneg)
    · simp only [hok, not_false_eq_true, ↓reduceIte] at hrest
      cases hrest
      have hno := (fsWriteFile_refused hw).1 hok
      rw [NoTarget, addEntry_currentDir, hn.find] at hno
      simp only [hn.added_type] at hno
      exact ⟨rfl, hno⟩
  · simp only [hsize, ne_eq, not_false_eq_true, ↓reduceIte] at hrest
    cases hrest
    refine ⟨rfl, fun ht => hsize ?_⟩
    rcases fsReadFile_cases hread with ⟨_, hnot⟩ | ⟨j, hj, _, hr, _⟩
    · exact absurd (hfile ▸ ht) (hnot i hsrc)
    · cases hsrc.symm.trans hj
      have hall : readSize (fs.files i) (fs.files i).size = (fs.files i).size := by
        rw [readSize, ite_self]
      have hsmall := hi.size i (findFileInDir_some hf).1 ht
      have hmax : maxFileSize = 4096 := rfl
      rw [hr, hfile, hall, toU32]
      omega

theorem moveData_writes (hi : StorageInv fs) {h : fs.fileCount < maxFiles}
    (hf : findFileInDir fs fs.currentDir src = some i) (ht : (fs.files i).type = .regular) :
    ∃ buffer rest, moveData (fs.addEntry entry h).tick i src dest =
      fsWriteFile (fs.addEntry entry h).tick dest buffer (fs.files i).size >>= rest := by
  have hlt := (findFileInDir_some hf).1
  have hfile : (fs.addEntry entry h).tick.files i = fs.files i := addEntry_files_lt hlt
  have hsrc : findFileInDir (fs.addEntry entry h).tick
      (fs.addEntry entry h).tick.currentDir src = some i := findFileInDir_addEntry_old hf
  have hall : (fs.files i).size = readSize (fs.files i) (fs.files i).size := by
    rw [readSize, ite_self]
  have hext := hi.extent i hlt ht
  have husage := hi.usage
  have hsmall := hi.size i hlt ht
  have hmax : maxFileSize = 4096 := rfl
  have hu32 : toU32 ((fs.files i).size : Int) = (fs.files i).size := by
    rw [toU32]
    omega
  rw [moveData, hfile, fsReadFile_regular hsrc (hfile ▸ ht) (hfile ▸ hall)
    (by rw [hfile]; omega) hsmall, ok_bind]
  simp only
  rw [hu32, if_neg (not_not.2 rfl)]
  exact ⟨_, _, rfl⟩

/-- A file is moved by one write behind the bytes in use. -/
theorem moveData_accounts (hi : StorageInv fs) {h : fs.fileCount < maxFiles}
    (hf : findFileInDir fs fs.currentDir src = some i) (ht : (fs.files i).type = .regular)
    (hn : Fresh fs dest (fs.files i).type entry) (hlen : dest.bytes.length < maxFilename - 1) :
    Accounts fs (writeTarget fs dest (fs.files i).size)
      (moveData (fs.addEntry entry h).tick i src dest) := by
  have hcopy : writeTarget fs dest (fs.files i).size =
      some ⟨fs.fileCount, fs.dataUsage, writeSize (fs.files i).size⟩ := by
    rw [writeTarget, hn.absent]
    exact if_pos h
  refine ⟨⟨fun he => (moveData_fault hi hf hn he).2, ?_⟩, fun he => ?_⟩
  · rw [hcopy]
    rintro ⟨c, hc, hover⟩
    cases hc
    obtain ⟨buffer, rest, hrest⟩ : ∃ buffer rest, moveData (fs.addEntry entry h).tick i src dest =
        fsWriteFile (fs.addEntry entry h).tick dest buffer (fs.files i).size >>= rest :=
      moveData_writes hi hf ht
    rw [ht] at hn
    have hopen : Opened (fs.addEntry entry h).tick dest fs.fileCount (fs.addEntry entry h).tick :=
      .existing hn.find
    have htarget : writeTarget (fs.addEntry entry h).tick dest (fs.files i).size =
      some ⟨_, _, _⟩ := hopen.target hn.added_type
    rw [hrest, (fsWriteFile_fault_iff fun _ => hlen).2 ⟨_, htarget, ?_⟩]
    · rfl
    · rw [hn.added_offset]
      exact hover
  · rw [hcopy]
    rcases moveData_cases hf hn he with ⟨hneg, _⟩ | ⟨_, _, hs, rfl⟩
    · exact absurd ht (moveData_refused hi hf hn he hneg).2
    · rw [ht] at hn
      rw [removeEntry_dataUsage, storeData_dataUsage (by rw [hn.added_offset]; exact hs),
        hn.added_offset]
      rfl

theorem fsMoveFile_accounts (hi : StorageInv fs) (hlen : dest.bytes.length < maxFilename - 1) :
    Accounts fs (storageCopy fs (.moveFile src dest)) (fsMoveFile fs src dest) := by
  rw [storageCopy]
  cases hf : findFileInDir fs fs.currentDir src with
  | none =>
    apply Accounts.refused (r := fsErrorNotFound)
    rw [fsMoveFile, hf]
  | some i =>
  cases hd : findFileInDir fs fs.currentDir dest with
  | some j =>
    simp only [reduceCtorEq, and_false, ↓reduceIte]
    apply Accounts.refused (r := fsErrorAlreadyExists)
    rw [fsMoveFile, hf]
    simp only
    rw [hd, if_pos Option.isSome_some]
  | none =>
  simp only [and_true]
  by_cases h : fs.fileCount < maxFiles
  swap
  · simp only [writeTarget, hd, if_neg h, ite_self]
    apply Accounts.refused (r := fsErrorNoSpace)
    rw [fsMoveFile, hf]
    simp only
    rw [hd, if_neg (by decide), fsCreateFile, dif_pos (Nat.le_of_not_lt h)]
    rfl
  obtain ⟨entry, hn, hcreate⟩ : ∃ entry, Fresh fs dest (fs.files i).type entry ∧
      fsCreateFile fs dest (fs.files i).type = .ok (fsSuccess, (fs.addEntry entry h).tick) :=
    fsCreateFile_new h hd hlen
  have hmove : fsMoveFile fs src dest = moveData (fs.addEntry entry h).tick i src dest := by
    rw [fsMoveFile, hf]
    simp only
    rw [hd, if_neg (by decide), hcreate]
    rfl
  rw [hmove]
  by_cases ht : (fs.files i).type = .regular
  · rw [if_pos ht]
    exact moveData_accounts hi hf ht hn hlen
  · rw [if_neg ht]
    apply Accounts.unchanged
    · exact fun he => ht (moveData_fault hi hf hn he).1
    · intro r fs' he
      rcases moveData_cases hf hn he with ⟨_, rfl⟩ | ⟨_, ht', _⟩
      · rw [removeEntry_dataUsage]
        rfl
      · exact absurd ht' ht

theorem fsChangeDirectory_accounts : Accounts fs none (fsChangeDirectory fs path) := by
  apply Accounts.unchanged fsChangeDirectory_fault
  intro r fs' he
  rcases fsChangeDirectory_cases he with rfl | ⟨_, d, p, rfl, _⟩ <;> rfl

/-- The name under which a call may make a file. -/
def FsOp.newFile : FsOp → Option CStr
  | .createFile name _ => some name
  | .writeFile name _ _ => some name
  | .touchFile name => some name
  | .copyFile _ dest => some dest
  | .moveFile _ dest => some dest
  | _ => none

/-- The name leaves room for its NUL and the byte before it. -/
def FsOp.ShortName (op : FsOp) : Prop := ∀ name ∈ op.newFile, name.bytes.length < maxFilename - 1
deriving Decidable

theorem fsCall_accounts (hi : StorageInv fs) (hn : op.ShortName) :
    Accounts fs (storageCopy fs op) (fsCall fs op) := by
  cases op with
  | createFile name type =>
    apply Accounts.unchanged
    · intro he
      cases (fsCreateFile_error he).1
    · intro r fs' he
      rcases fsCreateFile_cases he with ⟨_, rfl⟩ | ⟨_, entry, h, _, rfl⟩ <;> rfl
  | writeFile name data size => exact fsWriteFile_accounts fun _ => hn name rfl
  | touchFile name => exact fsTouchFile_accounts hi
  | makeDirectory name =>
    apply Accounts.unchanged
    · intro he
      cases he
    · intro r fs' he
      rcases fsMakeDirectory_cases (Except.ok.inj he) with ⟨_, rfl⟩ | ⟨_, entry, h, _, rfl⟩ <;> rfl
  | deleteFile name =>
    apply Accounts.unchanged
    · intro he
      cases he
    · intro r fs' he
      rcases fsDeleteFile_cases (Except.ok.inj he) with ⟨_, rfl⟩ | ⟨_, i, _, rfl⟩
      · rfl
      · exact removeEntry_dataUsage
  | removeDirectory name =>
    apply Accounts.unchanged
    · intro he
      cases he
    · intro r fs' he
      rcases fsRemoveDirectory_cases (Except.ok.inj he) with ⟨_, rfl⟩ | ⟨_, i, _, _, rfl⟩
      · rfl
      · exact removeEntry_dataUsage
  | copyFile src dest => exact fsCopyFile_accounts hi fun _ => hn dest rfl
  | moveFile src dest => exact fsMoveFile_accounts hi (hn dest rfl)
  | changeDirectory path => exact fsChangeDirectory_accounts

/-- How far a call moves `data_usage`. -/
def usageAdded (fs : Filesystem) (op : FsOp) : Nat :=
  fs.usageAfter (storageCopy fs op) - fs.dataUsage

theorem usageAfter_eq : fs.usageAfter (storageCopy fs op) = fs.dataUsage + usageAdded fs op := by
  have hle : fs.dataUsage ≤ fs.usageAfter (storageCopy fs op) := by
    cases storageCopy fs op with
    | none => exact Nat.le_refl _
    | some c => exact Nat.le_max_right _ _
  rw [usageAdded, Nat.add_sub_of_le hle]

theorem overflows_iff (hi : StorageInv fs) :
    (∃ c ∈ storageCopy fs op, c.Overflows) ↔ storageSize < fs.dataUsage + usageAdded fs op := by
  have husage := hi.usage
  rw [← usageAfter_eq]
  cases storageCopy fs op with
  | none =>
    constructor
    · rintro ⟨c, hc, _⟩
      cases hc
    · intro hlt
      exact absurd husage (Nat.not_le.2 hlt)
  | some c =>
    constructor
    · rintro ⟨c', hc, hover⟩
      cases hc
      exact Nat.lt_of_lt_of_le hover (Nat.le_max_left _ _)
    · intro hlt
      rcases lt_max_iff.1 hlt with hover | hover
      · exact ⟨c, rfl, hover⟩
      · exact absurd husage (Nat.not_le.2 hover)

/-- The bytes of the storage that the calls of a run use up. Deleting gives none back. -/
def storageUsed (t : Nat) (ops : List FsOp) : Nat := total fsStep usageAdded (fsInit t) ops

theorem exec_leaves_storage (hn : ∀ op ∈ ops, op.ShortName) :
    exec fsStep (fsInit t) ops = .error (.outOfRange .dataStorage) ↔
      storageSize < storageUsed t ops := by
  have hzero : (fsInit t).dataUsage = 0 := rfl
  have hrun : exec fsStep (fsInit t) ops = .error (.outOfRange .dataStorage) ↔
      storageSize < (fsInit t).dataUsage + total fsStep usageAdded (fsInit t) ops := by
    refine exec_past_bound (f := Filesystem.dataUsage) (storageInv_fsInit t) ?_ ?_
      (storageInv_fsInit t).usage
    · intro op hop fs fs' hi he
      obtain ⟨r, hcall⟩ := fsStep_eq_ok he
      refine ⟨storageInv_preserved.step hi (fun _ _ => trivial) he, ?_⟩
      rw [(fsCall_accounts hi (hn op hop)).usage hcall, usageAfter_eq]
    · intro op hop fs hi
      rw [← overflows_iff hi, ← (fsCall_accounts hi (hn op hop)).fault, fsStep]
      cases fsCall fs op with
      | ok p => constructor <;> intro he <;> cases he
      | error e => constructor <;> intro he <;> cases he <;> rfl
  rwa [hzero, Nat.zero_add] at hrun

def FilesInside (fs : Filesystem) : Prop := ∀ i < fs.fileCount, (fs.files i).type = .regular →
  (fs.files i).dataOffset + (fs.files i).size ≤ storageSize

/-- No call on the way leaves the storage, and every file is inside in every state passed. -/
def StaysInside (t : Nat) (ops : List FsOp) : Prop := ∀ pre, pre <+: ops →
  exec fsStep (fsInit t) pre ≠ .error (.outOfRange .dataStorage) ∧
    ∀ fs, exec fsStep (fsInit t) pre = .ok fs → FilesInside fs

/-- A run stays inside the storage exactly when its calls together use no more than there is. -/
theorem storage_bounds (t : Nat) (ops : List FsOp) (hn : ∀ op ∈ ops, op.ShortName) :
    StaysInside t ops ↔ storageUsed t ops ≤ storageSize := by
  rw [← Nat.not_lt, ← exec_leaves_storage hn]
  constructor
  · exact fun hs => (hs ops (List.prefix_refl ops)).1
  · refine fun hstays pre hp => ⟨fun he => hstays (exec_prefix_error hp he), fun fs he i hi ht => ?_⟩
    have hinv : StorageInv fs := storageInv_reach (Reach.refl.exec he)
    exact Nat.le_trans (hinv.extent i hi ht) hinv.usage

/-- Two files written after each other, the first one deleted in between. -/
theorem storage_bounds_reuse : StaysInside 0
    [.writeFile (.ofString "a") [65, 66] 2, .deleteFile (.ofString "a"),
      .writeFile (.ofString "b") [67] 1] := by
  apply (storage_bounds 0 _ ?_).2
  · decide
  · decide

/-- A round writes 4096 bytes to a new file and deletes it again. -/
def storageRounds : Nat → List FsOp
  | 0 => []
  | n + 1 => storageRounds n ++ [.writeFile (.ofString "a") (List.replicate 4096 65) 4096,
      .deleteFile (.ofString "a")]

/-- What a round leaves: the entries of `fs_init`, and a page less of storage. -/
structure AfterRounds (n : Nat) (fs : Filesystem) : Prop where
  fileCount : fs.fileCount = 4
  absent : findFileInDir fs fs.currentDir (.ofString "a") = none
  dataUsage : fs.dataUsage = 4096 * n

theorem afterRounds_write (ha : AfterRounds n fs) : ∃ entry h,
    Fresh fs (.ofString "a") .regular entry ∧
    ((Filesystem.addEntry fs entry h).tick.files 4).type = .regular ∧
    ((Filesystem.addEntry fs entry h).tick.files 4).dataOffset = 4096 * n ∧
    fsWriteFile fs (.ofString "a") (List.replicate 4096 65) 4096 =
      writeEntry (Filesystem.addEntry fs entry h).tick 4 (List.replicate 4096 65) 4096 := by
  have hc : fs.fileCount < maxFiles := by rw [ha.fileCount]; decide
  rcases fsWriteFile_eq fs (.ofString "a") (List.replicate 4096 65) 4096 with
    ⟨_, ht⟩ | ⟨_, hlong, _⟩ | ⟨i, fs₁, ho, hw⟩
  · rw [writeTarget, ha.absent] at ht
    cases ht.symm.trans (if_pos hc)
  · exact absurd hlong (by decide)
  · cases ho with
    | existing hf => cases ha.absent.symm.trans hf
    | @created entry h hn =>
      have htype : ((fs.addEntry entry h).tick.files fs.fileCount).type = .regular := hn.added_type
      have hoff : ((fs.addEntry entry h).tick.files fs.fileCount).dataOffset = fs.dataUsage :=
        hn.added_offset
      rw [ha.fileCount] at hw htype hoff
      exact ⟨entry, h, hn, htype, hoff.trans ha.dataUsage, hw⟩

theorem afterRounds_succ (ha : AfterRounds n fs) (hn : n < 256) :
    ∃ fs', exec fsStep fs [.writeFile (.ofString "a") (List.replicate 4096 65) 4096,
      .deleteFile (.ofString "a")] = .ok fs' ∧ AfterRounds (n + 1) fs' := by
  obtain ⟨entry, h, hf, htype, hoff, hw⟩ := afterRounds_write ha
  have hcount := ha.fileCount
  have hsize : storageSize = 1048576 := rfl
  have hlen : writeSize 4096 = 4096 := rfl
  have hfits : ((fs.addEntry entry h).tick.files 4).dataOffset + 4096 ≤ storageSize := by
    omega
  rw [writeEntry, if_neg (not_not.2 htype), hlen, if_neg (Nat.not_lt.2 hfits),
    List.length_replicate, if_neg (Nat.lt_irrefl _)] at hw
  generalize hfs : (fs.addEntry entry h).tick.storeData 4 (List.replicate 4096 65) 4096 = fs₂ at hw
  have hcount₂ : fs₂.fileCount = 5 := by
    rw [← hfs]
    exact congrArg (· + 1) hcount
  have hcur : fs₂.currentDir = fs.currentDir := by
    rw [← hfs]
    rfl
  have hfind : findFileInDir fs₂ fs₂.currentDir (.ofString "a") = some 4 := by
    rw [hcur, ← hfs, findFileInDir_storeData, hf.find, hcount]
  refine ⟨fs₂.removeEntry 4, ?_, ?_⟩
  · rw [exec, fsStep, fsCall, hw]
    simp only [Except.map, ok_bind]
    rw [exec, fsStep, fsCall, fsDeleteFile, hfind]
    rfl
  · have hlast : 4 = fs₂.fileCount - 1 := by omega
    have hc : (fs₂.removeEntry 4).fileCount = fs.fileCount := by
      rw [removeEntry_fileCount, hcount, hcount₂]
    refine ⟨hc.trans hcount, ?_, ?_⟩
    · rw [removeEntry_currentDir (by omega), newSlot_last hlast, hcur, ← ha.absent]
      apply findFileInDir_congr hc
      intro i hi
      have hold : fs₂.oldSlot 4 i = i := if_neg (by omega)
      have hfile : fs₂.files i = fs.files i := by
        rw [← hfs, storeData_files_of_ne (by omega)]
        exact addEntry_files_lt hi
      rw [removeEntry_files (by omega) (by omega), newSlot_last hlast, hold, hfile]
      exact ⟨rfl, rfl⟩
    · rw [removeEntry_dataUsage, ← hfs, storeData_dataUsage hfits, hoff]
      have : (fs.addEntry entry h).tick.dataUsage = fs.dataUsage := rfl
      rw [this, ha.dataUsage]
      omega

theorem afterRounds (n : Nat) (hn : n ≤ 256) :
    ∃ fs, exec fsStep (fsInit 0) (storageRounds n) = .ok fs ∧ AfterRounds n fs := by
  induction n with
  | zero => exact ⟨_, rfl, ⟨by decide, by decide, by decide⟩⟩
  | succ n ih =>
    obtain ⟨fs, he, ha⟩ := ih (by omega)
    obtain ⟨fs', he', ha'⟩ := afterRounds_succ ha (by omega)
    refine ⟨fs', ?_, ha'⟩
    rw [storageRounds, exec_append, he, ok_bind, he']

/-- Deleting gives nothing back: after 256 rounds the next page goes past the end. -/
theorem storage_exhausted : exec fsStep (fsInit 0)
    (storageRounds 256 ++ [.writeFile (.ofString "a") (List.replicate 4096 65) 4096]) =
      .error (.outOfRange .dataStorage) := by
  obtain ⟨fs, he, ha⟩ := afterRounds 256 (by decide)
  obtain ⟨entry, h, _, htype, hoff, hw⟩ := afterRounds_write ha
  have hpast : storageSize <
      ((fs.addEntry entry h).tick.files 4).dataOffset + writeSize 4096 := by
    rw [hoff]
    decide
  rw [exec_append, he, ok_bind, exec, fsStep, fsCall, hw, writeEntry_fault.2 ⟨htype, hpast⟩]
  rfl

end ChipOS
