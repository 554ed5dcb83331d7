import ChipOS.Fs.PathStrings

namespace ChipOS
open ByteMemory Run
set_option autoImplicit true

section
variable {fs fs' : Filesystem}

theorem inTable_addEntry {h : fs.fileCount < maxFiles} (ht : InTable fs)
    (hn : Fresh fs name t entry) : InTable (fs.addEntry entry h).tick := by
  refine ⟨ht.root, ht.current, fun i => ?_⟩
  by_cases hi : i = fs.fileCount
  · rw [hi, addEntry_files_self, hn.parent]
    exact ht.current
  · have hold : (fs.addEntry entry h).tick.files i = fs.files i := Function.update_of_ne hi _ _
    rw [hold]
    exact ht.parent i

theorem inTable_storeData (ht : InTable fs) : InTable (fs.storeData i data n) := by
  refine ⟨ht.root, ht.current, fun j => ?_⟩
  rw [storeData_parentId]
  exact ht.parent j

theorem inTable_stamp (ht : InTable fs) : InTable (fs.stamp i) := by
  refine ⟨ht.root, ht.current, fun j => ?_⟩
  have hp : ((fs.stamp i).files j).parentId = (fs.files j).parentId :=
    update_field (f := FileEntry.parentId) rfl
  rw [hp]
  exact ht.parent j

theorem inTable_removeEntry {id : Nat} (ht : InTable fs) (hid : id < fs.fileCount) :
    InTable (fs.removeEntry id) := by
  have hmax : id < maxFiles := Nat.lt_of_lt_of_le hid fs.count_le
  have hren : ∀ entry : FileEntry, entry.parentId < maxFiles →
      (if entry.parentId = fs.fileCount - 1 then { entry with parentId := id } else entry).parentId <
        maxFiles := by
    intro entry hp
    split
    · exact hmax
    · exact hp
  have hfile : ∀ i, (if i < fs.fileCount then
      if (fs.files i).parentId = fs.fileCount - 1 then { fs.files i with parentId := id }
      else fs.files i else fs.files i).parentId < maxFiles := by
    intro i
    split
    · exact hren _ (ht.parent i)
    · exact ht.parent i
  rw [Filesystem.removeEntry]
  split
  · refine ⟨ht.root, ?_, fun i => ?_⟩
    · simp only
      split
      · exact hmax
      · exact ht.current
    · by_cases hi : i = id
      · simp only [hi, Function.update_self]
        exact hfile _
      · simp only [Function.update_of_ne hi]
        exact hfile i
  · exact ⟨ht.root, ht.current, ht.parent⟩

theorem inTable_makeDirectory (ht : InTable fs) (name : CStr) :
    InTable (fsMakeDirectory fs name).2 := by
  have he : fsMakeDirectory fs name = (_, (fsMakeDirectory fs name).2) := rfl
  rcases fsMakeDirectory_cases he with ⟨_, he⟩ | ⟨_, entry, h, hn, he⟩
  · rwa [he]
  · rw [he]
    have hadd : InTable (fs.addEntry entry h).tick := inTable_addEntry ht hn
    exact ⟨hadd.root, hadd.current, hadd.parent⟩

theorem inTable_fsInit (t : Nat) : InTable (fsInit t) := by
  have hroot : InTable (fsRoot t) := by
    have hzero : 0 < maxFiles := by decide
    refine ⟨rfl, hzero, fun i => ?_⟩
    have hp : ((fsRoot t).files i).parentId = 0 := by
      by_cases hi : i = 0
      · rw [hi]
        rfl
      · have hfiles : (fsRoot t).files = Function.update (fun _ => _) 0 _ := rfl
        rw [hfiles, Function.update_of_ne hi]
    rw [hp]
    exact hzero
  exact inTable_makeDirectory (inTable_makeDirectory (inTable_makeDirectory hroot _) _) _

theorem inTable_write (ht : InTable fs) (he : fsWriteFile fs name data size = .ok (r, fs')) :
    InTable fs' := by
  rcases fsWriteFile_cases he with ⟨_, rfl⟩ | ⟨_, i, fs₁, ho, _, _, _, rfl⟩
  · exact ht
  · apply inTable_storeData
    cases ho with
    | existing => exact ht
    | created hn => exact inTable_addEntry ht hn

theorem inTable_call (ht : InTable fs) (he : fsCall fs op = .ok (r, fs')) : InTable fs' := by
  cases op with
  | createFile name type =>
    rcases fsCreateFile_cases he with ⟨_, rfl⟩ | ⟨_, entry, h, hn, rfl⟩
    · exact ht
    · exact inTable_addEntry ht hn
  | writeFile name data size => exact inTable_write ht he
  | touchFile name =>
    rcases fsTouchFile_cases he with ⟨_, rfl⟩ | ⟨_, i, _, rfl⟩ | ⟨_, entry, h, hn, _, rfl⟩
    · exact ht
    · exact inTable_stamp ht
    · exact inTable_storeData (inTable_addEntry ht hn)
  | makeDirectory name =>
    have hm := inTable_makeDirectory ht name
    rwa [Except.ok.inj he] at hm
  | deleteFile name =>
    rcases fsDeleteFile_cases (Except.ok.inj he) with ⟨_, rfl⟩ | ⟨_, i, hf, rfl⟩
    · exact ht
    · exact inTable_removeEntry ht (findFileInDir_some hf).1
  | removeDirectory name =>
    rcases fsRemoveDirectory_cases (Except.ok.inj he) with ⟨_, rfl⟩ | ⟨_, i, hf, _, rfl⟩
    · exact ht
    · exact inTable_removeEntry ht (findFileInDir_some hf).1
  | copyFile src dest =>
    rcases fsCopyFile_cases he with ⟨_, rfl⟩ | ⟨i, n, _, _, _, hw⟩
    · exact ht
    · exact inTable_write ht hw
  | moveFile src dest =>
    rcases fsMoveFile_cases he with ⟨_, rfl⟩ | ⟨_, entry, h, t, hn, rfl⟩ |
      ⟨_, i, entry, h, data, hf, _, hn, _, _, rfl⟩
    · exact ht
    · exact inTable_removeEntry (inTable_addEntry ht hn) (Nat.lt_succ_self _)
    · exact inTable_removeEntry (inTable_storeData (inTable_addEntry ht hn))
        (Nat.lt_succ_of_lt (findFileInDir_some hf).1)
  | changeDirectory path =>
    rcases fsChangeDirectory_cases he with rfl | ⟨_, d, p, rfl, rfl | ⟨hd, _⟩⟩
    · exact ht
    · exact ⟨ht.root, ht.parent _, ht.parent⟩
    · exact ⟨ht.root, Nat.lt_of_lt_of_le hd fs.count_le, ht.parent⟩

theorem inTable_reach (hr : Reach fsStep (fsInit t) fs) : InTable fs :=
  hr.invariant (inTable_fsInit t) fun _ _ _ ht he =>
    have ⟨_, hcall⟩ := fsStep_eq_ok he
    inTable_call ht hcall

end

/-- `fs_change_directory` stays inside `current_path`, and changes no entry and no byte of the
storage. -/
def CdInBuffer (fs : Filesystem) (path : CStr) : Prop :=
  fsChangeDirectory fs path ≠ .error (.outOfRange .currentPath) ∧
  ∀ r fs', fsChangeDirectory fs path = .ok (r, fs') →
    fs'.files = fs.files ∧ fs'.dataStorage = fs.dataStorage

/-- The string `fs_getcwd` is to return. -/
def Filesystem.wherePath (fs : Filesystem) : CStr :=
  if fs.currentDir = fs.rootDir then slash else fs.cwdString

/-- `fs_getcwd` stays inside the buffer, and says so when the path does not fit. -/
def CwdInBuffer (fs : Filesystem) (size : Nat) : Prop :=
  ∃ r s, fsGetcwd fs size = .ok (r, s) ∧
    (size ≤ fs.wherePath.bytes.length → r = fsErrorNoSpace)

section
variable {fs : Filesystem}

theorem cdInBuffer_iff (ht : InTable fs) : CdInBuffer fs path ↔
    ∀ r d, cdTarget fs path = (r, some d) → (fs.pathString d).bytes.length < maxPathLength := by
  rw [CdInBuffer]
  cases htarget : cdTarget fs path with
  | mk r target =>
  cases target with
  | none =>
    rw [fsChangeDirectory_stay ht htarget]
    constructor
    · intro _ r' d hd
      cases hd
    · refine fun _ => ⟨fun he => ?_, fun r' fs' he => ?_⟩
      · cases he
      · cases he
        exact ⟨rfl, rfl⟩
  | some d =>
    by_cases hfits : (fs.pathString d).bytes.length < maxPathLength
    · rw [fsChangeDirectory_enter ht htarget hfits]
      constructor
      · intro _ r' d' he
        cases he
        exact hfits
      · refine fun _ => ⟨fun he => ?_, fun r' fs' he => ?_⟩
        · cases he
        · cases he
          exact ⟨rfl, rfl⟩
    · rw [fsChangeDirectory_overflow ht htarget hfits]
      exact ⟨fun hin => absurd rfl hin.1, fun hin => absurd (hin r d rfl) hfits⟩

theorem cwdInBuffer_iff (ht : InTable fs) (hs : 1 ≤ size) : CwdInBuffer fs size ↔
    fs.currentDir = fs.rootDir ∨ fs.cwdString.bytes.length < size := by
  rw [CwdInBuffer, Filesystem.wherePath]
  by_cases hroot : fs.currentDir = fs.rootDir
  · rw [if_pos hroot, fsGetcwd_root hroot hs]
    refine ⟨fun _ => .inl hroot, fun _ => ?_⟩
    by_cases hsmall : size < 2
    · rw [if_pos hsmall]
      exact ⟨_, _, rfl, fun _ => rfl⟩
    · rw [if_neg hsmall]
      exact ⟨_, _, rfl, fun hle => absurd (Nat.lt_succ_of_le hle) hsmall⟩
  · rw [if_neg hroot, fsGetcwd_eq ht hroot hs]
    by_cases hfits : fs.cwdString.bytes.length < size
    · rw [fill_fits hfits]
      exact ⟨fun _ => .inr hfits,
        fun _ => ⟨_, _, rfl, fun hle => absurd hfits (Nat.not_lt.2 hle)⟩⟩
    · rw [fill_overflows (Nat.le_of_not_lt hfits)]
      constructor
      · rintro ⟨_, _, he, _⟩
        cases he
      · intro hor
        exact absurd hor (not_or.2 ⟨hroot, hfits⟩)

end

/-- In a reachable state `fs_change_directory` stays in its buffer exactly when the path of the
directory it enters has at most 255 bytes, and `fs_getcwd` exactly in the root or when the
path and its NUL fit. -/
theorem path_buffers (hr : Reach fsStep (fsInit t) fs) :
    (∀ path, CdInBuffer fs path ↔
      ∀ r d, cdTarget fs path = (r, some d) → (fs.pathString d).bytes.length < maxPathLength) ∧
    ∀ size, 1 ≤ size →
      (CwdInBuffer fs size ↔ fs.currentDir = fs.rootDir ∨ fs.cwdString.bytes.length < size) :=
  ⟨fun _ => cdInBuffer_iff (inTable_reach hr), fun _ hs => cwdInBuffer_iff (inTable_reach hr) hs⟩

/-- In the directory `/a`, where a buffer of two bytes is too small. -/
theorem path_buffers_made : ∃ fs, exec fsStep (fsInit 0) [.makeDirectory (.ofString "a"),
      .changeDirectory (.ofString "a"), .makeDirectory (.ofString "b")] = .ok fs ∧
    CdInBuffer fs (.ofString "b") ∧ CwdInBuffer fs 3 ∧ ¬CwdInBuffer fs 2 := by
  obtain ⟨fs, he, hcurrent, hcwd, htarget⟩ : ∃ fs, exec fsStep (fsInit 0)
      [.makeDirectory (.ofString "a"), .changeDirectory (.ofString "a"),
        .makeDirectory (.ofString "b")] = .ok fs ∧
      fs.currentDir ≠ fs.rootDir ∧ fs.cwdString.bytes.length = 2 ∧
      ∀ p ∈ (cdTarget fs (.ofString "b")).2, (fs.pathString p).bytes.length < maxPathLength :=
    ⟨_, rfl, by decide, by decide, by decide⟩
  obtain ⟨hcd, hsize⟩ := path_buffers (Reach.refl.exec he)
  refine ⟨fs, he, (hcd _).2 fun r d hd => htarget d ?_, (hsize 3 (by decide)).2 (.inr ?_),
    fun h => ?_⟩
  · rw [hd]
    rfl
  · rw [hcwd]
    decide
  · rcases (hsize 2 (by decide)).1 h with hroot | hlt
    · exact hcurrent hroot
    · rw [hcwd] at hlt
      exact absurd hlt (by decide)

def longName : CStr := ⟨List.replicate 63 'a'.toUInt8, by decide⟩

set_option maxRecDepth 8000 in
/-- The fourth directory of that name inside each other has a path of 256 bytes. -/
theorem path_overflows : ∃ fs,
    exec fsStep (fsInit 0) [.makeDirectory longName, .changeDirectory longName,
      .makeDirectory longName, .changeDirectory longName, .makeDirectory longName,
      .changeDirectory longName, .makeDirectory longName] = .ok fs ∧
    fsChangeDirectory fs longName = .error (.outOfRange .currentPath) ∧
    fsGetcwd fs 100 = .error (.outOfRange .pathBuffer) :=
  ⟨_, rfl, rfl, rfl⟩

end ChipOS
