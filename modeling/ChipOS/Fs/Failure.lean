import ChipOS.Fs.Effects

namespace ChipOS
open ByteMemory Run
set_option autoImplicit true

def Filesystem.content (fs : Filesystem) (i : Nat) : List UInt8 :=
  slice fs.dataStorage (fs.files i).dataOffset (fs.files i).size

/-- Two states that differ in `system_time` and the dead slots at most. -/
structure SameLive (fs fs' : Filesystem) : Prop where
  fileCount : fs'.fileCount = fs.fileCount
  files : ∀ i < fs.fileCount, fs'.files i = fs.files i
  currentDir : fs'.currentDir = fs.currentDir
  currentPath : fs'.currentPath = fs.currentPath
  nextFileId : fs'.nextFileId = fs.nextFileId
  dataUsage : fs'.dataUsage = fs.dataUsage
  content : ∀ i < fs.fileCount, fs'.content i = fs.content i

theorem SameLive.refl (fs : Filesystem) : SameLive fs fs :=
  ⟨rfl, fun _ _ => rfl, rfl, rfl, rfl, rfl, fun _ _ => rfl⟩

section
variable {fs fs' : Filesystem} {h : fs.fileCount < maxFiles}

theorem removeEntry_addEntry : (fs.addEntry entry h).tick.removeEntry fs.fileCount =
    { (fs.addEntry entry h).tick with fileCount := fs.fileCount, count_le := fs.count_le } :=
  if_neg (Nat.lt_irrefl fs.fileCount)

theorem sameLive_rollback :
    SameLive fs ((fs.addEntry entry h).tick.removeEntry fs.fileCount) := by
  rw [removeEntry_addEntry]
  have hkeep : ∀ i < fs.fileCount, (fs.addEntry entry h).tick.files i = fs.files i :=
    fun i hi => addEntry_files_lt hi
  refine ⟨rfl, hkeep, rfl, rfl, rfl, rfl, fun i hi => ?_⟩
  rw [Filesystem.content, Filesystem.content]
  simp only [hkeep i hi]
  rfl

/-- A call that returns an error code leaves the live state as it was. -/
theorem fs_failure_sameLive (he : fsCall fs op = .ok (r, fs')) (hr : r < 0) :
    SameLive fs fs' := by
  have hfail : ∀ {P : Prop}, r < 0 ∧ fs' = fs ∨ r = fsSuccess ∧ P → SameLive fs fs' := by
    rintro P (⟨_, rfl⟩ | ⟨hs, _⟩)
    · exact .refl _
    · exact absurd hs (ne_success hr)
  cases op with
  | createFile name type => exact hfail (fsCreateFile_cases he)
  | writeFile name data size => exact hfail (fsWriteFile_cases he)
  | touchFile name =>
    rcases fsTouchFile_cases he with ⟨_, rfl⟩ | ⟨hs, _⟩ | ⟨hs, _⟩
    · exact .refl _
    · exact absurd hs (ne_success hr)
    · exact absurd hs (ne_success hr)
  | makeDirectory name => exact hfail (fsMakeDirectory_cases (Except.ok.inj he))
  | deleteFile name => exact hfail (fsDeleteFile_cases (Except.ok.inj he))
  | removeDirectory name => exact hfail (fsRemoveDirectory_cases (Except.ok.inj he))
  | copyFile src dest =>
    rcases fsCopyFile_cases he with ⟨_, rfl⟩ | ⟨i, n, _, _, _, hw⟩
    · exact .refl _
    · exact hfail (fsWriteFile_cases hw)
  | moveFile src dest =>
    rcases fsMoveFile_cases he with ⟨_, rfl⟩ | ⟨_, entry, h, t, _, rfl⟩ | ⟨hs, _⟩
    · exact .refl _
    · exact sameLive_rollback
    · exact absurd hs (ne_success hr)
  | changeDirectory path =>
    rcases fsChangeDirectory_cases he with rfl | ⟨hs, _⟩
    · exact .refl _
    · exact absurd hs (ne_success hr)

end

/-- Moving a directory creates the destination and takes it off again. -/
theorem fs_failure_moveFile : ∃ fs', SameLive (fsInit 0) fs' ∧
    fsCall (fsInit 0) (.moveFile (.ofString "home") (.ofString "attic")) =
      .ok (fsErrorPermissionDenied, fs') := by
  have hr : (fsCall (fsInit 0) (.moveFile (.ofString "home") (.ofString "attic"))).map Prod.fst =
      .ok fsErrorPermissionDenied := by decide
  cases he : fsCall (fsInit 0) (.moveFile (.ofString "home") (.ofString "attic")) with
  | error e =>
    rw [he] at hr
    cases hr
  | ok p =>
    obtain ⟨r, fs'⟩ := p
    rw [he] at hr
    cases hr
    exact ⟨fs', fs_failure_sameLive he (by decide), rfl⟩

end ChipOS
