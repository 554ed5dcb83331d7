import ChipOS.Fs.Storage

namespace ChipOS
open ByteMemory Run
set_option autoImplicit true

theorem fsReadFile_data (he : fsReadFile fs name capacity size = .ok (r, data)) :
    r < 0 ∧ data = [] ∨ r = data.length ∧ data.length ≤ size := by
  rw [fsReadFile] at he
  split at he
  · cases he
    exact .inl ⟨by decide, rfl⟩
  next i _ =>
  split at he
  · cases he
    exact .inl ⟨by decide, rfl⟩
  split at he
  · cases he
  split at he
  · cases he
  cases he
  refine .inr ⟨by rw [slice_length], ?_⟩
  rw [slice_length, readSize]
  split <;> omega

theorem fsReadFile_error (he : fsReadFile fs name capacity size = .error e) :
    e = .outOfRange .dataStorage ∨ e = .outOfRange .fileBuffer ∧ capacity < size := by
  rw [fsReadFile] at he
  split at he
  · cases he
  next i _ =>
  split at he
  · cases he
  split at he
  · cases he
    exact .inl rfl
  split at he
  · next hcap =>
    cases he
    refine .inr ⟨rfl, Nat.lt_of_lt_of_le hcap ?_⟩
    rw [readSize]
    split <;> omega
  · cases he

section
variable {fs fs₁ fs' : Filesystem}

theorem Opened.find (ho : Opened fs name i fs₁) :
    findFileInDir fs₁ fs₁.currentDir name = some i := by
  cases ho with
  | existing hf => exact hf
  | created hn => exact hn.find

theorem fsReadFile_written (he : fsWriteFile fs name data size = .ok (fsSuccess, fs'))
    (hn : n ≤ capacity) (hk : k = min n (writeSize size)) :
    fsReadFile fs' name capacity n = .ok ((k : Int), data.take k) := by
  rcases fsWriteFile_cases he with ⟨hr, _⟩ | ⟨_, i, fs₁, ho, ht, hs, hd, rfl⟩
  · exact absurd hr (by decide)
  have hfind : findFileInDir (fs₁.storeData i data (writeSize size))
      (fs₁.storeData i data (writeSize size)).currentDir name = some i :=
    findFileInDir_storeData.trans ho.find
  have hread : readSize ((fs₁.storeData i data (writeSize size)).files i) n = k := by
    rw [readSize, storeData_size_self]
    split <;> omega
  have hdata : slice (fs₁.storeData i data (writeSize size)).dataStorage (fs₁.files i).dataOffset k =
      data.take k := by
    have hlen : (data.take (writeSize size)).length = writeSize size := List.length_take_of_le hd
    have hsame : slice (fs₁.storeData i data (writeSize size)).dataStorage (fs₁.files i).dataOffset
        (data.take (writeSize size)).length = data.take (writeSize size) := slice_blit_same
    rw [hlen] at hsame
    have hle : k ≤ writeSize size := by omega
    rw [← slice_take hle, hsame, List.take_take, Nat.min_eq_left hle]
  rw [fsReadFile, hfind]
  simp only [storeData_type, ht, ne_eq, not_true_eq_false, ↓reduceIte, storeData_dataOffset, hread]
  rw [if_neg (by omega), if_neg (by omega), hdata]

end

/-- Reading a file just written returns the data, cut to the length asked for, and the file ends
at or below `data_usage`. -/
theorem read_written (he : fsWriteFile fs name data size = .ok (fsSuccess, fs')) :
    (∀ n, fsReadFile fs' name n n =
      .ok ((min n (min size maxFileSize) : Nat), data.take (min n (min size maxFileSize)))) ∧
    ∃ i, findFileInDir fs' fs'.currentDir name = some i ∧
      (fs'.files i).dataOffset + (fs'.files i).size ≤ fs'.dataUsage := by
  have hsize : writeSize size = min size maxFileSize := by
    rw [writeSize]
    split <;> omega
  constructor
  · intro n
    exact fsReadFile_written he (Nat.le_refl n) (by rw [hsize])
  · rcases fsWriteFile_cases he with ⟨hr, _⟩ | ⟨_, i, fs₁, ho, _, hs, _, rfl⟩
    · exact absurd hr (by decide)
    · refine ⟨i, findFileInDir_storeData.trans ho.find, ?_⟩
      rw [storeData_dataOffset, storeData_size_self, storeData_dataUsage hs]
      exact Nat.le_max_left _ _

theorem read_written_new : ∃ fs', fsWriteFile (fsInit 0) (.ofString "a") [65, 66, 67] 2 =
      .ok (fsSuccess, fs') ∧ fsReadFile fs' (.ofString "a") 1 1 = .ok (1, [65]) ∧
    ∃ i, findFileInDir fs' fs'.currentDir (.ofString "a") = some i ∧
      (fs'.files i).dataOffset + (fs'.files i).size ≤ fs'.dataUsage := by
  have he : ∃ fs', fsWriteFile (fsInit 0) (.ofString "a") [65, 66, 67] 2 =
    .ok (fsSuccess, fs') := ⟨_, rfl⟩
  obtain ⟨fs', he⟩ := he
  exact ⟨fs', he, (read_written he).1 1, (read_written he).2⟩

end ChipOS
