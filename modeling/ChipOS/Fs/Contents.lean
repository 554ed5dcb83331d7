import ChipOS.Fs.ReadBack

namespace ChipOS
open ByteMemory Run
set_option autoImplicit true

/-- The file `name` has the content `data`. -/
def FileHas (fs : Filesystem) (name : CStr) (data : List UInt8) : Prop :=
  fsReadFile fs name maxFileSize maxFileSize = .ok ((data.length : Int), data)

section
variable {fs fs' : Filesystem}

theorem FileHas.unique (h : FileHas fs name data) (h' : FileHas fs name data') : data = data' :=
  congrArg Prod.snd (Except.ok.inj (h.symm.trans h'))

theorem FileHas.entry (h : FileHas fs name data) (hlen : data.length < maxFileSize) :
    ∃ i, findFileInDir fs fs.currentDir name = some i ∧ (fs.files i).type = .regular ∧
      (fs.files i).dataOffset + data.length ≤ storageSize ∧ (fs.files i).size = data.length ∧
      slice fs.dataStorage (fs.files i).dataOffset data.length = data := by
  have hcases := fsReadFile_cases h
  rw [FileHas, fsReadFile] at h
  rcases hcases with ⟨hneg, _⟩ | ⟨i, hf, ht, hr, hs⟩
  · omega
  rw [hf] at h
  simp only [ht, ne_eq, not_true_eq_false, ↓reduceIte] at h
  have hread : readSize (fs.files i) maxFileSize = data.length := by omega
  rw [hread] at h hs
  have hsize : (fs.files i).size = data.length := by
    rw [readSize] at hread
    split at hread <;> omega
  by_cases hout : (fs.files i).dataOffset + data.length > storageSize
  · rw [if_pos hout] at h
    cases h
  · exact ⟨i, hf, ht, by omega, hsize, hs.symm⟩

theorem FileHas.read_take (h : FileHas fs name data) (hn : n ≤ maxFileSize) (hc : n ≤ capacity) :
    fsReadFile fs name capacity n = .ok (((data.take n).length : Int), data.take n) := by
  have hcases := fsReadFile_cases h
  rcases hcases with ⟨hneg, _⟩ | ⟨i, hf, ht, hr, hs⟩
  · omega
  have hsome := h
  rw [FileHas, fsReadFile, hf] at hsome
  simp only [ht, ne_eq, not_true_eq_false, ↓reduceIte] at hsome
  by_cases hout : (fs.files i).dataOffset + readSize (fs.files i) maxFileSize > storageSize
  · rw [if_pos hout] at hsome
    cases hsome
  have hpart : readSize (fs.files i) n = (data.take n).length := by
    rw [List.length_take]
    rw [readSize] at hr ⊢
    split at hr <;> split <;> omega
  have hle : readSize (fs.files i) n ≤ readSize (fs.files i) maxFileSize := by
    rw [List.length_take] at hpart
    omega
  have hdata : slice fs.dataStorage (fs.files i).dataOffset (readSize (fs.files i) n) =
      data.take n := by
    rw [← slice_take hle, ← hs, hpart, List.length_take, ← List.take_eq_take_min]
  rw [fsReadFile, hf]
  simp only [ht, ne_eq, not_true_eq_false, ↓reduceIte]
  rw [if_neg (by omega), if_neg (by rw [hpart, List.length_take]; omega), hdata, hpart]

theorem FileHas.write (h : FileHas fs name data) (hlen : data.length < maxFileSize)
    (hout : out.length ≤ data.length) :
    ∃ fs', fsWriteFile fs name out out.length = .ok (fsSuccess, fs') := by
  obtain ⟨i, hf, ht, hs, _, _⟩ := h.entry hlen
  have hsize : writeSize out.length = out.length := if_neg (by omega)
  rw [fsWriteFile, hf]
  simp only
  rw [writeEntry, hsize, if_neg (not_not.2 ht), if_neg (by omega), if_neg (by omega)]
  exact ⟨_, rfl⟩

theorem FileHas.write_ok (h : FileHas fs name data) (hlen : data.length < maxFileSize)
    (he : fsWriteFile fs name out n = .ok (r, fs')) : r = fsSuccess := by
  obtain ⟨i, hf, ht, _⟩ := h.entry hlen
  rw [fsWriteFile, hf] at he
  simp only at he
  rw [writeEntry, if_neg (not_not.2 ht)] at he
  split at he
  · cases he
  split at he
  · cases he
  cases he
  rfl

theorem fileHas_written (he : fsWriteFile fs name data data.length = .ok (fsSuccess, fs'))
    (hlen : data.length ≤ maxFileSize) : FileHas fs' name data := by
  have hsize : writeSize data.length = data.length := if_neg (by omega)
  have hread := fsReadFile_written he (Nat.le_refl maxFileSize) rfl
  rwa [hsize, Nat.min_eq_right hlen, List.take_length] at hread

end

theorem exists_fileHas (data : List UInt8) (h : data.length ≤ maxFileSize) : ∃ fs',
    fsWriteFile (fsInit 0) (.ofString "f.c") data data.length = .ok (fsSuccess, fs') ∧
      FileHas fs' (.ofString "f.c") data := by
  have hnone : findFileInDir (fsInit 0) (fsInit 0).currentDir (.ofString "f.c") = none := rfl
  obtain ⟨fs₁, hcreate, hfind, ht, ho⟩ : ∃ fs₁,
      fsCreateFile (fsInit 0) (.ofString "f.c") .regular = .ok (fsSuccess, fs₁) ∧
      findFileInDir fs₁ fs₁.currentDir (.ofString "f.c") = some 4 ∧
      (fs₁.files 4).type = .regular ∧ (fs₁.files 4).dataOffset = 0 := ⟨_, rfl, rfl, rfl, rfl⟩
  have hsize : writeSize data.length = data.length := if_neg (by omega)
  have hmax : maxFileSize ≤ storageSize := by decide
  have hw : fsWriteFile (fsInit 0) (.ofString "f.c") data data.length =
      .ok (fsSuccess, fs₁.storeData 4 data data.length) := by
    rw [fsWriteFile, hnone]
    simp only
    rw [hcreate, ok_bind]
    simp only [ne_eq, not_true_eq_false, ↓reduceIte, hfind]
    rw [writeEntry, hsize, if_neg (not_not.2 ht), if_neg (by omega), if_neg (by omega)]
  exact ⟨_, hw, fileHas_written hw h⟩

end ChipOS
