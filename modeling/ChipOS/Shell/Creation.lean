import ChipOS.Fs.ReadBack
import ChipOS.Fs.StorageBounds
import ChipOS.Shell.Commands

namespace ChipOS
open Run
set_option autoImplicit true

/-- A call gives up with an error code, does not come back from copying a name that is too
long, or goes on with the index of a live entry of that name. -/
def Indexed (fs : Filesystem) (name : CStr) (rest : Filesystem → Nat → Except Fault (Int × Filesystem))
    (call : Except Fault (Int × Filesystem)) : Prop :=
  (∃ r < 0, call = .ok (r, fs)) ∨
  (call = .error (.outOfRange .entryName) ∧ maxFilename - 1 ≤ name.bytes.length) ∨
  ∃ fs₁ i, findFileInDir fs₁ fs₁.currentDir name = some i ∧ i < fs₁.fileCount ∧ call = rest fs₁ i

section
variable {fs : Filesystem}

theorem fsCreateFile_found (he : fsCreateFile fs name type = .ok (fsSuccess, fs')) :
    findFileInDir fs' fs'.currentDir name = some fs.fileCount ∧
      fs'.fileCount = fs.fileCount + 1 := by
  rcases fsCreateFile_cases he with ⟨hr, _⟩ | ⟨_, entry, h, hn, rfl⟩
  · exact absurd rfl (ne_success hr)
  · exact ⟨hn.find, rfl⟩

theorem fsWriteFile_indexed (fs : Filesystem) (name : CStr) (data : List UInt8) (size : Nat) :
    Indexed fs name (fun fs₁ i => writeEntry fs₁ i data size) (fsWriteFile fs name data size) := by
  rcases fsWriteFile_eq fs name data size with ⟨hw, _⟩ | ⟨hw, hlen, _⟩ | ⟨i, fs₁, ho, hw⟩
  · exact .inl ⟨_, by decide, hw⟩
  · exact .inr (.inl ⟨hw, hlen⟩)
  · exact .inr (.inr ⟨fs₁, i, ho.find, (findFileInDir_some ho.find).1, hw⟩)

theorem writeEntry_index : writeEntry fs i data size ≠ .error (.outOfRange .fileTable) := by
  intro he
  rw [writeEntry] at he
  split at he
  · cases he
  split at he
  · cases he
  split at he
  · cases he
  · cases he

theorem Indexed.index {rest : Filesystem → Nat → Except Fault (Int × Filesystem)}
    (hx : Indexed fs name rest x)
    (hrest : ∀ fs₁ i, rest fs₁ i ≠ .error (.outOfRange .fileTable)) :
    x ≠ .error (.outOfRange .fileTable) := by
  rintro rfl
  rcases hx with ⟨_, _, he⟩ | ⟨he, _⟩ | ⟨fs₁, i, _, _, he⟩
  · cases he
  · cases he
  · exact hrest fs₁ i he.symm

/-- `fs_touch_file` stamps a live entry of the name, or creates the file and goes on with the
index of the new entry. -/
theorem fsTouchFile_indexed (fs : Filesystem) (name : CStr) :
    (∃ i, findFileInDir fs fs.currentDir name = some i ∧
      fsTouchFile fs name = .ok (fsSuccess, fs.stamp i)) ∨
    Indexed fs name (fun fs₁ i => writeEntry fs₁ i [] 0) (fsTouchFile fs name) := by
  rw [fsTouchFile]
  cases hf : findFileInDir fs fs.currentDir name with
  | some i => exact .inl ⟨i, rfl, rfl⟩
  | none =>
    refine .inr ?_
    simp only
    cases hc : fsCreateFile fs name .regular with
    | error e =>
      obtain ⟨rfl, hlen⟩ := fsCreateFile_error hc
      exact .inr (.inl ⟨rfl, hlen⟩)
    | ok p =>
      obtain ⟨r, fs'⟩ := p
      rw [ok_bind]
      rcases fsCreateFile_cases hc with ⟨hr, rfl⟩ | ⟨rfl, entry, h, hn, rfl⟩
      · exact .inl ⟨_, by decide, if_pos (ne_success hr)⟩
      · have hfind : findFileInDir (fs.addEntry entry h).tick
          (fs.addEntry entry h).tick.currentDir name = some fs.fileCount := hn.find
        refine .inr (.inr ⟨_, _, hfind, Nat.lt_succ_self _, ?_⟩)
        simp only
        rw [if_neg (not_not.2 rfl), fsWriteFile, hfind]

theorem cmdTouch_index :
    cmdTouch fs (cmd :: name :: rest) ≠ .error (.outOfRange .fileTable) := by
  intro he
  rw [cmdTouch] at he
  rcases bind_eq_error.1 he with hread | ⟨⟨bytesRead, _⟩, _, he⟩
  · rcases fsReadFile_error hread with he | ⟨he, _⟩
    · cases he
    · cases he
  simp only at he
  split at he
  · cases he
  rcases bind_eq_error.1 he with hwrite | ⟨⟨written, fs₁⟩, _, he⟩
  · exact (fsWriteFile_indexed fs name [] 0).index (fun _ _ => writeEntry_index) hwrite
  simp only at he
  split at he
  · cases he
  · cases he

end

/-- A file just created is found under its name at the index of its entry. Hence the index
with which `fs_write_file`, `fs_touch_file` and `touch` go on is that of a live entry, never
-1, and only names without room for their NUL do not come back from the copy. -/
theorem creation_found (fs : Filesystem) (name : CStr) :
    (∀ type fs', fsCreateFile fs name type = .ok (fsSuccess, fs') →
      findFileInDir fs' fs'.currentDir name = some fs.fileCount ∧
        fs'.fileCount = fs.fileCount + 1) ∧
    (∀ type e, fsCreateFile fs name type = .error e →
      e = .outOfRange .entryName ∧ maxFilename - 1 ≤ name.bytes.length) ∧
    (∀ data size,
      Indexed fs name (fun fs₁ i => writeEntry fs₁ i data size) (fsWriteFile fs name data size) ∧
      fsWriteFile fs name data size ≠ .error (.outOfRange .fileTable)) ∧
    ((∃ i, findFileInDir fs fs.currentDir name = some i ∧ i < fs.fileCount ∧
        fsTouchFile fs name = .ok (fsSuccess, fs.stamp i)) ∨
      Indexed fs name (fun fs₁ i => writeEntry fs₁ i [] 0) (fsTouchFile fs name)) ∧
    ∀ cmd rest, cmdTouch fs (cmd :: name :: rest) ≠ .error (.outOfRange .fileTable) := by
  refine ⟨fun _ _ he => fsCreateFile_found he, fun _ _ he => fsCreateFile_error he,
    fun data size => ⟨fsWriteFile_indexed fs name data size, ?_⟩, ?_, fun _ _ => cmdTouch_index⟩
  · exact (fsWriteFile_indexed fs name data size).index fun _ _ => writeEntry_index
  · rcases fsTouchFile_indexed fs name with ⟨i, hf, he⟩ | hx
    · exact .inl ⟨i, hf, (findFileInDir_some hf).1, he⟩
    · exact .inr hx

theorem creation_found_new : ∃ fs', fsCreateFile (fsInit 0) (.ofString "new") .regular =
    .ok (fsSuccess, fs') ∧ findFileInDir fs' fs'.currentDir (.ofString "new") = some 4 := by
  refine ⟨_, rfl, ?_⟩
  exact ((creation_found (fsInit 0) (.ofString "new")).1 .regular _ rfl).1

end ChipOS
