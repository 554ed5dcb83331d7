import ChipOS.Fs.Isolation

namespace ChipOS
open ByteMemory Run
set_option autoImplicit true

/-- The copy makes no file longer but one whose bytes are the last in use. -/
def Copy.InPlace (c : Copy) (fs : Filesystem) : Prop :=
  c.file < fs.fileCount → c.length ≤ (fs.files c.file).size ∨
    (fs.files c.file).dataOffset + (fs.files c.file).size = fs.dataUsage

def WritesInPlace (fs : Filesystem) (op : FsOp) : Prop := ∀ c ∈ storageCopy fs op, c.InPlace fs

section
variable {fs : Filesystem}

theorem writeTarget_place (hc : c ∈ writeTarget fs name size) :
    (c.file < fs.fileCount ∧ (fs.files c.file).type = .regular ∧
      c.offset = (fs.files c.file).dataOffset) ∨
    c.file = fs.fileCount ∧ c.offset = fs.dataUsage := by
  have hw : writeTarget fs name size = some c := hc
  rw [writeTarget] at hw
  cases hf : findFileInDir fs fs.currentDir name with
  | some i =>
    rw [hf] at hw
    by_cases ht : (fs.files i).type = .regular
    · cases (if_pos ht).symm.trans hw
      exact .inl ⟨(findFileInDir_some hf).1, ht, rfl⟩
    · cases (if_neg ht).symm.trans hw
  | none =>
    rw [hf] at hw
    by_cases h : fs.fileCount < maxFiles
    · cases (if_pos h).symm.trans hw
      exact .inr ⟨rfl, rfl⟩
    · cases (if_neg h).symm.trans hw

theorem storageCopy_write (hc : c ∈ storageCopy fs op) :
    ∃ name size, c ∈ writeTarget fs name size := by
  have hs : storageCopy fs op = some c := hc
  cases op with
  | writeFile name data size => exact ⟨name, size, hc⟩
  | touchFile name =>
    rw [storageCopy] at hs
    by_cases hf : findFileInDir fs fs.currentDir name = none
    · exact ⟨name, 0, (if_pos hf).symm.trans hs⟩
    · cases (if_neg hf).symm.trans hs
  | copyFile src dest =>
    rw [storageCopy] at hs
    cases hf : findFileInDir fs fs.currentDir src with
    | none =>
      rw [hf] at hs
      cases hs
    | some i =>
      rw [hf] at hs
      by_cases ht : (fs.files i).type = .regular
      · exact ⟨dest, _, (if_pos ht).symm.trans hs⟩
      · cases (if_neg ht).symm.trans hs
  | moveFile src dest =>
    rw [storageCopy] at hs
    cases hf : findFileInDir fs fs.currentDir src with
    | none =>
      rw [hf] at hs
      cases hs
    | some i =>
      rw [hf] at hs
      by_cases ht : (fs.files i).type = .regular ∧ findFileInDir fs fs.currentDir dest = none
      · exact ⟨dest, _, (if_pos ht).symm.trans hs⟩
      · cases (if_neg ht).symm.trans hs
  | createFile => cases hs
  | makeDirectory => cases hs
  | deleteFile => cases hs
  | removeDirectory => cases hs
  | changeDirectory => cases hs

theorem clearOfOthers_place (hd : DisjointFiles fs) (hi : StorageInv fs)
    (hw : c ∈ writeTarget fs name size) (hk : c.InPlace fs) : ClearOfOthers fs c := by
  intro i hlt ht hne x hlo hhi hx
  have hextent := hi.extent i hlt ht
  rcases writeTarget_place hw with ⟨hlive, hreg, hoff⟩ | ⟨_, hoff⟩
  · by_cases hin : x < (fs.files c.file).dataOffset + (fs.files c.file).size
    · exact hd c.file hlive i hlt hreg ht (Ne.symm hne) x ⟨hoff ▸ hlo, hin⟩ hx
    · rcases hk hlive with hsize | hlast
      · omega
      · have := hx.2
        omega
  · have := hx.2
    omega

theorem clearStep_place (hd : DisjointFiles fs) (hi : StorageInv fs) (hk : WritesInPlace fs op) :
    ClearStep fs op := by
  intro c hc
  obtain ⟨name, size, hw⟩ := storageCopy_write hc
  exact clearOfOthers_place hd hi hw (hk c hc)

end

/-- As long as no file grows but the one whose bytes are the last in use, no call overwrites the
bytes of another file, whatever is created, copied, moved and removed. -/
theorem no_growth_is_clear (t : Nat) (ops : List FsOp)
    (hk : Each fsStep WritesInPlace (fsInit t) ops) :
    Each fsStep ClearStep (fsInit t) ops ∧ Each fsStep IsolatedStep (fsInit t) ops ∧
      ∀ fs, exec fsStep (fsInit t) ops = .ok fs → DisjointFiles fs := by
  have hinit : DisjointFiles (fsInit t) ∧ StorageInv (fsInit t) :=
    ⟨disjointFiles_fsInit t, storageInv_fsInit t⟩
  have hstep : ∀ fs op fs', DisjointFiles fs ∧ StorageInv fs → WritesInPlace fs op →
      fsStep fs op = .ok fs' → DisjointFiles fs' ∧ StorageInv fs' := by
    intro fs op fs' ⟨hd, hi⟩ hk he
    exact ⟨disjointFiles_preserved.step hd (clearStep_place hd hi hk) he,
      storageInv_preserved.step hi (fun _ _ => trivial) he⟩
  have hclear : Each fsStep ClearStep (fsInit t) ops :=
    hk.imp_invariant hinit hstep fun _ _ hp hk => clearStep_place hp.1 hp.2 hk
  refine ⟨hclear, hclear.imp fun _ _ => isolatedStep_of_clear, fun fs he => ?_⟩
  exact (hk.invariant hinit hstep he).1

/-- A file is made longer while it is the last one, and rewritten with fewer bytes afterwards. -/
theorem no_growth_is_clear_two : ∃ fs,
    exec fsStep (fsInit 0) [.touchFile (.ofString "a"), .writeFile (.ofString "a") [65, 66] 2,
      .writeFile (.ofString "b") [67] 1, .writeFile (.ofString "a") [68] 1] = .ok fs ∧
    DisjointFiles fs := by
  refine ⟨_, rfl, (no_growth_is_clear 0 [.touchFile (.ofString "a"),
    .writeFile (.ofString "a") [65, 66] 2, .writeFile (.ofString "b") [67] 1,
    .writeFile (.ofString "a") [68] 1] ?_).2.2 _ rfl⟩
  refine ⟨?_, fun s hs => ?_⟩
  · intro c hc hlt
    cases hc
    exact absurd hlt (by decide)
  cases hs
  refine ⟨?_, fun s hs => ?_⟩
  · intro c hc _
    cases hc
    exact .inr (by decide)
  cases hs
  refine ⟨?_, fun s hs => ?_⟩
  · intro c hc hlt
    cases hc
    exact absurd hlt (by decide)
  cases hs
  refine ⟨?_, fun _ _ => trivial⟩
  intro c hc _
  cases hc
  exact .inl (by decide)

end ChipOS
