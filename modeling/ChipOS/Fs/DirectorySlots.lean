import ChipOS.Fs.Effects
import ChipOS.Lib.Run

namespace ChipOS
open Run
set_option autoImplicit true

def makesDirectory (fs : Filesystem) : FsOp → Bool
  | .makeDirectory name => (fsMakeDirectory fs name).1 = fsSuccess
  | _ => false

def directoriesMade (t : Nat) (ops : List FsOp) : Nat :=
  tally fsStep makesDirectory (fsInit t) ops

/-- `fs_make_directory` finds no space exactly when the table is full, and makes the directory
when it is not. -/
def MakesWhileFree (fs : Filesystem) (name : CStr) : Prop :=
  ((fsMakeDirectory fs name).1 = fsErrorNoSpace ↔ fs.fileCount ≥ maxFiles) ∧
  (fs.fileCount < maxFiles → (fsMakeDirectory fs name).1 = fsSuccess)

section
variable {fs fs' : Filesystem}

/-- A new name of a fitting length fails only when one of the two counters is at its limit. -/
theorem fsMakeDirectory_new (hpos : 1 ≤ name.bytes.length) (hlen : name.bytes.length ≤ 63)
    (hnew : findFileInDir fs fs.currentDir name = none) :
    (fsMakeDirectory fs name).1 =
      if fs.fileCount ≥ maxFiles ∨ fs.nextFileId ≥ maxFiles then fsErrorNoSpace else fsSuccess := by
  have hmax : maxFilename = 64 := rfl
  have hvalid : ¬(name.bytes.length = 0 ∨ name.bytes.length ≥ maxFilename) := by omega
  rw [fsMakeDirectory, dif_neg hvalid, hnew, if_neg (by decide)]
  by_cases hfull : fs.fileCount ≥ maxFiles
  · rw [dif_pos hfull, if_pos (.inl hfull)]
  rw [dif_neg hfull]
  by_cases hids : fs.nextFileId ≥ maxFiles
  · rw [if_pos hids, if_pos (.inr hids)]
  · rw [if_neg hids, if_neg (not_or.2 ⟨hfull, hids⟩)]

theorem fsMakeDirectory_success (he : fsMakeDirectory fs name = (fsSuccess, fs')) :
    fs.nextFileId < maxFiles := by
  rw [fsMakeDirectory] at he
  split at he
  · cases he
  split at he
  · cases he
  split at he
  · cases he
  split at he
  · cases he
  next hids => exact Nat.lt_of_not_ge hids

theorem makesDirectory_neg (hr : r < 0) (he : fsMakeDirectory fs name = (r, fs')) :
    makesDirectory fs (.makeDirectory name) = false := by
  rw [makesDirectory, he]
  exact decide_eq_false (ne_success hr)

theorem nextFileId_write (he : fsWriteFile fs name data size = .ok (r, fs')) :
    fs'.nextFileId = fs.nextFileId := by
  rcases fsWriteFile_cases he with ⟨_, rfl⟩ | ⟨_, i, fs₁, ho, _, _, _, rfl⟩
  · rfl
  · cases ho with
    | existing => rfl
    | created => rfl

/-- `next_file_id` counts the directories made, and nothing takes it back. -/
theorem nextFileId_step (he : fsStep fs op = .ok fs') :
    fs'.nextFileId = fs.nextFileId + (makesDirectory fs op).toNat := by
  obtain ⟨r, hc⟩ := fsStep_eq_ok he
  cases op with
  | makeDirectory name =>
    have hm : fsMakeDirectory fs name = (r, fs') := Except.ok.inj hc
    rcases fsMakeDirectory_cases hm with ⟨hr, rfl⟩ | ⟨rfl, entry, h, _, rfl⟩
    · rw [makesDirectory_neg hr hm]
      rfl
    · have hlt := fsMakeDirectory_success hm
      have hmax : maxFiles = 256 := rfl
      have hmade : makesDirectory fs (.makeDirectory name) = true := by
        rw [makesDirectory, hm]
        rfl
      rw [hmade]
      exact Nat.mod_eq_of_lt (by omega)
  | createFile name type =>
    rcases fsCreateFile_cases hc with ⟨_, rfl⟩ | ⟨_, _, _, _, rfl⟩
    · rfl
    · rfl
  | writeFile name data size => exact nextFileId_write hc
  | touchFile name =>
    rcases fsTouchFile_cases hc with ⟨_, rfl⟩ | ⟨_, _, _, rfl⟩ | ⟨_, _, _, _, _, rfl⟩
    · rfl
    · rfl
    · rfl
  | deleteFile name =>
    rcases fsDeleteFile_cases (Except.ok.inj hc) with ⟨_, rfl⟩ | ⟨_, _, _, rfl⟩
    · rfl
    · exact removeEntry_nextFileId
  | removeDirectory name =>
    rcases fsRemoveDirectory_cases (Except.ok.inj hc) with ⟨_, rfl⟩ | ⟨_, _, _, _, rfl⟩
    · rfl
    · exact removeEntry_nextFileId
  | copyFile src dest =>
    rcases fsCopyFile_cases hc with ⟨_, rfl⟩ | ⟨_, _, _, _, _, hw⟩
    · rfl
    · exact nextFileId_write hw
  | moveFile src dest =>
    rcases fsMoveFile_cases hc with ⟨_, rfl⟩ | ⟨_, _, _, _, _, rfl⟩ |
      ⟨_, _, _, _, _, _, _, _, _, _, rfl⟩
    · rfl
    · exact removeEntry_nextFileId
    · exact removeEntry_nextFileId
  | changeDirectory path =>
    rcases fsChangeDirectory_cases hc with rfl | ⟨_, _, _, rfl, _⟩
    · rfl
    · rfl

theorem nextFileId_made (he : exec fsStep (fsInit t) ops = .ok fs) :
    fs.nextFileId = 4 + directoriesMade t ops :=
  tally_eq (f := Filesystem.nextFileId) (fun _ _ _ hs => nextFileId_step hs) he

end

/-- After any run a directory can be made while the table has a free slot exactly if fewer than
252 have been made: their numbers are not given back when they are removed. -/
theorem no_slot_leak (he : exec fsStep (fsInit t) ops = .ok fs) (hpos : 1 ≤ name.bytes.length)
    (hlen : name.bytes.length ≤ 63) (hnew : findFileInDir fs fs.currentDir name = none) :
    MakesWhileFree fs name ↔ directoriesMade t ops < 252 ∨ fs.fileCount ≥ maxFiles := by
  have hids := nextFileId_made he
  have hmax : maxFiles = 256 := rfl
  have hne : fsErrorNoSpace ≠ fsSuccess := by decide
  rw [MakesWhileFree, fsMakeDirectory_new hpos hlen hnew]
  by_cases hfull : fs.fileCount ≥ maxFiles
  · rw [if_pos (.inl hfull)]
    exact ⟨fun _ => .inr hfull, fun _ => ⟨⟨fun _ => hfull, fun _ => rfl⟩,
      fun h => absurd h (Nat.not_lt.2 hfull)⟩⟩
  by_cases hmade : fs.nextFileId ≥ maxFiles
  · rw [if_pos (.inr hmade)]
    constructor
    · intro h
      exact absurd (h.1.1 rfl) hfull
    · rintro (h | h)
      · omega
      · exact absurd h hfull
  · rw [if_neg (not_or.2 ⟨hfull, hmade⟩)]
    exact ⟨fun _ => .inl (by omega),
      fun _ => ⟨⟨fun h => absurd h.symm hne, fun h => absurd h hfull⟩, fun _ => rfl⟩⟩

/-- One directory is made and removed, and another one is made. -/
theorem no_slot_leak_two : ∃ fs, exec fsStep (fsInit 0) [.makeDirectory (.ofString "a"),
      .removeDirectory (.ofString "a"), .makeDirectory (.ofString "b")] = .ok fs ∧
    MakesWhileFree fs (.ofString "c") := by
  obtain ⟨fs, he, hnew⟩ : ∃ fs, exec fsStep (fsInit 0) [.makeDirectory (.ofString "a"),
      .removeDirectory (.ofString "a"), .makeDirectory (.ofString "b")] = .ok fs ∧
      findFileInDir fs fs.currentDir (.ofString "c") = none := ⟨_, rfl, by decide⟩
  exact ⟨fs, he, (no_slot_leak he (by decide) (by decide) hnew).2 (.inl (by decide))⟩

def directoryRounds : Nat → List FsOp
  | 0 => []
  | n + 1 => directoryRounds n ++
    [.makeDirectory (.ofString "a"), .removeDirectory (.ofString "a")]

/-- What the rounds leave: the four directories of `fs_init`, and a number less for each. -/
structure AfterDirectories (n : Nat) (fs : Filesystem) : Prop where
  fileCount : fs.fileCount = 4
  currentDir : fs.currentDir = 0
  parents : ∀ i < 4, (fs.files i).parentId = 0
  absent : findFileInDir fs fs.currentDir (.ofString "a") = none
  nextFileId : fs.nextFileId = 4 + n

section
variable {fs : Filesystem} {h : fs.fileCount < maxFiles}

theorem AfterDirectories.make (ha : AfterDirectories n fs) (hn : n < 252) : ∃ entry h,
    Fresh fs (.ofString "a") .directory entry ∧ fsMakeDirectory fs (.ofString "a") =
      (fsSuccess, { (fs.addEntry entry h).tick with nextFileId := u32 (fs.nextFileId + 1) }) := by
  have hmax : maxFiles = 256 := rfl
  have hcount := ha.fileCount
  have hids := ha.nextFileId
  have hfree : ¬(fs.fileCount ≥ maxFiles ∨ fs.nextFileId ≥ maxFiles) := by omega
  have hr : (fsMakeDirectory fs (.ofString "a")).1 = _ :=
    fsMakeDirectory_new (by decide) (by decide) ha.absent
  rw [if_neg hfree] at hr
  rcases fsMakeDirectory_cases (Prod.mk.eta (p := fsMakeDirectory fs (.ofString "a"))).symm with
    ⟨hneg, _⟩ | ⟨_, entry, h, hf, he⟩
  · exact absurd hr (ne_success hneg)
  · exact ⟨entry, h, hf, Prod.ext hr he⟩

/-- Removing the directory made last takes its entry off, and gives no number back. -/
theorem removeEntry_made :
    ({ (fs.addEntry entry h).tick with nextFileId := n } : Filesystem).removeEntry fs.fileCount =
      { (fs.addEntry entry h).tick with
        nextFileId := n, fileCount := fs.fileCount, count_le := fs.count_le } :=
  if_neg (Nat.lt_irrefl fs.fileCount)

theorem AfterDirectories.remove (ha : AfterDirectories n fs)
    (hf : Fresh fs (.ofString "a") .directory entry) :
    fsRemoveDirectory { (fs.addEntry entry h).tick with nextFileId := k } (.ofString "a") =
      (fsSuccess, { (fs.addEntry entry h).tick with
        nextFileId := k, fileCount := fs.fileCount, count_le := fs.count_le }) := by
  have hcount := ha.fileCount
  have hfind : findFileInDir { (fs.addEntry entry h).tick with nextFileId := k }
      (fs.addEntry entry h).tick.currentDir (.ofString "a") = some fs.fileCount := hf.find (h := h)
  have htype : ((fs.addEntry entry h).tick.files fs.fileCount).type = .directory := hf.added_type
  have hleaf : ¬((List.range (fs.addEntry entry h).tick.fileCount).any fun i =>
      ((fs.addEntry entry h).tick.files i).parentId = fs.fileCount) = true := by
    intro hany
    obtain ⟨i, hi, hp⟩ := List.any_eq_true.1 hany
    have hp : ((fs.addEntry entry h).tick.files i).parentId = fs.fileCount := of_decide_eq_true hp
    have hzero : ((fs.addEntry entry h).tick.files i).parentId = 0 := by
      rcases Nat.lt_succ_iff_lt_or_eq.1 (List.mem_range.1 hi) with hi | rfl
      · rw [addEntry_files_lt hi]
        exact ha.parents i (hcount ▸ hi)
      · rw [addEntry_files_self, hf.parent, ha.currentDir]
    omega
  rw [fsRemoveDirectory]
  simp only [hfind, htype, ne_eq, not_true_eq_false, ↓reduceIte]
  rw [if_neg hleaf, removeEntry_made]

theorem AfterDirectories.succ (ha : AfterDirectories n fs) (hn : n < 252) :
    ∃ fs', exec fsStep fs [.makeDirectory (.ofString "a"), .removeDirectory (.ofString "a")] =
      .ok fs' ∧ AfterDirectories (n + 1) fs' := by
  obtain ⟨entry, h, hf, hm⟩ := ha.make hn
  have hkeep : ∀ i < fs.fileCount, (fs.addEntry entry h).tick.files i = fs.files i :=
    fun i hi => addEntry_files_lt hi
  refine ⟨{ (fs.addEntry entry h).tick with
    nextFileId := u32 (fs.nextFileId + 1), fileCount := fs.fileCount, count_le := fs.count_le },
    ?_, ha.fileCount, ha.currentDir, fun i hi => ?_, ?_, ?_⟩
  · rw [exec, fsStep, fsCall, hm]
    simp only [Except.map, ok_bind]
    rw [exec, fsStep, fsCall, ha.remove hf]
    rfl
  · have hsame := hkeep i (ha.fileCount ▸ hi)
    exact (congrArg FileEntry.parentId hsame).trans (ha.parents i hi)
  · rw [← ha.absent]
    exact findFileInDir_congr rfl fun i hi =>
      ⟨congrArg FileEntry.parentId (hkeep i hi), congrArg FileEntry.name (hkeep i hi)⟩
  · have hids := ha.nextFileId
    exact (Nat.mod_eq_of_lt (by omega)).trans (by omega)

end

theorem afterDirectories (n : Nat) (hn : n ≤ 252) :
    ∃ fs, exec fsStep (fsInit 0) (directoryRounds n) = .ok fs ∧ AfterDirectories n fs := by
  induction n with
  | zero => exact ⟨_, rfl, ⟨by decide, by decide, by decide, by decide, by decide⟩⟩
  | succ n ih =>
    obtain ⟨fs, he, ha⟩ := ih (by omega)
    obtain ⟨fs', he', ha'⟩ := ha.succ (by omega)
    refine ⟨fs', ?_, ha'⟩
    rw [directoryRounds, exec_append, he, ok_bind, he']

/-- After 252 rounds four of the 256 slots are in use and no directory can be made. -/
theorem slots_leak : ∃ fs, exec fsStep (fsInit 0) (directoryRounds 252) = .ok fs ∧
    fs.fileCount = 4 ∧ findFileInDir fs fs.currentDir (.ofString "a") = none ∧
    (fsMakeDirectory fs (.ofString "a")).1 = fsErrorNoSpace := by
  obtain ⟨fs, he, ha⟩ := afterDirectories 252 (by decide)
  have hfull : fs.nextFileId ≥ maxFiles := Nat.le_of_eq ha.nextFileId.symm
  refine ⟨fs, he, ha.fileCount, ha.absent, ?_⟩
  rw [fsMakeDirectory_new (by decide) (by decide) ha.absent, if_pos (.inr hfull)]

end ChipOS
