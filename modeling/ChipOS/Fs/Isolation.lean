import ChipOS.Fs.Failure
import ChipOS.Fs.StorageBounds

namespace ChipOS
open ByteMemory Run
set_option autoImplicit true

def Filesystem.InExtent (fs : Filesystem) (i x : Nat) : Prop :=
  (fs.files i).dataOffset ≤ x ∧ x < (fs.files i).dataOffset + (fs.files i).size

/-- The copy overwrites no byte of the entry `i`. -/
def Copy.Clear (c : Copy) (fs : Filesystem) (i : Nat) : Prop :=
  ∀ x, c.offset ≤ x → x < c.offset + c.length → ¬fs.InExtent i x

/-- What a write to another file has to leave alone. -/
structure Unchanged (fs fs' : Filesystem) (i : Nat) : Prop where
  size : (fs'.files i).size = (fs.files i).size
  content : fs'.content i = fs.content i
  read : ∀ name capacity size, findFileInDir fs fs.currentDir name = some i →
    fsReadFile fs' name capacity size = fsReadFile fs name capacity size

section
variable {fs : Filesystem}

theorem unchanged_storeData (hn : n ≤ data.length) (hb : b ≠ a)
    (hc : Copy.Clear ⟨a, (fs.files a).dataOffset, n⟩ fs b) :
    Unchanged fs (fs.storeData a data n) b := by
  have hfile : (fs.storeData a data n).files b = fs.files b := storeData_files_of_ne hb
  have hbyte : ∀ x, fs.InExtent b x → (fs.storeData a data n).dataStorage x = fs.dataStorage x := by
    intro x hx
    apply blit_outside
    rw [List.length_take, Nat.min_eq_left hn]
    by_contra hin
    exact hc x (by simp only; omega) (by simp only; omega) hx
  have hslice : ∀ k ≤ (fs.files b).size,
      slice (fs.storeData a data n).dataStorage (fs.files b).dataOffset k =
        slice fs.dataStorage (fs.files b).dataOffset k := by
    intro k hk
    exact slice_congr fun x hx hx' => hbyte x ⟨hx, by omega⟩
  refine ⟨by rw [hfile], ?_, fun name capacity size hf => ?_⟩
  · rw [Filesystem.content, Filesystem.content, hfile]
    exact hslice _ (Nat.le_refl _)
  · have hf' : findFileInDir (fs.storeData a data n) (fs.storeData a data n).currentDir name =
      some b := findFileInDir_storeData.trans hf
    simp only [fsReadFile, hf, hf', hfile, hslice _ (readSize_le _ _)]

/-- Data that differs everywhere from what the storage holds at the entry. -/
def Filesystem.otherData (fs : Filesystem) (i n : Nat) : List UInt8 :=
  (slice fs.dataStorage (fs.files i).dataOffset n).map (· + 1)

theorem otherData_length : (fs.otherData i n).length = n := by
  rw [Filesystem.otherData, List.length_map, slice_length]

theorem storeData_otherData (hlo : (fs.files i).dataOffset ≤ x)
    (hhi : x < (fs.files i).dataOffset + n) :
    (fs.storeData i (fs.otherData i n) n).dataStorage x = fs.dataStorage x + 1 := by
  obtain ⟨j, rfl⟩ := Nat.exists_eq_add_of_le hlo
  have hj : j < n := by omega
  have htake : (fs.otherData i n).take n = fs.otherData i n :=
    List.take_of_length_le (Nat.le_of_eq otherData_length)
  have hget : (fs.otherData i n)[j]? = some (fs.dataStorage ((fs.files i).dataOffset + j) + 1) := by
    rw [Filesystem.otherData, List.getElem?_map, slice_getElem? hj, Option.map_some]
  simp only [Filesystem.storeData, htake]
  rw [blit_inside (by rw [otherData_length]; exact hj)]
  rw [List.getElem?_eq_getElem (by rw [otherData_length]; exact hj)] at hget
  exact Option.some.inj hget

theorem clear_of_unchanged (hu : Unchanged fs (fs.storeData a (fs.otherData a n) n) b)
    (hb : b ≠ a) : Copy.Clear ⟨a, (fs.files a).dataOffset, n⟩ fs b := by
  intro x hlo hhi hx
  have hc := hu.content
  have hfile : (fs.storeData a (fs.otherData a n) n).files b = fs.files b :=
    storeData_files_of_ne hb
  rw [Filesystem.content, Filesystem.content, hfile] at hc
  have hi : x - (fs.files b).dataOffset < (fs.files b).size := by
    have := hx.1
    have := hx.2
    omega
  have hget := congrArg (fun l => l[x - (fs.files b).dataOffset]?) hc
  simp only [slice_getElem? hi, Nat.add_sub_of_le hx.1, Option.some.injEq] at hget
  rw [storeData_otherData hlo hhi] at hget
  exact absurd hget (by simp)

end

/-- A write to the file `name`, whatever its data, stays inside the storage and leaves the file in
slot `b` as it was. -/
def WriteIsolated (fs : Filesystem) (name : CStr) (size b : Nat) : Prop :=
  ∀ data, fsWriteFile fs name data size ≠ .error (.outOfRange .dataStorage) ∧
    ∀ fs', fsWriteFile fs name data size = .ok (fsSuccess, fs') → Unchanged fs fs' b

/-- The region that a write fills is inside the storage and clear of the file `b`. -/
def WriteClear (fs : Filesystem) (name : CStr) (size b : Nat) : Prop :=
  ∀ c ∈ writeTarget fs name size, c.offset + c.length ≤ storageSize ∧ c.Clear fs b

section
variable {fs fs₁ fs' : Filesystem}

theorem Opened.unchanged (ho : Opened fs name i fs₁) (hb : b < fs.fileCount) :
    fs₁.files b = fs.files b ∧ fs₁.dataStorage = fs.dataStorage ∧
      ∀ s, findFileInDir fs fs.currentDir s = some b →
        findFileInDir fs₁ fs₁.currentDir s = some b := by
  cases ho with
  | existing hf => exact ⟨rfl, rfl, fun s hs => hs⟩
  | @created entry h hn =>
    exact ⟨addEntry_files_lt hb, rfl, fun s hs => findFileInDir_addEntry_old hs⟩

theorem unchanged_of_clear (hc : ∀ c ∈ writeTarget fs name size, c.Clear fs b)
    (hb : b < fs.fileCount) (hne : findFileInDir fs fs.currentDir name ≠ some b)
    (he : fsWriteFile fs name data size = .ok (fsSuccess, fs')) : Unchanged fs fs' b := by
  rcases fsWriteFile_cases he with ⟨hr, _⟩ | ⟨_, i, fs₁, ho, ht, hs, hd, rfl⟩
  · exact absurd hr (by decide)
  · obtain ⟨hfile, hstorage, hfind⟩ := ho.unchanged hb
    have hbi : b ≠ i := by
      rintro rfl
      cases ho with
      | existing hf => exact hne hf
      | created => exact Nat.lt_irrefl _ hb
    have hclear : Copy.Clear ⟨i, (fs₁.files i).dataOffset, writeSize size⟩ fs₁ b := by
      intro x hlo hhi hx
      apply hc _ (ho.target ht) x hlo hhi
      rwa [Filesystem.InExtent, ← hfile]
    have hu := unchanged_storeData hd hbi hclear
    refine ⟨by rw [hu.size, hfile], ?_, fun s capacity size hf => ?_⟩
    · rw [hu.content, Filesystem.content, Filesystem.content, hfile, hstorage]
    · rw [hu.read s capacity size (hfind s hf)]
      simp only [fsReadFile, hf, hfind s hf, hfile, hstorage]

theorem writeIsolated_of_clear (hc : WriteClear fs name size b) (hb : b < fs.fileCount)
    (hne : findFileInDir fs fs.currentDir name ≠ some b) : WriteIsolated fs name size b := by
  refine fun data => ⟨fun he => ?_, fun fs' he => ?_⟩
  · obtain ⟨c, hmem, hs⟩ := fsWriteFile_fault he
    exact absurd (hc c hmem).1 (Nat.not_le.2 hs)
  · exact unchanged_of_clear (fun c hmem => (hc c hmem).2) hb hne he

/-- A write to a file leaves another one alone, whatever the data, exactly when the region it
fills is inside the storage and clear of that file. -/
theorem writeIsolated_iff (ha : findFileInDir fs fs.currentDir name = some a)
    (hta : (fs.files a).type = .regular) (hb : b < fs.fileCount) (hab : b ≠ a) :
    WriteIsolated fs name size b ↔ WriteClear fs name size b := by
  constructor
  · intro hiso c hc
    have htarget : writeTarget fs name size = some ⟨a, (fs.files a).dataOffset, writeSize size⟩ :=
      Opened.target (.existing ha) hta
    cases hc.symm.trans htarget
    obtain ⟨hstays, hkeeps⟩ := hiso (fs.otherData a (writeSize size))
    have hwrite : fsWriteFile fs name (fs.otherData a (writeSize size)) size =
        writeEntry fs a (fs.otherData a (writeSize size)) size := by
      rw [fsWriteFile, ha]
    rw [hwrite] at hstays hkeeps
    have hfits : (fs.files a).dataOffset + writeSize size ≤ storageSize := by
      by_contra hover
      exact hstays (writeEntry_fault.2 ⟨hta, Nat.not_le.1 hover⟩)
    refine ⟨hfits, clear_of_unchanged (hkeeps _ ?_) hab⟩
    rw [writeEntry, if_neg (not_not.2 hta), if_neg (Nat.not_lt.2 hfits),
      if_neg (by rw [otherData_length]; exact Nat.lt_irrefl _)]
  · intro hclear
    apply writeIsolated_of_clear hclear hb
    rw [ha]
    exact fun he => hab (Option.some.inj he).symm

end

def DisjointFiles (fs : Filesystem) : Prop :=
  ∀ i < fs.fileCount, ∀ j < fs.fileCount, (fs.files i).type = .regular →
    (fs.files j).type = .regular → i ≠ j → ∀ x, fs.InExtent i x → ¬fs.InExtent j x

def ClearOfOthers (fs : Filesystem) (c : Copy) : Prop :=
  ∀ i < fs.fileCount, (fs.files i).type = .regular → i ≠ c.file → c.Clear fs i

section
variable {fs : Filesystem} {h : fs.fileCount < maxFiles}

theorem inExtent_addEntry (hn : Fresh fs name t entry)
    (hx : (fs.addEntry entry h).tick.InExtent i x) (hi : i < fs.fileCount + 1) :
    i < fs.fileCount ∧ fs.InExtent i x := by
  rw [Filesystem.InExtent] at hx
  rcases Nat.lt_succ_iff_lt_or_eq.1 hi with hlt | rfl
  · rw [addEntry_files_lt hlt] at hx
    exact ⟨hlt, hx⟩
  · rw [addEntry_files_self, hn.size] at hx
    omega

theorem disjointFiles_addEntry (hd : DisjointFiles fs) (hn : Fresh fs name t entry) :
    DisjointFiles (fs.addEntry entry h).tick := by
  intro i hi j hj hti htj hij x hxi hxj
  obtain ⟨hi', hxi'⟩ := inExtent_addEntry hn hxi hi
  obtain ⟨hj', hxj'⟩ := inExtent_addEntry hn hxj hj
  rw [addEntry_files_lt hi'] at hti
  rw [addEntry_files_lt hj'] at htj
  exact hd i hi' j hj' hti htj hij x hxi' hxj'

theorem disjointFiles_storeData (hd : DisjointFiles fs)
    (hc : ClearOfOthers fs ⟨i, (fs.files i).dataOffset, n⟩) :
    DisjointFiles (fs.storeData i data n) := by
  have hother : ∀ {j x}, j ≠ i → (fs.storeData i data n).InExtent j x → fs.InExtent j x := by
    intro j x hj hx
    rwa [Filesystem.InExtent, storeData_files_of_ne hj] at hx
  have hself : ∀ {x}, (fs.storeData i data n).InExtent i x →
      (fs.files i).dataOffset ≤ x ∧ x < (fs.files i).dataOffset + n := by
    intro x hx
    rwa [Filesystem.InExtent, storeData_size_self, storeData_dataOffset] at hx
  intro j hj k hk htj htk hjk x hxj hxk
  rw [storeData_type] at htj htk
  by_cases hji : j = i
  · subst hji
    obtain ⟨hlo, hhi⟩ := hself hxj
    exact hc k hk htk (Ne.symm hjk) x hlo hhi (hother (Ne.symm hjk) hxk)
  by_cases hki : k = i
  · subst hki
    obtain ⟨hlo, hhi⟩ := hself hxk
    exact hc j hj htj hjk x hlo hhi (hother hjk hxj)
  · exact hd j hj k hk htj htk hjk x (hother hji hxj) (hother hki hxk)

theorem disjointFiles_removeEntry {id : Nat} (hd : DisjointFiles fs) (hid : id < fs.fileCount) :
    DisjointFiles (fs.removeEntry id) := by
  intro i hi j hj hti htj hij x hxi hxj
  rw [removeEntry_fileCount] at hi hj
  rw [removeEntry_files hid hi] at hti
  rw [removeEntry_files hid hj] at htj
  rw [Filesystem.InExtent, removeEntry_files hid hi] at hxi
  rw [Filesystem.InExtent, removeEntry_files hid hj] at hxj
  exact hd _ (oldSlot_lt hid hi) _ (oldSlot_lt hid hj) hti htj
    (fun he => hij (oldSlot_inj hi hj he)) x hxi hxj

theorem disjointFiles_stamp (hd : DisjointFiles fs) : DisjointFiles (fs.stamp i) := by
  have hx : ∀ {j x}, (fs.stamp i).InExtent j x → fs.InExtent j x := by
    intro j x hx
    have ho : ((fs.stamp i).files j).dataOffset = (fs.files j).dataOffset :=
      update_field (f := FileEntry.dataOffset) rfl
    have hs : ((fs.stamp i).files j).size = (fs.files j).size :=
      update_field (f := FileEntry.size) rfl
    rwa [Filesystem.InExtent, ho, hs] at hx
  have ht : ∀ j, ((fs.stamp i).files j).type = (fs.files j).type :=
    fun _ => update_field (f := FileEntry.type) rfl
  intro j hj k hk htj htk hjk x hxj hxk
  exact hd j hj k hk (ht j ▸ htj) (ht k ▸ htk) hjk x (hx hxj) (hx hxk)

theorem clearOfOthers_addEntry (hn : Fresh fs name t entry) (hc : ClearOfOthers fs c) :
    ClearOfOthers (fs.addEntry entry h).tick c := by
  intro i hi ht hne x hlo hhi hx
  obtain ⟨hlt, hx'⟩ := inExtent_addEntry hn hx hi
  rw [addEntry_files_lt hlt] at ht
  exact hc i hlt ht hne x hlo hhi hx'

end

theorem disjointFiles_preserved : Preserved DisjointFiles ClearOfOthers where
  add := disjointFiles_addEntry
  allowed := clearOfOthers_addEntry
  store := fun hd _ _ _ _ hc => disjointFiles_storeData hd hc
  remove := disjointFiles_removeEntry
  stamp := disjointFiles_stamp
  enter := fun hd => hd

theorem disjointFiles_fsInit (t : Nat) : DisjointFiles (fsInit t) := by
  apply disjointFiles_preserved.fsInit
  intro i hi j hj _ _ hij
  cases Nat.lt_one_iff.1 hi
  cases Nat.lt_one_iff.1 hj
  exact absurd rfl hij

/-- The call's copy, if it makes one, is clear of every other file. -/
def ClearStep (fs : Filesystem) (op : FsOp) : Prop := ∀ c ∈ storageCopy fs op, ClearOfOthers fs c

/-- A successful `fs_write_file` leaves every other file as it was. -/
def IsolatedStep (fs : Filesystem) (op : FsOp) : Prop :=
  ∀ name data size fs', op = .writeFile name data size → fsCall fs op = .ok (fsSuccess, fs') →
    ∀ b < fs.fileCount, (fs.files b).type = .regular →
      findFileInDir fs fs.currentDir name ≠ some b → Unchanged fs fs' b

theorem clearStep_other (hc : ClearStep fs (.writeFile name data size)) (hb : b < fs.fileCount)
    (ht : (fs.files b).type = .regular) (hne : findFileInDir fs fs.currentDir name ≠ some b) :
    ∀ c ∈ writeTarget fs name size, c.Clear fs b := by
  intro c hmem
  apply hc c hmem b hb ht
  rintro rfl
  have htarget : writeTarget fs name size = some c := hmem
  rw [writeTarget] at htarget
  split at htarget
  · next i hf =>
    split at htarget
    · cases htarget
      exact hne hf
    · cases htarget
  · split at htarget
    · cases htarget
      exact Nat.lt_irrefl _ hb
    · cases htarget

theorem isolatedStep_of_clear (hc : ClearStep fs op) : IsolatedStep fs op := by
  rintro name data size fs' rfl he b hb ht hne
  exact unchanged_of_clear (clearStep_other hc hb ht hne) hb hne he

/-- Every write stays inside the storage and leaves every other file as it was. -/
def IsolatesFiles (fs : Filesystem) (op : FsOp) : Prop :=
  ∀ name data size, op = .writeFile name data size → ∀ b < fs.fileCount,
    (fs.files b).type = .regular → findFileInDir fs fs.currentDir name ≠ some b →
      WriteIsolated fs name size b

theorem isolatesFiles_of_clear (hc : ClearStep fs op) (hf : Fits fs op) : IsolatesFiles fs op := by
  rintro name data size rfl b hb ht hne
  apply writeIsolated_of_clear _ hb hne
  exact fun c hmem => ⟨Nat.not_lt.1 (hf c hmem), clearStep_other hc hb ht hne c hmem⟩

/-- In a reachable state a write to a file stays inside the storage and leaves another one alone,
whatever the data, exactly when the region it fills is inside the storage and clear of that file.
In runs whose copies are all inside the storage and clear of the other files every write is so and
the files stay disjoint. -/
theorem file_isolation (t : Nat) :
    (∀ fs, Reach fsStep (fsInit t) fs → ∀ name a b size,
      findFileInDir fs fs.currentDir name = some a → (fs.files a).type = .regular →
      b < fs.fileCount → (fs.files b).type = .regular → b ≠ a →
      (WriteIsolated fs name size b ↔ WriteClear fs name size b)) ∧
    ∀ ops, Each fsStep (fun fs op => ClearStep fs op ∧ Fits fs op) (fsInit t) ops →
      Each fsStep IsolatesFiles (fsInit t) ops ∧
      ∀ fs, exec fsStep (fsInit t) ops = .ok fs → DisjointFiles fs := by
  refine ⟨fun fs _ name a b size ha hta hb _ hab => writeIsolated_iff ha hta hb hab,
    fun ops hc => ⟨hc.imp fun _ _ h => isolatesFiles_of_clear h.1 h.2, fun fs he => ?_⟩⟩
  exact hc.invariant (disjointFiles_fsInit t)
    (fun _ _ _ hd hclear he => disjointFiles_preserved.step hd hclear.1 he) he

/-- Two files touched before either is written share their storage. -/
theorem file_overwritten : ∃ fs fs',
    exec fsStep (fsInit 0) [.touchFile (.ofString "a"), .touchFile (.ofString "b"),
      .writeFile (.ofString "b") [66] 1] = .ok fs ∧
    fsWriteFile fs (.ofString "a") [65] 1 = .ok (fsSuccess, fs') ∧
    findFileInDir fs fs.currentDir (.ofString "a") = some 4 ∧
    findFileInDir fs fs.currentDir (.ofString "b") = some 5 ∧
    fs.content 5 = [66] ∧ fs'.content 5 = [65] := by
  refine ⟨_, _, rfl, rfl, ?_⟩
  decide

end ChipOS
