import ChipOS.Fs.Move
import ChipOS.Fs.ReadBack
import ChipOS.Shell.Commands

namespace ChipOS
open ByteMemory NameTree Run
set_option autoImplicit true

/-- `mv` stays inside the storage, and if it prints that the file was moved, the destination reads
as the source did. -/
def MvKeeps (fs : Filesystem) (src dst : CStr) : Prop :=
  ∀ cmd rest, cmdMv fs (cmd :: src :: dst :: rest) ≠ .error (.outOfRange .dataStorage) ∧
    ∀ fs', cmdMv fs (cmd :: src :: dst :: rest) = .ok (movedMessage src dst, fs') →
      fsReadFile fs' dst maxFileSize maxFileSize = fsReadFile fs src maxFileSize maxFileSize

/-- What `mv` writes to the destination, if it comes to that, stays inside the storage. -/
def MvFits (fs : Filesystem) (src dst : CStr) : Prop :=
  Storable fs dst → Fits fs (.copyFile src dst)
deriving Decidable

/-- Another live entry called `dst` that the removal of the source renumbers, or leaves, into
the current directory. -/
def Rival (fs : Filesystem) (src dst : CStr) (j : Nat) : Prop :=
  j < fs.fileCount ∧ (fs.files j).name.toCStr = dst ∧
  ∃ i k fs₁, findFileInDir fs fs.currentDir src = some i ∧ Opened fs dst k fs₁ ∧ j ≠ k ∧
    fs₁.newSlot i (fs.files j).parentId = fs₁.newSlot i fs.currentDir

section
variable {fs fs' : Filesystem}

theorem movedMessage_head : (movedMessage src dst).head? = some 'F'.toUInt8 := rfl

theorem cmdMv_moved (he : cmdMv fs (cmd :: src :: dst :: rest) = .ok (movedMessage src dst, fs')) :
    ∃ data fs₂, fsReadFile fs src maxFileSize maxFileSize = .ok ((data.length : Int), data) ∧
      data.length ≤ maxFileSize ∧ fsWriteFile fs dst data data.length = .ok (fsSuccess, fs₂) ∧
      fsDeleteFile fs₂ src = (fsSuccess, fs') := by
  have hhead : ∀ {msg : List UInt8}, movedMessage src dst = msg → msg.head? ≠ some 'm'.toUInt8 := by
    rintro _ rfl hm
    cases hm.symm.trans movedMessage_head
  obtain ⟨r, data, hread, ⟨_, hout, _⟩ | ⟨hpos, written, fs₂, hwrite, hrest⟩⟩ := cmdMv_cases he
  · exact absurd rfl (hhead hout)
  rcases fsReadFile_data hread with ⟨hneg, _⟩ | ⟨rfl, hle⟩
  · exact absurd hneg hpos
  rcases hrest with ⟨_, hout, _⟩ | ⟨rfl, deleted, hdel, hout⟩
  · exact absurd rfl (hhead hout)
  by_cases hok : deleted = fsSuccess
  · subst hok
    exact ⟨data, fs₂, hread, hle, hwrite, hdel⟩
  · rw [if_neg hok] at hout
    exact absurd rfl (hhead hout)

theorem cmdMv_of {data : List UInt8}
    (hread : fsReadFile fs src maxFileSize maxFileSize = .ok ((data.length : Int), data))
    (hwrite : fsWriteFile fs dst data data.length = .ok (fsSuccess, fs₂))
    (hdel : fsDeleteFile fs₂ src = (fsSuccess, fs')) :
    cmdMv fs (cmd :: src :: dst :: rest) = .ok (movedMessage src dst, fs') := by
  have hpos : ¬(data.length : Int) < 0 := by omega
  rw [cmdMv, hread, ok_bind]
  simp only
  rw [if_neg hpos, Int.toNat_natCast, hwrite, ok_bind]
  simp only
  rw [if_neg (not_not.2 rfl), hdel]
  rfl

theorem fsReadFile_removed {id : Nat} (hid : id < fs.fileCount)
    (hf : findFileInDir (fs.removeEntry id) (fs.removeEntry id).currentDir name = some m)
    (hold : findFileInDir fs fs.currentDir name = some (fs.oldSlot id m)) :
    fsReadFile (fs.removeEntry id) name capacity size = fsReadFile fs name capacity size := by
  have hm : m < fs.fileCount - 1 := by
    have hlt := (findFileInDir_some hf).1
    rwa [removeEntry_fileCount] at hlt
  rw [fsReadFile, fsReadFile, hf, hold]
  simp only [removeEntry_files hid hm, removeEntry_dataStorage, readSize]
  rfl

/-- A name found before a removal of another entry is found after it, if perhaps at the new slot
of another entry that the removal brought into the current directory. -/
theorem find_removed {id : Nat} (hid : id < fs.fileCount)
    (hf : findFileInDir fs fs.currentDir name = some k) (hne : k ≠ id) :
    ∃ m, findFileInDir (fs.removeEntry id) (fs.removeEntry id).currentDir name = some m ∧
      fs.oldSlot id m < fs.fileCount ∧ (fs.files (fs.oldSlot id m)).name.toCStr = name ∧
      fs.newSlot id (fs.files (fs.oldSlot id m)).parentId = fs.newSlot id fs.currentDir := by
  obtain ⟨hk, hparent, hname⟩ := findFileInDir_some hf
  have hkept := removeEntry_kept hid hk hne
  have hcur : (fs.removeEntry id).currentDir = fs.newSlot id fs.currentDir :=
    removeEntry_currentDir hid
  have hcount : (fs.removeEntry id).fileCount = fs.fileCount - 1 := removeEntry_fileCount
  cases hm : findFileInDir (fs.removeEntry id) (fs.removeEntry id).currentDir name with
  | none =>
    have hlive : fs.newSlot id k < (fs.removeEntry id).fileCount := hcount ▸ newSlot_lt hid hk hne
    refine absurd ?_ (findFileInDir_none hm hlive ?_)
    · rw [hkept]
      exact hname
    · rw [hkept, hcur, hparent]
  | some m =>
    obtain ⟨hlive, hp, hn⟩ := findFileInDir_some hm
    have hm' : m < fs.fileCount - 1 := hcount ▸ hlive
    rw [removeEntry_files hid hm'] at hp hn
    exact ⟨m, rfl, oldSlot_lt hid hm', hn, hp.trans hcur⟩

theorem Opened.find_old (ho : Opened fs dst k fs₁)
    (hf : findFileInDir fs fs.currentDir src = some i) :
    findFileInDir fs₁ fs₁.currentDir src = some i := by
  cases ho with
  | existing _ => exact hf
  | created _ => exact findFileInDir_addEntry_old hf

theorem Opened.old_entry (ho : Opened fs dst k fs₁) (hj : j < fs₁.fileCount) (hne : j ≠ k) :
    j < fs.fileCount ∧ fs₁.files j = fs.files j := by
  cases ho with
  | existing _ => exact ⟨hj, rfl⟩
  | created _ =>
    have hlt : j < fs.fileCount := Nat.lt_of_le_of_ne (Nat.le_of_lt_succ hj) hne
    exact ⟨hlt, addEntry_files_lt hlt⟩

theorem Opened.currentDir (ho : Opened fs dst k fs₁) : fs₁.currentDir = fs.currentDir := by
  cases ho with
  | existing _ => rfl
  | created _ => rfl

theorem cmdMv_written (he : cmdMv fs (cmd :: src :: dst :: rest) = .ok (movedMessage src dst, fs')) :
    ∃ data i k fs₁ fs₂, fsReadFile fs src maxFileSize maxFileSize = .ok ((data.length : Int), data) ∧
      findFileInDir fs fs.currentDir src = some i ∧ Opened fs dst k fs₁ ∧
      fs₂ = fs₁.storeData k data data.length ∧
      fsReadFile fs₂ dst maxFileSize maxFileSize = .ok ((data.length : Int), data) ∧
      findFileInDir fs₂ fs₂.currentDir src = some i ∧ fs' = fs₂.removeEntry i := by
  obtain ⟨data, fs₂, hread, hle, hwrite, hdel⟩ := cmdMv_moved he
  have hsize : writeSize data.length = data.length := if_neg (Nat.not_lt.2 hle)
  have hk : data.length = min maxFileSize (writeSize data.length) := by
    rw [hsize]
    exact (Nat.min_eq_right hle).symm
  have hback := fsReadFile_written hwrite (Nat.le_refl maxFileSize) hk
  rw [List.take_length] at hback
  rcases fsWriteFile_cases hwrite with ⟨hneg, _⟩ | ⟨_, k, fs₁, ho, _, _, _, hfs₂⟩
  · exact absurd rfl (ne_success hneg)
  rw [hsize] at hfs₂
  rcases fsReadFile_cases hread with ⟨hneg, _⟩ | ⟨i, hi, _, _, _⟩
  · exact absurd hneg (by omega)
  have hi₂ : findFileInDir fs₂ fs₂.currentDir src = some i := by
    rw [hfs₂, findFileInDir_storeData]
    exact ho.find_old hi
  rcases fsDeleteFile_cases hdel with ⟨hneg, _⟩ | ⟨_, i', hi', hfs'⟩
  · exact absurd rfl (ne_success hneg)
  cases hi₂.symm.trans hi'
  exact ⟨data, i, k, fs₁, fs₂, hread, hi, ho, hfs₂, hback, hi₂, hfs'⟩

theorem cmdMv_copies : cmdMv fs (cmd :: src :: dst :: rest) = .error e ↔
    fsCopyFile fs src dst = .error e := by
  rw [cmdMv, fsCopyFile]
  cases fsReadFile fs src maxFileSize maxFileSize with
  | error e' => constructor <;> intro he <;> cases he <;> rfl
  | ok p =>
    obtain ⟨bytesRead, buffer⟩ := p
    simp only [ok_bind]
    by_cases hneg : bytesRead < 0
    · rw [if_pos hneg, if_pos hneg]
      constructor <;> intro he <;> cases he
    rw [if_neg hneg, if_neg hneg]
    cases fsWriteFile fs dst buffer bytesRead.toNat with
    | error e' => constructor <;> intro he <;> cases he <;> rfl
    | ok p =>
      obtain ⟨written, fs₁⟩ := p
      simp only [ok_bind]
      constructor
      · intro he
        split at he
        · cases he
        split at he <;> cases he
      · intro he
        cases he

/-- `mv` leaves the storage exactly when its write does. -/
theorem cmdMv_fault (hs : StorageInv fs) :
    cmdMv fs (cmd :: src :: dst :: rest) = .error (.outOfRange .dataStorage) ↔
      ¬MvFits fs src dst := by
  rw [cmdMv_copies]
  constructor
  · intro he hfits
    obtain ⟨c, hc, hover⟩ := fsCopyFile_fault hs he
    refine hfits ?_ c hc hover
    rcases bind_eq_error.1 he with hr | ⟨⟨bytesRead, buffer⟩, _, hrest⟩
    · exact absurd hr (fsReadFile_fault hs)
    simp only at hrest
    split at hrest
    · cases hrest
    · exact fsWriteFile_storable hrest
  · intro hover
    obtain ⟨hdst, hover⟩ := Classical.not_imp.1 hover
    apply (fsCopyFile_accounts hs hdst).fault.2
    by_contra hnone
    exact hover fun c hc hc' => hnone ⟨c, hc, hc'⟩

theorem moved_of_clear (hne : src ≠ dst) (hr : ∀ j, ¬Rival fs src dst j)
    (he : cmdMv fs (cmd :: src :: dst :: rest) = .ok (movedMessage src dst, fs')) :
    fsReadFile fs' dst maxFileSize maxFileSize = fsReadFile fs src maxFileSize maxFileSize := by
  obtain ⟨data, i, k, fs₁, fs₂, hread, hi, ho, hfs₂, hback, hi₂, rfl⟩ := cmdMv_written he
  obtain ⟨hlt, _, hname⟩ := findFileInDir_some hi₂
  have hcur : fs₂.currentDir = fs.currentDir := by
    rw [hfs₂]
    exact ho.currentDir
  have hdst : findFileInDir fs₂ fs₂.currentDir dst = some k := by
    rw [hfs₂, findFileInDir_storeData]
    exact ho.find
  have hki : k ≠ i := by
    rintro rfl
    exact hne (hname.symm.trans (findFileInDir_some hdst).2.2)
  obtain ⟨m, hm, hold, hn, hp⟩ := find_removed hlt hdst hki
  have hslot : fs₂.oldSlot i m = k := by
    by_contra hother
    generalize fs₂.oldSlot i m = j at hold hn hp hother
    rw [hcur] at hp
    have hj : j < fs₁.fileCount := by
      rw [hfs₂] at hold
      exact hold
    obtain ⟨hj₀, hfile⟩ := ho.old_entry hj hother
    rw [hfs₂, storeData_name, hfile] at hn
    rw [hfs₂, storeData_parentId, hfile] at hp
    exact hr j ⟨hj₀, hn, i, k, fs₁, hi, ho, hother, hp⟩
  rw [fsReadFile_removed hlt hm (hslot ▸ hdst), hback, hread]

theorem mvKeeps_of_clear (hs : StorageInv fs) (hne : src ≠ dst) (hf : MvFits fs src dst)
    (hr : ∀ j, ¬Rival fs src dst j) : MvKeeps fs src dst :=
  fun _ _ => ⟨fun he => (cmdMv_fault hs).1 he hf, fun _ he => moved_of_clear hne hr he⟩

theorem newSlot_inj {id : Nat} (ha : a ≠ id) (hb : b ≠ id)
    (he : fs.newSlot id a = fs.newSlot id b) : a = b := by
  have hslot : fs.oldSlot id (fs.newSlot id a) = a := oldSlot_newSlot ha
  rw [← hslot, he, oldSlot_newSlot hb]

/-- In a tree a file to be moved has no rivals. -/
theorem no_rival (ht : TreeState fs) (hf : findFileInDir fs fs.currentDir src = some i)
    (hreg : (fs.files i).type = .regular) : ¬Rival fs src dst j := by
  rintro ⟨hj, hname, i', k, fs₁, hi', ho, hjk, hslot⟩
  cases hf.symm.trans hi'
  have hleaf := ht.leaf hreg
  have hparent := newSlot_inj (hleaf j hj) (found_ne_current hf hleaf) hslot
  have hfound := (find_iff ht.tree).2 ⟨hj, hparent, hname⟩
  cases ho with
  | existing hk => exact hjk (Option.some.inj (hfound.symm.trans hk))
  | created hn => cases hn.absent.symm.trans hfound

/-- Moving a file onto itself removes it. -/
theorem not_mvKeeps_self (ht : TreeState fs) (hs : StorageInv fs)
    (hf : findFileInDir fs fs.currentDir name = some i) (hreg : (fs.files i).type = .regular) :
    ¬MvKeeps fs name name := by
  intro hkeeps
  have hi := (findFileInDir_some hf).1
  have hextent := hs.extent i hi hreg
  have husage := hs.usage
  have hsize := hs.size i hi hreg
  have hwrite : writeSize (fs.files i).size = (fs.files i).size := if_neg (Nat.not_lt.2 hsize)
  have hroom : (fs.files i).dataOffset + (fs.files i).size ≤ storageSize := by omega
  have hread : fsReadFile fs name maxFileSize maxFileSize =
      .ok (((fs.content i).length : Int), fs.content i) := by
    rw [content_length]
    exact fsReadFile_whole hf hreg hroom hsize
  have hwritten : fsWriteFile fs name (fs.content i) (fs.content i).length =
      .ok (fsSuccess, fs.storeData i (fs.content i) (fs.files i).size) := by
    rw [fsWriteFile, hf, content_length]
    simp only
    rw [writeEntry_regular hreg (hwrite.symm ▸ hroom) (by rw [hwrite, content_length]), hwrite]
  have hstate : TreeState (fs.storeData i (fs.content i) (fs.files i).size) :=
    ht.congr storeData_links rfl
  have hfound : findFileInDir (fs.storeData i (fs.content i) (fs.files i).size)
      (fs.storeData i (fs.content i) (fs.files i).size).currentDir name = some i :=
    findFileInDir_storeData.trans hf
  have hleaf := hstate.leaf (storeData_type.trans hreg)
  have hgone : findFileInDir ((fs.storeData i (fs.content i) (fs.files i).size).removeEntry i)
      ((fs.storeData i (fs.content i) (fs.files i).size).removeEntry i).currentDir name = none := by
    rw [Option.eq_none_iff_forall_ne_some]
    intro k hk
    obtain ⟨j, hj, hne, _⟩ :=
      (find_removeEntry hstate hi hleaf (found_ne_current hfound hleaf)).1 hk
    exact hne (Option.some.inj (hj.symm.trans hfound))
  have hdel : fsDeleteFile (fs.storeData i (fs.content i) (fs.files i).size) name =
      (fsSuccess, (fs.storeData i (fs.content i) (fs.files i).size).removeEntry i) := by
    rw [fsDeleteFile, hfound]
  have hmv := (hkeeps name []).2 _ (cmdMv_of hread hwritten hdel)
  rw [fsReadFile, hgone, hread] at hmv
  have hcode : fsErrorInvalidPath = ((fs.content i).length : Int) :=
    congrArg Prod.fst (Except.ok.inj hmv)
  have hneg : fsErrorInvalidPath < 0 := by decide
  omega

end

/-- `mv` keeps the bytes of the file when the names differ, its write stays inside the storage and
no rival of the destination comes up. In runs that delete only leaves there are no rivals: there it
keeps them exactly when it is not asked to move a file onto itself and its write stays inside. -/
theorem mv_keeps (t : Nat) :
    (∀ fs src dst, Reach fsStep (fsInit t) fs → src ≠ dst → MvFits fs src dst →
      (∀ j, ¬Rival fs src dst j) → MvKeeps fs src dst) ∧
    ∀ ops fs, Each fsStep DeletesLeaf (fsInit t) ops → exec fsStep (fsInit t) ops = .ok fs →
      ∀ src dst i, findFileInDir fs fs.currentDir src = some i → (fs.files i).type = .regular →
        (MvKeeps fs src dst ↔ src ≠ dst ∧ MvFits fs src dst) := by
  refine ⟨fun fs src dst hreach hne hf hr => mvKeeps_of_clear (storageInv_reach hreach) hne hf hr,
    fun ops fs hd he => ?_⟩
  have hinv : TreeInv fs ∧ StorageInv fs := by
    refine hd.invariant (P := fun fs => TreeInv fs ∧ StorageInv fs)
      ⟨treeInv_fsInit t, storageInv_fsInit t⟩ ?_ he
    intro fs op fs' hi hd he
    exact ⟨treeInv_step hi.1 hd he, storageInv_preserved.step hi.2 (fun _ _ => trivial) he⟩
  intro src dst i hf hreg
  constructor
  · intro hkeeps
    constructor
    · rintro rfl
      exact not_mvKeeps_self hinv.1.state hinv.2 hf hreg hkeeps
    · by_contra hover
      exact (hkeeps src []).1 ((cmdMv_fault hinv.2).2 hover)
  · rintro ⟨hne, hfits⟩
    exact mvKeeps_of_clear hinv.2 hne hfits fun j => no_rival hinv.1.state hf hreg

theorem mv_keeps_other : ∃ fs,
    exec fsStep (fsInit 0) [.writeFile (.ofString "a") [120, 121] 2,
      .writeFile (.ofString "b") [122] 1] = .ok fs ∧
    MvKeeps fs (.ofString "a") (.ofString "b") := by
  refine ⟨_, rfl, ?_⟩
  have hleaf : Each fsStep DeletesLeaf (fsInit 0) [.writeFile (.ofString "a") [120, 121] 2,
    .writeFile (.ofString "b") [122] 1] := ⟨trivial, fun _ _ => ⟨trivial, fun _ _ => trivial⟩⟩
  apply ((mv_keeps 0).2 _ _ hleaf rfl (.ofString "a") (.ofString "b") 4 rfl rfl).2
  decide

/-- `mv a a` reports the move and the file is gone. -/
theorem mv_loses_file : ∃ fs fs',
    exec fsStep (fsInit 0) [.writeFile (.ofString "a") [120] 1] = .ok fs ∧
    cmdMv fs [.ofString "mv", .ofString "a", .ofString "a"] =
      .ok (movedMessage (.ofString "a") (.ofString "a"), fs') ∧
    fsReadFile fs (.ofString "a") maxFileSize maxFileSize = .ok (1, [120]) ∧
    fsReadFile fs' (.ofString "a") maxFileSize maxFileSize = .ok (fsErrorInvalidPath, []) :=
  ⟨_, _, rfl, rfl, rfl, rfl⟩

end ChipOS
