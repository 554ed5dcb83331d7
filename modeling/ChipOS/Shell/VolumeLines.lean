import ChipOS.Fs.VolumeCalls
import ChipOS.Shell.CommandLines

namespace ChipOS
open Run
set_option autoImplicit true

def writes (name : CStr) (texts : List (List UInt8)) : List FsOp :=
  texts.map fun text => .writeFile name text text.length

/-- The texts that `edit` saves, by the text it starts with and the lines that are typed. -/
def editSaves (text : List UInt8) : List (List UInt8) → List (List UInt8)
  | [] => []
  | line :: lines =>
    if strcmp line (CStr.ofString ":q").bytes = 0 then []
    else if strcmp line (CStr.ofString ":w").bytes = 0 then text :: editSaves text lines
    else if strcmp line (CStr.ofString ":wq").bytes = 0 ∨ line.length = 0 then [text]
    else if text.length + line.length + 1 < maxFileSize then
      editSaves (text ++ line ++ ['\n'.toUInt8]) lines
    else editSaves text lines

/-- A command line, and what is typed while its command runs. -/
structure CommandLine where
  argv : List CStr
  input : CommandInput

def CommandLine.editLines (l : CommandLine) : List (List UInt8) :=
  editInput l.input.bytes.length l.input.bytes

/-- The texts that a session saved, the first one first. -/
def Session.texts (s : Session) : List (List UInt8) :=
  s.saves.reverse.map fun p => savedBytes 0 p.2.buffer

namespace Volume

/-- The texts are written to the file, as far as there is room for it. -/
def Saves (v : Volume) (name : CStr) (texts : List (List UInt8)) (v' : Volume) : Prop :=
  ∃ rs, Gives Calls v (writes name texts) rs v'

/-- What `touch` prints. It says of a directory that it cannot be created. -/
def touchMessage (v : Volume) (name : CStr) (r : Int) : List UInt8 :=
  match v.lookup name with
  | some (.file _) => messageLine "File '" name "' already exists\n"
  | some _ => messageLine "touch: cannot create file '" name "'\n"
  | none =>
    if r = fsSuccess then messageLine "Created file '" name "'\n"
    else messageLine "touch: cannot create file '" name "'\n"

def cpMessage (v : Volume) (src dst : CStr) (r : Int) : List Print :=
  match v.lookup src with
  | some (.file _) =>
    if r = fsSuccess then
      [.text "File '", .puts src.bytes, .text "' copied to '", .puts dst.bytes, .text "'\n"]
    else nameMessage "cp: cannot write to destination file '" dst
  | _ => nameMessage "cp: cannot read source file '" src

/-- `mv`: a file is written to the destination, and removed if that was done. -/
def Moves (v : Volume) (src dst : CStr) (out : List UInt8) (v' : Volume) : Prop :=
  match v.lookup src with
  | some (.file data) => ∃ r v₁, v.Calls (.writeFile dst data data.length) r v₁ ∧
      if r = fsSuccess then out = movedMessage src dst ∧ v' = v₁.remove src
      else out = messageLine "mv: cannot write to destination file '" dst "'\n" ∧ v' = v₁
  | _ => out = messageLine "mv: cannot read source file '" src "'\n" ∧ v' = v

/-- What the command prints on tables that hold the volume. -/
def Prints (heap : Heap) (v : Volume) (l : CommandLine) (fs : Filesystem) (out : List Print) : Prop :=
  Represents fs v ∧ ∃ fs', executeCommand heap fs l.input l.argv = .ok (out, fs')

/-- The texts that the editor saves, with these keys, on tables that hold the volume, and what the
command prints there. -/
def Edits (heap : Heap) (v : Volume) (name : CStr) (l : CommandLine) (texts : List (List UInt8))
    (out : List Print) : Prop :=
  ∃ fs s₀ s, Prints heap v l fs out ∧ editorStart fs name l.input.keys = .ok s₀ ∧
    exec editorStep s₀ (List.replicate l.input.loops ()) = .ok s ∧ texts = s.texts

/-- What a command line makes of the volume, and what it prints. A command that leaves the volume
as it is prints the same on all tables that hold it, but for the order in which `ls` lists and the
index of the directory in its long form. -/
inductive Line (heap : Heap) : Volume → CommandLine → List Print → Volume → Prop
  | cd : v.Calls (.changeDirectory dir) r v' →
      ([.text "DEBUG: Directory changed successfully\n"] <:+ out ↔ r = fsSuccess) →
      (∃ fs, v.Prints heap ⟨.ofString "cd" :: dir :: rest, input⟩ fs out) →
      Line heap v ⟨.ofString "cd" :: dir :: rest, input⟩ out v'
  | mkdir : v.Calls (.makeDirectory name) r v' →
      (nameMessage "mkdir: cannot create directory '" name <:+ out ↔ r ≠ fsSuccess) →
      (∃ fs, v.Prints heap ⟨.ofString "mkdir" :: name :: rest, input⟩ fs out) →
      Line heap v ⟨.ofString "mkdir" :: name :: rest, input⟩ out v'
  | rmdir : v.Calls (.removeDirectory name) r v' →
      Line heap v ⟨.ofString "rmdir" :: name :: rest, input⟩
        (if r = fsSuccess then [] else nameMessage "rmdir: cannot remove directory '" name) v'
  | rm : v.Calls (.deleteFile name) r v' →
      Line heap v ⟨.ofString "rm" :: name :: rest, input⟩
        (if r = fsSuccess then [] else nameMessage "rm: cannot remove file '" name) v'
  | touch : v.Calls (.touchFile name) r v' →
      Line heap v ⟨.ofString "touch" :: name :: rest, input⟩ [.puts (v.touchMessage name r)] v'
  | cp : v.Calls (.copyFile src dst) r v' →
      Line heap v ⟨.ofString "cp" :: src :: dst :: rest, input⟩ (v.cpMessage src dst r) v'
  | mv : v.Moves src dst out v' →
      Line heap v ⟨.ofString "mv" :: src :: dst :: rest, input⟩ [.puts out] v'
  | edit : v.Saves name (editSaves (v.read name (maxFileSize - 1)).2
        (CommandLine.editLines ⟨.ofString "edit" :: name :: rest, input⟩)) v' →
      (∃ fs, v.Prints heap ⟨.ofString "edit" :: name :: rest, input⟩ fs out) →
      Line heap v ⟨.ofString "edit" :: name :: rest, input⟩ out v'
  | code : v.Edits heap name ⟨.ofString "code" :: name :: rest, input⟩ texts out →
      v.Saves name texts v' → Line heap v ⟨.ofString "code" :: name :: rest, input⟩ out v'
  | ls : v.Listing args out → Line heap v ⟨.ofString "ls" :: args, input⟩ out v
  | prints : (∀ fs, Represents fs v → executeCommand heap fs l.input l.argv = .ok (out, fs)) →
      Line heap v l out v

end Volume

/-- What the line copies into the storage is clear of the other files, and `rm` is not used on an
entry that is the parent of others. -/
structure ClearLine (fs : Filesystem) (l : CommandLine) : Prop where
  leaf : RmLeaf fs l.argv
  copies : ∀ word src dst rest, l.argv = word :: src :: dst :: rest →
    word = .ofString "cp" ∨ word = .ofString "mv" → ClearStep fs (.copyFile src dst)
  edits : ∀ name rest r text, l.argv = .ofString "edit" :: name :: rest →
    fsReadFile fs name maxFileSize (maxFileSize - 1) = .ok (r, text) →
    Each fsStep ClearStep fs (writes name (editSaves text l.editLines))
  codes : ∀ name rest s₀ s, l.argv = .ofString "code" :: name :: rest →
    editorStart fs name l.input.keys = .ok s₀ →
    exec editorStep s₀ (List.replicate l.input.loops ()) = .ok s →
    Each fsStep ClearStep fs (saveOps name s.saves)

/-- Under its name in the table a command does to the volume what the line says. -/
def OnVolume (c : String × Handler) : Prop :=
  ∀ {heap fs input args out fs' v}, Represents fs v →
    ClearLine fs ⟨.ofString c.1 :: args, input⟩ →
    (∀ fs₁, executeCommand heap fs₁ input (.ofString c.1 :: args) =
      c.2 heap fs₁ input (.ofString c.1 :: args)) →
    c.2 heap fs input (.ofString c.1 :: args) = .ok (out, fs') →
    ∃ v', v.Line heap ⟨.ofString c.1 :: args, input⟩ out v' ∧ Represents fs' v'

section
variable {fs fs' : Filesystem} {v : Volume}

theorem Represents.saves (hr : Represents fs v) (hc : Each fsStep ClearStep fs (writes name texts))
    (he : answers fsCall fs (writes name texts) = .ok (rs, fs')) :
    ∃ v', v.Saves name texts v' ∧ Represents fs' v' := by
  have hleaf : Each fsStep DeletesLeaf fs (writes name texts) := by
    apply each_deletes
    intro op hop fs₁
    obtain ⟨text, _, rfl⟩ := List.mem_map.1 hop
    trivial
  have hboth := hc.and hleaf
  obtain ⟨v', hgives, hr'⟩ : ∃ v', Gives Volume.Calls v (writes name texts) rs v' ∧ Represents fs' v' :=
    hboth.simulates hr (fun _ op _ _ _ hr₁ hcond hcall => hr₁.calls op hcond.1 hcond.2 hcall) he
  exact ⟨v', ⟨rs, hgives⟩, hr'⟩

theorem editLoop_saves (he : editLoop name ext ⟨text, fs⟩ lines = .ok (out, fs')) :
    ∃ rs, answers fsCall fs (writes name (editSaves text lines)) = .ok (rs, fs') := by
  have hsaved : ∀ {fs fs₁ : Filesystem} {text : List UInt8} {out : List Print},
      saveEdited name ⟨text, fs⟩ = .ok (out, fs₁) →
      ∃ rs, answers fsCall fs (writes name [text]) = .ok (rs, fs₁) := by
    intro fs fs₁ text out hs
    obtain ⟨r, hw⟩ := saveEdited_eq_ok hs
    exact ⟨[r], answers_cons hw rfl⟩
  induction lines generalizing fs text out with
  | nil =>
    cases he
    exact ⟨[], rfl⟩
  | cons line lines ih =>
    rw [editLoop, editLine] at he
    rw [editSaves]
    split at he
    · next hquit =>
      cases he
      rw [if_pos hquit]
      exact ⟨[], rfl⟩
    next hquit =>
    rw [if_neg hquit]
    split at he
    · next hsave =>
      rw [if_pos hsave]
      obtain ⟨⟨out₁, s₁, next⟩, hline, he⟩ := bind_eq_ok.1 he
      obtain ⟨⟨r, fs₁⟩, hw, hline⟩ := bind_eq_ok.1 hline
      cases hline
      obtain ⟨⟨out₂, fs₂⟩, hrest, he⟩ := bind_eq_ok.1 he
      cases he
      obtain ⟨rs, hrs⟩ := ih hrest
      exact ⟨r :: rs, answers_cons hw hrs⟩
    next hsave =>
    rw [if_neg hsave]
    split at he
    · next hend =>
      rw [if_pos (.inl hend)]
      rw [ok_bind] at he
      obtain ⟨⟨out₂, fs₂⟩, hs, he⟩ := bind_eq_ok.1 he
      cases he
      exact hsaved hs
    next hend =>
    split at he
    · next hempty =>
      rw [if_pos (.inr hempty)]
      rw [ok_bind] at he
      obtain ⟨⟨out₂, fs₂⟩, hs, he⟩ := bind_eq_ok.1 he
      cases he
      exact hsaved hs
    next hempty =>
    rw [if_neg (not_or.2 ⟨hend, hempty⟩)]
    split at he
    · next hroom =>
      rw [if_pos hroom]
      rw [ok_bind] at he
      obtain ⟨⟨out₂, fs₂⟩, hrest, he⟩ := bind_eq_ok.1 he
      cases he
      exact ih hrest
    · next hfull =>
      rw [if_neg hfull]
      rw [ok_bind] at he
      obtain ⟨⟨out₂, fs₂⟩, hrest, he⟩ := bind_eq_ok.1 he
      cases he
      exact ih hrest

theorem cmdEdit_saves (he : cmdEdit fs lines (cmd :: name :: rest) = .ok (out, fs')) :
    ∃ r text rs, fsReadFile fs name maxFileSize (maxFileSize - 1) = .ok (r, text) ∧
      answers fsCall fs (writes name (editSaves text lines)) = .ok (rs, fs') := by
  obtain ⟨⟨existingSize, buffer⟩, hread, he⟩ := bind_eq_ok.1 he
  have hempty : ¬existingSize > 0 → buffer = [] := by
    intro hsize
    rcases fsReadFile_data hread with ⟨_, hnil⟩ | ⟨hlen, _⟩
    · exact hnil
    · exact List.eq_nil_of_length_eq_zero (by omega)
  dsimp only at he
  split at he
  · obtain ⟨⟨out₁, fs₁⟩, hloop, he⟩ := bind_eq_ok.1 he
    cases he
    obtain ⟨rs, hrs⟩ := editLoop_saves hloop
    exact ⟨_, _, rs, hread, hrs⟩
  · next hsize =>
    obtain ⟨⟨out₁, fs₁⟩, hloop, he⟩ := bind_eq_ok.1 he
    cases he
    obtain ⟨rs, hrs⟩ := editLoop_saves hloop
    rw [hempty hsize] at hread
    exact ⟨_, _, rs, hread, hrs⟩

theorem line_prints {handler : Handler} (hr : Represents fs v)
    (hx : ∀ fs₁, executeCommand heap fs₁ input argv = handler heap fs₁ input argv)
    (hall : ∀ fs₁, Represents fs₁ v → handler heap fs₁ input argv = .ok (out, fs₁))
    (he : handler heap fs input argv = .ok (out, fs')) :
    ∃ v', v.Line heap ⟨argv, input⟩ out v' ∧ Represents fs' v' := by
  cases (hall fs hr).symm.trans he
  exact ⟨v, .prints fun fs₁ hr₁ => (hx fs₁).trans (hall fs₁ hr₁), hr⟩

theorem onVolume_prints {f : List CStr → Except Fault (List Print)} : OnVolume (word, prints f) := by
  intro heap fs input args out fs' v hr _ hx he
  obtain ⟨out', hout, he'⟩ := bind_eq_ok.1 he
  cases he'
  apply line_prints hr hx _ he
  intro fs₁ _
  change (stops (f _) >>= fun out => .ok (out, fs₁)) = _
  rw [hout]
  rfl

theorem onVolume_reports {f : Filesystem → List CStr → Except Fault (List Print)}
    (hf : ∀ fs fs₁ v argv, Represents fs v → Represents fs₁ v → f fs₁ argv = f fs argv) :
    OnVolume (word, reports f) := by
  intro heap fs input args out fs' v hr _ hx he
  obtain ⟨out', hout, he'⟩ := bind_eq_ok.1 he
  cases he'
  apply line_prints hr hx _ he
  intro fs₁ hr₁
  change (stops (f fs₁ _) >>= fun out => .ok (out, fs₁)) = _
  rw [hf fs fs₁ v _ hr hr₁, hout]
  rfl

theorem onVolume_name (op : CStr → FsOp) (hclear : ∀ fs name, ClearStep fs (op name))
    (hleaf : ∀ fs name rest, RmLeaf fs (.ofString word :: name :: rest) → DeletesLeaf fs (op name))
    (hline : ∀ {heap v name rest input r v' fs debugOut out}, Volume.Calls v (op name) r v' →
      debug fs name = .ok debugOut →
      out = debugOut ++ (if r ≠ 0 then nameMessage message name else []) →
      v.Prints heap ⟨.ofString word :: name :: rest, input⟩ fs out →
      v.Line heap ⟨.ofString word :: name :: rest, input⟩ out v') :
    OnVolume (word, changes (nameCommand usage message debug op)) := by
  intro heap fs input args out fs' v hr hc hx he
  cases args with
  | nil => exact line_prints hr hx (fun _ _ => by cases he; rfl) he
  | cons name rest =>
    have hprints : Volume.Prints heap v ⟨.ofString word :: name :: rest, input⟩ fs out :=
      ⟨hr, fs', (hx fs).trans he⟩
    replace he := stops_eq_ok.1 he
    obtain ⟨out₁, hout, he⟩ := bind_eq_ok.1 he
    obtain ⟨⟨result, fs₁⟩, hcall, he⟩ := bind_eq_ok.1 he
    cases he
    obtain ⟨v', hcalls, hr'⟩ := hr.calls (op name) (hclear fs name) (hleaf fs name rest hc.leaf) hcall
    exact ⟨v', hline hcalls hout rfl hprints, hr'⟩

theorem quiet_prints {fs : Filesystem} (ho : quiet fs name = .ok out) :
    (out ++ if r ≠ 0 then nameMessage message name else []) =
      if r = fsSuccess then [] else nameMessage message name := by
  have hzero : fsSuccess = 0 := rfl
  cases ho
  rw [List.nil_append, hzero]
  by_cases hr : r = 0
  · rw [if_pos hr, if_neg (not_not.2 hr)]
  · rw [if_neg hr, if_pos hr]

theorem not_suffix_of_last {l l' : List α} (hl : l.getLast? = some a) (hl' : l'.getLast? = some b)
    (hne : a ≠ b) : ¬l <:+ l' := by
  rintro ⟨k, rfl⟩
  rw [List.getLast?_append, hl, Option.some_or] at hl'
  exact hne (Option.some.inj hl')

/-- What `fs_make_directory` prints ends a line of its own. -/
theorem makeDirectoryPrints_last (ho : fsMakeDirectoryPrints fs name = .ok out) :
    ∃ s, out.getLast? = some (.text s) ∧ s ≠ "'\n" := by
  rw [fsMakeDirectoryPrints] at ho
  split at ho
  · cases ho
    exact ⟨_, rfl, by decide⟩
  split at ho
  · obtain ⟨buf, _, ho⟩ := bind_eq_ok.1 ho
    cases ho
    exact ⟨_, rfl, by decide⟩
  split at ho
  · cases ho
    exact ⟨_, rfl, by decide⟩
  split at ho
  · cases ho
    exact ⟨_, rfl, by decide⟩
  obtain ⟨newId, _, ho⟩ := bind_eq_ok.1 ho
  obtain ⟨newIdHex, _, ho⟩ := bind_eq_ok.1 ho
  obtain ⟨parent, _, ho⟩ := bind_eq_ok.1 ho
  obtain ⟨count, _, ho⟩ := bind_eq_ok.1 ho
  obtain ⟨nextId, _, ho⟩ := bind_eq_ok.1 ho
  cases ho
  exact ⟨_, rfl, by decide⟩

theorem mkdir_prints (ho : fsMakeDirectoryPrints fs name = .ok out) :
    nameMessage message name <:+ (out ++ if r ≠ 0 then nameMessage message name else []) ↔
      r ≠ fsSuccess := by
  have hzero : fsSuccess = 0 := rfl
  rw [hzero]
  by_cases hr : r = 0
  · obtain ⟨s, hlast, hne⟩ := makeDirectoryPrints_last ho
    rw [if_neg (not_not.2 hr), List.append_nil]
    refine iff_of_false (not_suffix_of_last (a := .text "'\n") rfl hlast ?_) (not_not.2 hr)
    intro he
    exact hne (Print.text.inj he).symm
  · rw [if_pos hr]
    exact iff_of_true (List.suffix_append _ _) hr

theorem clearStep_none (hn : storageCopy fs op = none) : ClearStep fs op := by
  intro c hc
  cases hn.symm.trans hc

theorem onVolume_cd : OnVolume ("cd", changes cmdCd) := by
  intro heap fs input args out fs' v hr hc hx he
  cases args with
  | nil => exact line_prints hr hx (fun _ _ => by cases he; rfl) he
  | cons dir rest =>
    have hprints : Volume.Prints heap v ⟨.ofString "cd" :: dir :: rest, input⟩ fs out :=
      ⟨hr, fs', (hx fs).trans he⟩
    replace he := stops_eq_ok.1 he
    obtain ⟨lenBuf, _, he⟩ := bind_eq_ok.1 he
    obtain ⟨debug, _, he⟩ := bind_eq_ok.1 he
    obtain ⟨⟨result, fs₁⟩, hcall, he⟩ := bind_eq_ok.1 he
    obtain ⟨v', hcalls, hr'⟩ := hr.calls (.changeDirectory dir) (clearStep_none rfl) trivial hcall
    dsimp only at he
    split at he
    · next hne =>
      cases he
      refine ⟨v', .cd hcalls (iff_of_false ?_ hne) ⟨fs, hprints⟩, hr'⟩
      apply not_suffix_of_last (b := .text ": No such directory\n") rfl
      · rw [List.getLast?_append]
        rfl
      · decide
    · next heq =>
      cases he
      exact ⟨v', .cd hcalls (iff_of_true (List.suffix_append _ _) (not_not.1 heq)) ⟨fs, hprints⟩,
        hr'⟩

theorem Represents.file (hr : Represents fs v)
    (he : fsReadFile fs name capacity size = .ok (r, data)) (hpos : ¬r < 0) :
    ∃ text, v.lookup name = some (.file text) ∧ data = text.take size ∧ r = data.length := by
  have hread := hr.read he
  rw [Volume.read] at hread
  split at hread
  · next text hl =>
    cases hread
    exact ⟨text, hl, rfl, rfl⟩
  · cases hread
    exact absurd (by decide) hpos

theorem Represents.no_file (hr : Represents fs v)
    (he : fsReadFile fs name capacity size = .ok (r, data)) (hneg : r < 0) :
    ∀ text, v.lookup name ≠ some (.file text) := by
  intro text hl
  have hread := hr.read he
  rw [Volume.read, hl] at hread
  cases hread
  omega

theorem clearStep_empty : ClearStep fs (.writeFile name data 0) := by
  intro c hc i _ _ _ x hlo hhi
  have hlen : c.length = 0 := by
    have hw : writeTarget fs name 0 = some c := hc
    rw [writeTarget] at hw
    split at hw <;> split at hw <;> cases hw <;> rfl
  omega

/-- The empty write of `touch` is refused where `fs_touch_file` does nothing. -/
theorem calls_touched (hc : v.Calls (.writeFile name [] 0) written v')
    (hnot : ∀ text, v.lookup name ≠ some (.file text)) :
    ∃ r, v.Calls (.touchFile name) r v' ∧ v.touchMessage name r =
      if written = fsSuccess then messageLine "Created file '" name "'\n"
      else messageLine "touch: cannot create file '" name "'\n" := by
  rw [Volume.Calls, Volume.call, Volume.write] at hc
  simp only [Volume.Calls, Volume.call, Volume.touchMessage]
  cases hl : v.lookup name with
  | none =>
    rw [hl] at hc
    exact ⟨written, hc, rfl⟩
  | some x =>
    rw [hl] at hc
    cases x with
    | file text => exact absurd hl (hnot text)
    | directory =>
      cases hc
      exact ⟨fsSuccess, rfl, (if_neg (by decide)).symm⟩
    | device =>
      cases hc
      exact ⟨fsSuccess, rfl, (if_neg (by decide)).symm⟩

theorem onVolume_touch : OnVolume ("touch", changesBytes cmdTouch) := by
  intro heap fs input args out fs' v hr hc hx he
  cases args with
  | nil => exact line_prints hr hx (fun _ _ => by cases he; rfl) he
  | cons name rest =>
    obtain ⟨⟨bytes, fs₁⟩, hrun, he⟩ := bind_eq_ok.1 he
    cases he
    obtain ⟨r, data, hread, ⟨hpos, rfl, rfl⟩ | ⟨hneg, written, hwrite, rfl⟩⟩ :=
      cmdTouch_cases (stops_eq_ok.1 hrun)
    · obtain ⟨text, hl, _⟩ := hr.file hread hpos
      have hmsg : v.touchMessage name fsSuccess = messageLine "File '" name "' already exists\n" := by
        rw [Volume.touchMessage, hl]
      rw [← hmsg]
      refine ⟨v, .touch ?_, hr⟩
      rw [Volume.Calls, Volume.call, hl]
    · obtain ⟨v', hcall, hr'⟩ := hr.calls (.writeFile name [] 0) clearStep_empty trivial hwrite
      obtain ⟨r', htouch, hmsg⟩ := calls_touched hcall (hr.no_file hread hneg)
      rw [← hmsg]
      exact ⟨v', .touch htouch, hr'⟩

/-- A write of what was read copies to the same bytes as `fs_copy_file`. -/
theorem clearStep_copy (hc : ClearStep fs (.copyFile src dst))
    (he : fsReadFile fs src maxFileSize maxFileSize = .ok (r, data)) (hpos : ¬r < 0) :
    ClearStep fs (.writeFile dst data r.toNat) := by
  rcases fsReadFile_cases he with ⟨hneg, _⟩ | ⟨i, hf, ht, hr, _⟩
  · exact absurd hneg hpos
  intro c hmem
  apply hc c
  rw [storageCopy, hf]
  dsimp only
  rw [if_pos ht]
  have hsize : r.toNat = readSize (fs.files i) maxFileSize := by omega
  rw [← hsize]
  exact hmem

theorem onVolume_cp : OnVolume ("cp", changes cmdCp) := by
  intro heap fs input args out fs' v hr hc hx he
  match args with
  | [] | [_] => exact line_prints hr hx (fun _ _ => by cases he; rfl) he
  | src :: dst :: rest =>
    replace he := stops_eq_ok.1 he
    obtain ⟨⟨bytesRead, data⟩, hread, he⟩ := bind_eq_ok.1 he
    dsimp only at he
    split at he
    · next hneg =>
      cases he
      have hnot := hr.no_file hread hneg
      have hmsg : v.cpMessage src dst fsErrorInvalidPath =
          nameMessage "cp: cannot read source file '" src := by
        rw [Volume.cpMessage]
        split
        · next text hl => exact absurd hl (hnot text)
        · rfl
      rw [← hmsg]
      refine ⟨v, .cp ?_, hr⟩
      rw [Volume.Calls, Volume.call]
      split
      · next text hl => exact absurd hl (hnot text)
      · rfl
    next hpos =>
    obtain ⟨text, hl, rfl, hlen⟩ := hr.file hread hpos
    obtain ⟨⟨written, fs₁⟩, hwrite, he⟩ := bind_eq_ok.1 he
    have hclear := clearStep_copy (hc.copies _ _ _ _ rfl (.inl rfl)) hread hpos
    obtain ⟨v', hcall, hr'⟩ := hr.calls (.writeFile dst _ _) hclear trivial hwrite
    have hcopy : v.Calls (.copyFile src dst) written v' := by
      rw [Volume.Calls, Volume.call, hl]
      rw [Volume.Calls, Volume.call, hlen, Int.toNat_natCast, List.take_length, write_take] at hcall
      exact hcall
    dsimp only at he
    split at he
    · next hne =>
      cases he
      have hmsg : v.cpMessage src dst written =
          nameMessage "cp: cannot write to destination file '" dst := by
        rw [Volume.cpMessage, hl]
        exact if_neg hne
      exact ⟨v', hmsg ▸ .cp hcopy, hr'⟩
    · next heq =>
      cases he
      have hmsg : v.cpMessage src dst written =
          [.text "File '", .puts src.bytes, .text "' copied to '", .puts dst.bytes, .text "'\n"] := by
        rw [Volume.cpMessage, hl]
        exact if_pos (not_not.1 heq)
      exact ⟨v', hmsg ▸ .cp hcopy, hr'⟩

theorem Represents.file_length (hr : Represents fs v) (hl : v.lookup name = some (.file data)) :
    data.length ≤ maxFileSize := by
  rw [hr.lookup] at hl
  obtain ⟨i, hf, hnode⟩ := Option.map_eq_some_iff.1 hl
  have ht := node_file hnode
  rw [node_regular ht] at hnode
  cases hnode
  rw [Filesystem.content, ByteMemory.slice_length]
  exact hr.storage.size i (findFileInDir_some hf).1 ht

theorem onVolume_mv : OnVolume ("mv", changesBytes cmdMv) := by
  intro heap fs input args out fs' v hr hc hx he
  match args with
  | [] | [_] => exact line_prints hr hx (fun _ _ => by cases he; rfl) he
  | src :: dst :: rest =>
    obtain ⟨⟨bytes, fs₁⟩, hrun, he⟩ := bind_eq_ok.1 he
    cases he
    obtain ⟨r, data, hread, ⟨hneg, rfl, rfl⟩ | ⟨hpos, written, fs₂, hwrite, hrest⟩⟩ :=
      cmdMv_cases (stops_eq_ok.1 hrun)
    · have hnot := hr.no_file hread hneg
      refine ⟨v, .mv ?_, hr⟩
      rw [Volume.Moves]
      split
      · next text hl => exact absurd hl (hnot text)
      · exact ⟨rfl, rfl⟩
    obtain ⟨text, hl, rfl, hlen⟩ := hr.file hread hpos
    have hwhole : text.take maxFileSize = text := List.take_of_length_le (hr.file_length hl)
    rw [hwhole] at hread hwrite hlen
    have hclear := clearStep_copy (hc.copies _ _ _ _ rfl (.inr rfl)) hread hpos
    obtain ⟨v₁, hcalls, hr₁⟩ := hr.calls (.writeFile dst _ _) hclear trivial hwrite
    rw [hlen, Int.toNat_natCast] at hcalls
    rcases hrest with ⟨hno, rfl, rfl⟩ | ⟨rfl, deleted, hdel, hmsg⟩
    · refine ⟨v₁, .mv ?_, hr₁⟩
      rw [Volume.Moves, hl]
      refine ⟨written, v₁, hcalls, ?_⟩
      rw [if_neg hno]
      exact ⟨rfl, rfl⟩
    rcases fsReadFile_cases hread with ⟨hneg, _⟩ | ⟨i, hi, hreg, _⟩
    · exact absurd hneg hpos
    obtain ⟨hfound, hreg'⟩ := write_keeps_file hwrite hi hreg
    have hleaf : DeletesLeaf fs₂ (.deleteFile src) := by
      intro j hj
      cases hfound.symm.trans hj
      exact (treeInv_write hr.tree hwrite).state.leaf hreg'
    rw [fsDeleteFile, hfound] at hdel
    cases hdel
    refine ⟨v₁.remove src, .mv ?_, hr₁.remove hfound (hleaf i hfound)⟩
    rw [Volume.Moves, hl]
    refine ⟨fsSuccess, v₁, hcalls, ?_⟩
    rw [if_pos rfl]
    exact ⟨hmsg, rfl⟩

theorem onVolume_edit : OnVolume ("edit", cmdEditTyped) := by
  intro heap fs input args out fs' v hr hc hx he
  cases args with
  | nil => exact line_prints hr hx (fun _ _ => by cases he; rfl) he
  | cons name rest =>
    have hprints : Volume.Prints heap v ⟨.ofString "edit" :: name :: rest, input⟩ fs out :=
      ⟨hr, fs', (hx fs).trans he⟩
    have he : (if (editInput input.bytes.length input.bytes).any endsEdit then
        stops (cmdEdit fs (editInput input.bytes.length input.bytes)
          (.ofString "edit" :: name :: rest)) else .error .waits) = .ok (out, fs') := he
    split at he
    · obtain ⟨r, text, rs, hread, hrs⟩ := cmdEdit_saves (stops_eq_ok.1 he)
      obtain ⟨v', hsaves, hr'⟩ := hr.saves (hc.edits name rest r text rfl hread) hrs
      have htext : (v.read name (maxFileSize - 1)).2 = text := congrArg Prod.snd (hr.read hread)
      refine ⟨v', .edit ?_ ⟨fs, hprints⟩, hr'⟩
      rw [htext]
      exact hsaves
    · cases he

theorem onVolume_code : OnVolume ("code", cmdCode) := by
  intro heap fs input args out fs' v hr hc hx he
  cases args with
  | nil => exact line_prints hr hx (fun _ _ => by cases he; rfl) he
  | cons name rest =>
    have hprints : Volume.Prints heap v ⟨.ofString "code" :: name :: rest, input⟩ fs out :=
      ⟨hr, fs', (hx fs).trans he⟩
    obtain ⟨s₀, hstart, he⟩ := bind_eq_ok.1 he
    obtain ⟨s, hloops, he⟩ := bind_eq_ok.1 he
    replace hstart := stops_eq_ok.1 hstart
    replace hloops := stops_eq_ok.1 hloops
    obtain ⟨_, _, rs, hrs, _⟩ := replays_reach hstart (reach_exec hloops)
    split at he
    · cases he
    cases he
    have hops : saveOps name s.saves = writes name s.texts := by
      rw [writes, Session.texts, List.map_map]
      rfl
    have hclear := hc.codes name rest s₀ s rfl hstart hloops
    rw [hops] at hrs hclear
    obtain ⟨v', hsaves, hr'⟩ := hr.saves hclear hrs
    exact ⟨v', .code ⟨fs, s₀, s, hprints, hstart, hloops, rfl⟩ hsaves, hr'⟩

theorem onVolume_ls : OnVolume ("ls", reports cmdLs) := by
  intro heap fs input args out fs' v hr _ _ he
  obtain ⟨out', hout, he⟩ := bind_eq_ok.1 he
  cases he
  exact ⟨v, .ls (hr.listing (stops_eq_ok.1 hout)), hr⟩

theorem onVolume_mem : OnVolume ("mem", fun heap fs _ _ => .ok (cmdMem heap, fs)) := by
  intro heap fs input args out fs' v hr _ hx he
  exact line_prints hr hx (fun _ _ => by cases he; rfl) he

theorem Represents.pwd (hr : Represents fs v) :
    cmdPwd fs = .ok [.puts v.pathName.bytes, .text "\n"] := by
  obtain ⟨str, hcur, hcwd⟩ := hr.paths.arrays
  cases hcur.symm.trans hr.pathName
  rw [cmdPwd, hcwd]
  rfl

theorem reads_alike {f : Filesystem → List CStr → Except Fault (List Print)}
    (hf : ∀ fs fs₁ argv, (∀ name capacity size, size ≤ capacity →
      fsReadFile fs₁ name capacity size = fsReadFile fs name capacity size) → f fs₁ argv = f fs argv) :
    OnVolume (word, reports f) :=
  onVolume_reports fun fs fs₁ _ argv hr hr₁ => hf fs fs₁ argv fun _ _ _ hsize =>
    (hr₁.readFile hsize).trans (hr.readFile hsize).symm

theorem onVolume_cat : OnVolume ("cat", reports cmdCat) := by
  apply reads_alike
  intro fs fs₁ argv hread
  match argv with
  | [] | [_] => rfl
  | _ :: name :: _ => rw [cmdCat, cmdCat, hread name _ _ (Nat.sub_le _ _)]

theorem onVolume_find : OnVolume ("find", reports cmdFind) := by
  apply reads_alike
  intro fs fs₁ argv hread
  match argv with
  | [] | [_] => rfl
  | _ :: name :: _ => rw [cmdFind, cmdFind, hread name _ _ (by decide)]

theorem onVolume_grep : OnVolume ("grep", reports cmdGrep) := by
  apply reads_alike
  intro fs fs₁ argv hread
  match argv with
  | [] | [_] | [_, _] => rfl
  | _ :: _ :: name :: _ => rw [cmdGrep, cmdGrep, hread name _ _ (Nat.sub_le _ _)]

theorem onVolume_compile : OnVolume ("compile", reports cmdCompile) := by
  apply reads_alike
  intro fs fs₁ argv hread
  match argv with
  | [] | [_] => rfl
  | _ :: name :: _ => rw [cmdCompile, cmdCompile, hread name _ _ (by decide)]

theorem onVolume_run : OnVolume ("run", reports cmdRun) := by
  apply reads_alike
  intro fs fs₁ argv hread
  match argv with
  | [] | [_] => rfl
  | _ :: name :: _ => rw [cmdRun, cmdRun, runProgram, runProgram, hread name _ _ (Nat.le_refl _)]

theorem onVolume_syntax : OnVolume ("syntax", reports cmdSyntax) := by
  apply reads_alike
  intro fs fs₁ argv hread
  match argv with
  | [] | [_] => rfl
  | _ :: name :: _ => rw [cmdSyntax, cmdSyntax, hread name _ _ (Nat.sub_le _ _)]

theorem commands_onVolume : ∀ c ∈ commands, OnVolume c := by
  have hmkdir : OnVolume ("mkdir", changes cmdMkdir) :=
    onVolume_name .makeDirectory (fun _ _ => clearStep_none rfl) (fun _ _ _ _ => trivial)
      fun hcalls ho hout hprints => .mkdir hcalls (hout ▸ mkdir_prints ho) ⟨_, hprints⟩
  have hrmdir : OnVolume ("rmdir", changes cmdRmdir) :=
    onVolume_name .removeDirectory (fun _ _ => clearStep_none rfl) (fun _ _ _ _ => trivial)
      fun hcalls ho hout _ => (hout.trans (quiet_prints ho)).symm ▸ .rmdir hcalls
  have hrm : OnVolume ("rm", changes cmdRm) :=
    onVolume_name .deleteFile (fun _ _ => clearStep_none rfl) (fun _ _ _ hr => hr rfl)
      fun hcalls ho hout _ => (hout.trans (quiet_prints ho)).symm ▸ .rm hcalls
  have hpwd : OnVolume ("pwd", reports fun fs _ => cmdPwd fs) :=
    onVolume_reports fun _ _ _ _ hr hr₁ => hr₁.pwd.trans hr.pwd.symm
  simp only [commands, List.forall_mem_cons, List.not_mem_nil, false_imp_iff, implies_true, and_true]
  exact ⟨onVolume_prints, onVolume_prints, onVolume_mem, onVolume_prints, onVolume_prints,
    onVolume_prints, onVolume_prints, onVolume_ls, onVolume_cd, hpwd, hmkdir, hrmdir, hrm,
    onVolume_touch, onVolume_cat, onVolume_prints, onVolume_cp, onVolume_mv, onVolume_find,
    onVolume_grep, onVolume_edit, onVolume_code, onVolume_compile, onVolume_run, onVolume_syntax,
    onVolume_prints, onVolume_prints⟩

/-- A command line on tables that hold a volume. -/
theorem Represents.command {heap : Heap} (l : CommandLine) (hr : Represents fs v)
    (hc : ClearLine fs l) (he : executeCommand heap fs l.input l.argv = .ok (out, fs')) :
    ∃ v', v.Line heap l out v' ∧ Represents fs' v' := by
  obtain ⟨argv, input⟩ := l
  have hsame : ∀ out₁, (∀ fs₁, executeCommand heap fs₁ input argv = .ok (out₁, fs₁)) →
      ∃ v', v.Line heap ⟨argv, input⟩ out v' ∧ Represents fs' v' := by
    intro out₁ hall
    cases (hall fs).symm.trans he
    exact ⟨v, .prints fun fs₁ _ => hall fs₁, hr⟩
  cases argv with
  | nil => exact hsame [] fun _ => rfl
  | cons cmd args =>
    cases hv : isValidCommand cmd with
    | false =>
      by_cases hlikely : isLikelyAccidentalInput cmd
      · apply hsame []
        intro fs₁
        rw [executeCommand, hv, if_pos (by decide), if_pos hlikely]
      · apply hsame (unknownCommand cmd)
        intro fs₁
        rw [executeCommand, hv, if_pos (by decide), if_neg hlikely]
    | true =>
      cases hfind : commands.find? (fun c => cmd.isWord c.1) with
      | none =>
        apply hsame []
        intro fs₁
        rw [executeCommand, hv, if_neg (by decide), hfind]
      | some c =>
        obtain ⟨word, handler⟩ := c
        have hx : ∀ fs₁, executeCommand heap fs₁ input (cmd :: args) =
            handler heap fs₁ input (cmd :: args) := fun _ => executeCommand_of_find hv hfind
        have hword := List.find?_some hfind
        have hcmd : cmd = .ofString word := isWord_iff.1 hword
        subst hcmd
        exact commands_onVolume _ (List.mem_of_find?_eq_some hfind) hr hc hx ((hx fs).symm.trans he)

end

end ChipOS
