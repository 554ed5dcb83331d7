import ChipOS.Editor.Replay
import ChipOS.Fs.ExactPath
import ChipOS.Shell.Execute
import ChipOS.Shell.Rename

namespace ChipOS
open Run
set_option autoImplicit true

/-- The calls that the words of a command line allow. -/
def CommandOps : List CStr → FsOp → Prop
  | cmd :: arg :: rest, op =>
    match op with
    | .changeDirectory path => cmd = .ofString "cd" ∧ path = arg
    | .makeDirectory name => cmd = .ofString "mkdir" ∧ name = arg
    | .removeDirectory name => cmd = .ofString "rmdir" ∧ name = arg
    | .deleteFile name => (cmd = .ofString "rm" ∨ cmd = .ofString "mv") ∧ name = arg
    | .writeFile name _ _ =>
      (cmd = .ofString "touch" ∨ cmd = .ofString "edit" ∨ cmd = .ofString "code") ∧ name = arg ∨
        (cmd = .ofString "cp" ∨ cmd = .ofString "mv") ∧ rest.head? = some name
    | _ => False
  | _, _ => False

/-- `rm` is not called on an entry that is the parent of others. -/
def RmLeaf (fs : Filesystem) : List CStr → Prop
  | cmd :: name :: _ => cmd = .ofString "rm" → DeletesLeaf fs (.deleteFile name)
  | _ => True

/-- `fs'` comes from `fs` by calls that the words allow, and no directory with entries is deleted
unless it is by `rm`. -/
def Performs (argv : List CStr) (fs fs' : Filesystem) : Prop :=
  ∃ ops, exec fsStep fs ops = .ok fs' ∧ (∀ op ∈ ops, CommandOps argv op) ∧
    (TreeInv fs → RmLeaf fs argv → Each fsStep DeletesLeaf fs ops)

/-- Under its name in the table a command makes only calls that its words allow. -/
def Allowed (c : String × Handler) : Prop :=
  ∀ {heap fs input args out fs'}, c.2 heap fs input (.ofString c.1 :: args) = .ok (out, fs') →
    Performs (.ofString c.1 :: args) fs fs'

section
variable {fs fs' : Filesystem} {argv : List CStr}

theorem stops_eq_ok {r : Except Fault α} : stops r = .ok a ↔ r = .ok a := by
  cases r with
  | error e => exact iff_of_false nofun nofun
  | ok b => exact Iff.rfl.trans ⟨fun h => by cases h; rfl, fun h => by cases h; rfl⟩

theorem isWord_iff {s : CStr} : s.isWord word = true ↔ s = .ofString word := by
  rw [CStr.isWord, decide_eq_true_eq]
  exact strcmp_eq_zero

theorem Performs.none : Performs argv fs fs := ⟨[], rfl, nofun, fun _ _ => trivial⟩

theorem fsStep_of_call (op : FsOp) (he : fsCall fs op = .ok (r, fs')) : fsStep fs op = .ok fs' := by
  rw [fsStep, he]
  rfl

theorem Performs.call (op : FsOp) (he : fsCall fs op = .ok (r, fs')) (ho : CommandOps argv op)
    (hd : TreeInv fs → RmLeaf fs argv → DeletesLeaf fs op) : Performs argv fs fs' := by
  refine ⟨[op], ?_, List.forall_mem_singleton.2 ho, fun ht hr => ⟨hd ht hr, fun _ _ => trivial⟩⟩
  rw [exec, fsStep_of_call op he]
  rfl

theorem each_deletes (hw : ∀ op ∈ ops, ∀ fs, DeletesLeaf fs op) : Each fsStep DeletesLeaf fs ops := by
  induction ops generalizing fs with
  | nil => trivial
  | cons op ops ih =>
    obtain ⟨hop, hops⟩ := List.forall_mem_cons.1 hw
    exact ⟨hop fs, fun _ _ => ih hops⟩

def WritesTo (name : CStr) (fs fs' : Filesystem) : Prop :=
  ∃ ops, exec fsStep fs ops = .ok fs' ∧ ∀ op ∈ ops, ∃ data size, op = .writeFile name data size

theorem WritesTo.none : WritesTo name fs fs := ⟨[], rfl, nofun⟩

theorem WritesTo.cons {fs'' : Filesystem} (he : fsWriteFile fs name data size = .ok (r, fs'))
    (hw : WritesTo name fs' fs'') : WritesTo name fs fs'' := by
  obtain ⟨ops, hexec, hops⟩ := hw
  refine ⟨.writeFile name data size :: ops, ?_, List.forall_mem_cons.2 ⟨⟨data, size, rfl⟩, hops⟩⟩
  rw [exec, fsStep_of_call (.writeFile name data size) he]
  exact hexec

theorem WritesTo.performs (hw : WritesTo name fs fs')
    (ho : ∀ data size, CommandOps argv (.writeFile name data size)) : Performs argv fs fs' := by
  obtain ⟨ops, hexec, hops⟩ := hw
  refine ⟨ops, hexec, fun op hop => ?_, fun _ _ => each_deletes fun op hop fs => ?_⟩
  · obtain ⟨data, size, rfl⟩ := hops op hop
    exact ho data size
  · obtain ⟨data, size, rfl⟩ := hops op hop
    trivial

theorem editLine_writes {s s' : Edit} (he : editLine name ext s line = .ok (out, s', next)) :
    WritesTo name s.fs s'.fs := by
  rw [editLine] at he
  split at he
  · cases he
    exact .none
  split at he
  · obtain ⟨⟨r, fs₁⟩, hwrite, he⟩ := bind_eq_ok.1 he
    cases he
    exact .cons hwrite .none
  split at he
  · cases he
    exact .none
  split at he
  · cases he
    exact .none
  split at he <;> cases he <;> exact .none

theorem WritesTo.trans {fs'' : Filesystem} (hw : WritesTo name fs fs')
    (hw' : WritesTo name fs' fs'') : WritesTo name fs fs'' := by
  obtain ⟨ops, hexec, hops⟩ := hw
  obtain ⟨ops', hexec', hops'⟩ := hw'
  refine ⟨ops ++ ops', ?_, List.forall_mem_append.2 ⟨hops, hops'⟩⟩
  rw [exec_append, hexec]
  exact hexec'

theorem saveEdited_writes {s : Edit} (he : saveEdited name s = .ok (out, fs')) :
    WritesTo name s.fs fs' := by
  obtain ⟨⟨r, fs₁⟩, hwrite, he⟩ := bind_eq_ok.1 he
  dsimp only at he
  split at he <;> cases he <;> exact .cons hwrite .none

theorem editLoop_writes {s : Edit} (he : editLoop name ext s lines = .ok (out, fs')) :
    WritesTo name s.fs fs' := by
  induction lines generalizing s out with
  | nil =>
    cases he
    exact .none
  | cons line lines ih =>
    rw [editLoop] at he
    obtain ⟨⟨out₁, s₁, next⟩, hline, he⟩ := bind_eq_ok.1 he
    have hfirst := editLine_writes hline
    cases next with
    | again =>
      obtain ⟨⟨out₂, fs₂⟩, hrest, he⟩ := bind_eq_ok.1 he
      cases he
      exact hfirst.trans (ih hrest)
    | leave shouldSave =>
      cases shouldSave with
      | false =>
        cases he
        exact hfirst
      | true =>
        obtain ⟨⟨out₂, fs₂⟩, hsave, he⟩ := bind_eq_ok.1 he
        cases he
        exact hfirst.trans (saveEdited_writes hsave)

theorem cmdEdit_writes (he : cmdEdit fs lines (cmd :: name :: rest) = .ok (out, fs')) :
    WritesTo name fs fs' := by
  obtain ⟨⟨existingSize, buffer⟩, _, he⟩ := bind_eq_ok.1 he
  dsimp only at he
  split at he
  · obtain ⟨⟨out₁, fs₁⟩, hloop, he⟩ := bind_eq_ok.1 he
    cases he
    exact editLoop_writes hloop
  · obtain ⟨⟨out₁, fs₁⟩, hloop, he⟩ := bind_eq_ok.1 he
    cases he
    exact editLoop_writes hloop

theorem Replays.writes {name : CStr} {saves : List (Int × EditorState)}
    (hr : Replays fs name saves fs') : WritesTo name fs fs' := by
  obtain ⟨rs, he, _⟩ := hr
  refine ⟨_, answers_exec he, fun op hop => ?_⟩
  obtain ⟨p, _, rfl⟩ := List.mem_map.1 hop
  exact ⟨_, _, rfl⟩

theorem reach_exec {s₀ s : Session} {n : Nat}
    (he : exec editorStep s₀ (List.replicate n ()) = .ok s) : Reach editorStep s₀ s :=
  Reach.refl.exec he

theorem cmdCode_writes (heap : Heap) (he : cmdCode heap fs input (cmd :: name :: rest) = .ok (out, fs')) :
    WritesTo name fs fs' := by
  obtain ⟨s₀, hstart, he⟩ := bind_eq_ok.1 he
  obtain ⟨s, hloops, he⟩ := bind_eq_ok.1 he
  obtain ⟨_, _, hr⟩ := replays_reach (stops_eq_ok.1 hstart) (reach_exec (stops_eq_ok.1 hloops))
  split at he
  · cases he
  · cases he
    exact hr.writes

theorem allowed_prints {f : List CStr → Except Fault (List Print)} : Allowed (word, prints f) := by
  intro heap fs input args out fs' he
  obtain ⟨out', _, he⟩ := bind_eq_ok.1 he
  cases he
  exact .none

theorem allowed_reports {f : Filesystem → List CStr → Except Fault (List Print)} :
    Allowed (word, reports f) := by
  intro heap fs input args out fs' he
  obtain ⟨out', _, he⟩ := bind_eq_ok.1 he
  cases he
  exact .none

theorem allowed_name (op : CStr → FsOp) (ho : ∀ name rest, CommandOps (.ofString word :: name :: rest) (op name))
    (hd : ∀ fs name rest, RmLeaf fs (.ofString word :: name :: rest) → DeletesLeaf fs (op name)) :
    Allowed (word, changes (nameCommand usage message debug op)) := by
  intro heap fs input args out fs' he
  have he := stops_eq_ok.1 he
  cases args with
  | nil =>
    cases he
    exact .none
  | cons name rest =>
    obtain ⟨out₁, _, he⟩ := bind_eq_ok.1 he
    obtain ⟨⟨result, fs₁⟩, hcall, he⟩ := bind_eq_ok.1 he
    cases he
    exact .call (op name) hcall (ho name rest) fun _ hr => hd fs name rest hr

theorem allowed_cd : Allowed ("cd", changes cmdCd) := by
  intro heap fs input args out fs' he
  have he := stops_eq_ok.1 he
  cases args with
  | nil =>
    cases he
    exact .none
  | cons dir rest =>
    obtain ⟨lenBuf, _, he⟩ := bind_eq_ok.1 he
    obtain ⟨out₁, _, he⟩ := bind_eq_ok.1 he
    obtain ⟨⟨result, fs₁⟩, hcall, he⟩ := bind_eq_ok.1 he
    have hperf : Performs (.ofString "cd" :: dir :: rest) fs fs₁ :=
      .call (.changeDirectory dir) hcall ⟨rfl, rfl⟩ fun _ _ => trivial
    dsimp only at he
    split at he <;> cases he <;> exact hperf

theorem allowed_touch : Allowed ("touch", changesBytes cmdTouch) := by
  intro heap fs input args out fs' he
  obtain ⟨⟨bytes, fs₁⟩, hrun, he⟩ := bind_eq_ok.1 he
  cases he
  have hrun := stops_eq_ok.1 hrun
  cases args with
  | nil =>
    cases hrun
    exact .none
  | cons name rest =>
    obtain ⟨r, data, _, ⟨_, _, rfl⟩ | ⟨_, written, hwrite, _⟩⟩ := cmdTouch_cases hrun
    · exact .none
    · exact .call (.writeFile name [] 0) hwrite (.inl ⟨.inl rfl, rfl⟩) fun _ _ => trivial

theorem allowed_cp : Allowed ("cp", changes cmdCp) := by
  intro heap fs input args out fs' he
  have he := stops_eq_ok.1 he
  match args with
  | [] | [_] =>
    cases he
    exact .none
  | src :: dst :: rest =>
    obtain ⟨⟨bytesRead, data⟩, _, he⟩ := bind_eq_ok.1 he
    dsimp only at he
    split at he
    · cases he
      exact .none
    obtain ⟨⟨written, fs₁⟩, hwrite, he⟩ := bind_eq_ok.1 he
    have hperf : Performs (.ofString "cp" :: src :: dst :: rest) fs fs₁ :=
      .call (.writeFile dst data bytesRead.toNat) hwrite (.inr ⟨.inl rfl, rfl⟩)
        fun _ _ => trivial
    dsimp only at he
    split at he <;> cases he <;> exact hperf

theorem write_keeps_file (he : fsWriteFile fs dst data size = .ok (r, fs'))
    (hf : findFileInDir fs fs.currentDir src = some i) (ht : (fs.files i).type = .regular) :
    findFileInDir fs' fs'.currentDir src = some i ∧ (fs'.files i).type = .regular := by
  rcases fsWriteFile_cases he with ⟨_, rfl⟩ | ⟨_, k, fs₁, ho, hk, _, _, rfl⟩
  · exact ⟨hf, ht⟩
  · rw [findFileInDir_storeData, storeData_type]
    refine ⟨ho.find_old hf, ?_⟩
    by_cases hne : i = k
    · exact hne ▸ hk
    · have hlive := (findFileInDir_some (ho.find_old hf)).1
      rw [(ho.old_entry hlive hne).2]
      exact ht

theorem allowed_mv : Allowed ("mv", changesBytes cmdMv) := by
  intro heap fs input args out fs' he
  obtain ⟨⟨bytes, fs₁⟩, hrun, he⟩ := bind_eq_ok.1 he
  cases he
  have hrun := stops_eq_ok.1 hrun
  match args with
  | [] | [_] =>
    cases hrun
    exact .none
  | src :: dst :: rest =>
    obtain ⟨r, data, hread, ⟨_, _, rfl⟩ | ⟨hpos, written, fs₂, hwrite, hrest⟩⟩ := cmdMv_cases hrun
    · exact .none
    have hop : CommandOps (.ofString "mv" :: src :: dst :: rest) (.writeFile dst data r.toNat) :=
      .inr ⟨.inr rfl, rfl⟩
    rcases hrest with ⟨_, _, rfl⟩ | ⟨_, deleted, hdel, _⟩
    · exact .call (.writeFile dst data r.toNat) hwrite hop fun _ _ => trivial
    refine ⟨[.writeFile dst data r.toNat, .deleteFile src], ?_,
      List.forall_mem_cons.2 ⟨hop, List.forall_mem_singleton.2 ⟨.inr rfl, rfl⟩⟩, ?_⟩
    · have hcall : fsCall fs₂ (.deleteFile src) = .ok (deleted, fs') := congrArg Except.ok hdel
      rw [exec, fsStep_of_call (.writeFile dst data r.toNat) hwrite, ok_bind, exec,
        fsStep_of_call (.deleteFile src) hcall]
      rfl
    · intro ht _
      refine ⟨trivial, fun fs₃ hstep => ⟨fun i hi => ?_, fun _ _ => trivial⟩⟩
      cases hstep.symm.trans (fsStep_of_call (.writeFile dst data r.toNat) hwrite)
      rcases fsReadFile_cases hread with ⟨hneg, _⟩ | ⟨j, hj, hreg, _⟩
      · exact absurd hneg hpos
      obtain ⟨hfound, hreg'⟩ := write_keeps_file hwrite hj hreg
      cases hfound.symm.trans hi
      exact (treeInv_write ht hwrite).state.leaf hreg'

theorem allowed_edit : Allowed ("edit", cmdEditTyped) := by
  intro heap fs input args out fs' he
  cases args with
  | nil =>
    cases he
    exact .none
  | cons name rest =>
    have he : (if (editInput input.bytes.length input.bytes).any endsEdit then
        stops (cmdEdit fs (editInput input.bytes.length input.bytes)
          (.ofString "edit" :: name :: rest)) else .error .waits) = .ok (out, fs') := he
    split at he
    · exact (cmdEdit_writes (stops_eq_ok.1 he)).performs fun _ _ => .inl ⟨.inr (.inl rfl), rfl⟩
    · cases he

theorem allowed_code : Allowed ("code", cmdCode) := by
  intro heap fs input args out fs' he
  cases args with
  | nil =>
    cases he
    exact .none
  | cons name rest =>
    have hw : WritesTo name fs fs' := cmdCode_writes heap he
    exact hw.performs fun _ _ => .inl ⟨.inr (.inr rfl), rfl⟩

theorem commands_allowed : ∀ c ∈ commands, Allowed c := by
  have hmkdir : Allowed ("mkdir", changes cmdMkdir) :=
    allowed_name .makeDirectory (fun _ _ => ⟨rfl, rfl⟩) fun _ _ _ _ => trivial
  have hrmdir : Allowed ("rmdir", changes cmdRmdir) :=
    allowed_name .removeDirectory (fun _ _ => ⟨rfl, rfl⟩) fun _ _ _ _ => trivial
  have hrm : Allowed ("rm", changes cmdRm) :=
    allowed_name .deleteFile (fun _ _ => ⟨.inl rfl, rfl⟩) fun _ _ _ hr => hr rfl
  have hmem : Allowed ("mem", fun heap fs _ _ => .ok (cmdMem heap, fs)) := by
    intro heap fs input args out fs' he
    cases he
    exact .none
  simp only [commands, List.forall_mem_cons, List.not_mem_nil, false_imp_iff, implies_true, and_true]
  exact ⟨allowed_prints, allowed_prints, hmem, allowed_prints, allowed_prints, allowed_prints,
    allowed_prints, allowed_reports, allowed_cd, allowed_reports, hmkdir, hrmdir, hrm, allowed_touch,
    allowed_reports, allowed_prints, allowed_cp, allowed_mv, allowed_reports, allowed_reports,
    allowed_edit, allowed_code, allowed_reports, allowed_reports, allowed_reports, allowed_prints,
    allowed_prints⟩

theorem found_performs {table : List (String × Handler)} {c : String × Handler}
    (ht : ∀ c ∈ table, Allowed c) (hf : table.find? (fun c => cmd.isWord c.1) = some c)
    (he : c.2 heap fs input (cmd :: args) = .ok (out, fs')) : Performs (cmd :: args) fs fs' := by
  have hword := List.find?_some hf
  have hcmd := isWord_iff.1 hword
  subst hcmd
  exact ht c (List.mem_of_find?_eq_some hf) he

theorem executeCommand_performs (he : executeCommand heap fs input argv = .ok (out, fs')) :
    Performs argv fs fs' := by
  cases argv with
  | nil =>
    cases he
    exact .none
  | cons cmd args =>
    rw [executeCommand] at he
    split at he
    · split at he <;> cases he <;> exact .none
    split at he
    · next word handler hfind => exact found_performs commands_allowed hfind he
    · cases he
      exact .none

theorem executeCommand_of_find (hv : isValidCommand cmd = true)
    (hf : commands.find? (fun c => cmd.isWord c.1) = some (word, handler)) :
    executeCommand heap fs input (cmd :: args) = handler heap fs input (cmd :: args) := by
  rw [executeCommand, hv, if_neg (by decide), hf]

end

end ChipOS
