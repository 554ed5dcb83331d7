import ChipOS.Memory.HeapTheorems
import ChipOS.Shell.Calls

namespace ChipOS
open CharArray (Chars)
open Run
set_option autoImplicit true

/-- The text of the prompt in the directory `dir` with the path `path`. -/
def promptText (dir : Nat) (path : List UInt8) : List UInt8 :=
  (CStr.ofString "chip:").bytes ++ path ++ (CStr.ofString " [0x").bytes ++ itoaString 16 dir ++
    (CStr.ofString "]$ ").bytes

/-- If the line is an `rm`, the entry it names is the parent of none. -/
def RmStep (s : Shell) (t : Typing) : Prop :=
  ∀ argv s₁, readArguments s t.line = .ok (argv, s₁) → RmLeaf s.fs argv

section
variable {s s' : Shell}

theorem promptCat_eq (h : prompt.length + str.length < promptSize) :
    promptCat prompt str = .ok (prompt ++ str) := if_pos h

theorem promptText_length (hdir : dir < maxFiles) (hpath : path.length < maxPathLength) :
    (promptText dir path).length < promptSize := by
  have hmax : maxPathLength = 256 := rfl
  have hsize : promptSize = 288 := rfl
  have hfiles : maxFiles = 256 := rfl
  have hint : intMax = 2147483647 := rfl
  have hmin : intMin = -2147483648 := rfl
  have hdigits : (itoaString 16 (dir : Int)).length ≤ 10 :=
    itoaString_length (by decide) (by omega) (by omega)
  have hchip : (CStr.ofString "chip:").bytes.length = 5 := by decide
  have hopen : (CStr.ofString " [0x").bytes.length = 4 := by decide
  have hclose : (CStr.ofString "]$ ").bytes.length = 3 := by decide
  simp only [promptText, List.length_append]
  omega

theorem shellPrompt_eq {fs : Filesystem} (hcur : fs.currentDir < maxFiles) :
    shellPrompt fs = .ok (promptText fs.currentDir fs.currentPath.bytes) := by
  have hlen := promptText_length hcur fs.currentPath.fits
  have hfiles : maxFiles < 2 ^ 31 := by decide
  have hpath : fsGetCurrentPath fs maxPathLength = (fsSuccess, fs.currentPath.bytes) := by
    rw [fsGetCurrentPath, if_neg (by decide), if_neg (Nat.not_lt.2 fs.currentPath.fits)]
  have hdigits : stops (itoaText (asInt fs.currentDir) 16) =
      .ok (itoaString 16 (fs.currentDir : Int)) := by
    rw [hexText_eq (by omega)]
    rfl
  simp only [promptText, List.length_append] at hlen
  rw [shellPrompt, hpath]
  dsimp only
  rw [if_pos rfl, hdigits, ok_bind, promptCat_eq (by rw [List.length_nil]; omega), ok_bind,
    List.nil_append, promptCat_eq (by omega), ok_bind,
    promptCat_eq (by rw [List.length_append]; omega), ok_bind,
    promptCat_eq (by rw [List.length_append, List.length_append]; omega), ok_bind,
    promptCat_eq (by rw [List.length_append, List.length_append, List.length_append]; omega)]
  rfl

theorem readArguments_frame (he : readArguments s line = .ok (argv, s')) :
    s'.heap = s.heap ∧ s'.fs = s.fs := by
  obtain ⟨⟨history, edit⟩, _, he⟩ := bind_eq_ok.1 he
  obtain ⟨len, _, he⟩ := bind_eq_ok.1 he
  split at he
  · cases he
    exact ⟨rfl, rfl⟩
  · obtain ⟨⟨args, inputBuffer⟩, _, he⟩ := bind_eq_ok.1 he
    obtain ⟨argv', _, he⟩ := bind_eq_ok.1 he
    cases he
    exact ⟨rfl, rfl⟩

theorem shellCall_cases (he : shellCall s t = .ok (out, s')) :
    ∃ prompt argv s₁ out', shellPrompt s.fs = .ok prompt ∧
      readArguments s t.line = .ok (argv, s₁) ∧ out = .puts prompt :: out' ∧
      executeCommand s.heap s.fs t.command argv = .ok (out', s'.fs) ∧ s' = { s₁ with fs := s'.fs } := by
  obtain ⟨prompt, hprompt, he⟩ := bind_eq_ok.1 he
  obtain ⟨⟨argv, s₁⟩, hread, he⟩ := bind_eq_ok.1 he
  obtain ⟨hheap, hfs⟩ := readArguments_frame hread
  dsimp only at he
  split at he
  · obtain ⟨⟨out', fs'⟩, hexec, he⟩ := bind_eq_ok.1 he
    cases he
    rw [hheap, hfs] at hexec
    exact ⟨prompt, argv, s₁, out', hprompt, hread, rfl, hexec, rfl⟩
  · next hnone =>
    cases he
    have hnil : argv = [] := List.eq_nil_of_length_eq_zero (Nat.eq_zero_of_not_pos hnone)
    subst hnil
    refine ⟨prompt, [], s', [], hprompt, hread, rfl, ?_, rfl⟩
    rw [hfs]
    rfl

theorem shellStep_eq_ok (he : shellStep s t = .ok s') : ∃ out, shellCall s t = .ok (out, s') := by
  rw [shellStep] at he
  cases hcall : shellCall s t with
  | error e =>
    rw [hcall] at he
    cases he
  | ok p =>
    rw [hcall] at he
    cases he
    exact ⟨p.1, rfl⟩

theorem shellCall_performs (he : shellCall s t = .ok (out, s')) :
    s'.heap = s.heap ∧ ∃ argv s₁, readArguments s t.line = .ok (argv, s₁) ∧
      Performs argv s.fs s'.fs := by
  obtain ⟨prompt, argv, s₁, out', _, hread, _, hexec, hs'⟩ := shellCall_cases he
  refine ⟨?_, argv, s₁, hread, executeCommand_performs hexec⟩
  rw [hs']
  exact (readArguments_frame hread).1

theorem shell_reach (hs : Reach shellStep (bootShell t heap stack) s) :
    s.heap = heap ∧ Reach fsStep (fsInit t) s.fs := by
  refine hs.invariant (P := fun s => s.heap = heap ∧ Reach fsStep (fsInit t) s.fs) ⟨rfl, .refl⟩ ?_
  rintro s typing s' ⟨hheap, hreach⟩ he
  obtain ⟨out, hcall⟩ := shellStep_eq_ok he
  obtain ⟨hsame, argv, s₁, _, ops, hexec, _⟩ := shellCall_performs hcall
  exact ⟨hsame.trans hheap, hreach.exec hexec⟩

theorem PathInv.shellStep (hi : PathInv s.fs s.fs.currentPath.toCStr) (hr : RmStep s t)
    (he : shellStep s t = .ok s') : PathInv s'.fs s'.fs.currentPath.toCStr := by
  obtain ⟨out, hcall⟩ := shellStep_eq_ok he
  obtain ⟨_, argv, s₁, hread, ops, hexec, _, hdel⟩ := shellCall_performs hcall
  have hdel := hdel hi.tree (hr argv s₁ hread)
  exact hdel.invariant (P := fun fs => PathInv fs fs.currentPath.toCStr) hi
    (fun _ _ _ hi hd he => hi.leafStep hd he) hexec

theorem PathInv.shows {fs : Filesystem} (hi : PathInv fs fs.currentPath.toCStr) :
    ∃ names, fs.IsPath names fs.currentDir ∧
      cmdPwd fs = .ok [.puts (exactPath (lastNames names)).bytes, .text "\n"] ∧
      shellPrompt fs = .ok (promptText fs.currentDir (exactPath (lastNames names)).bytes) := by
  obtain ⟨names, hp⟩ := hi.tree.tree.exists_path hi.tree.current_live
  have hpath : fs.currentPath.toCStr = exactPath (lastNames names) :=
    hi.current.trans (pathString_lastNames (isPath_chain hi.table.root hp))
  obtain ⟨str, hcur, hcwd⟩ := hi.arrays
  have hstr : str = (exactPath (lastNames names)).bytes := by
    rw [fsGetCurrentPath, if_neg (by decide), if_neg (Nat.not_lt.2 fs.currentPath.fits)] at hcur
    rw [← hpath]
    exact (congrArg Prod.snd hcur).symm
  refine ⟨names, hp, ?_, ?_⟩
  · rw [cmdPwd, hcwd, ok_bind, hstr]
    rfl
  · rw [shellPrompt_eq hi.table.current, ← hpath]

end

/-- Whatever is typed, a command line changes the file system only by the calls that its words
name, on the files that they name, and nothing changes the heap. -/
theorem shell_calls (t : Nat) (heap : Heap) (stack : Chars)
    (hs : Reach shellStep (bootShell t heap stack) s) :
    s.heap = heap ∧ Reach fsStep (fsInit t) s.fs ∧
      ∀ typing out s', shellCall s typing = .ok (out, s') →
        ∃ argv s₁ ops, readArguments s typing.line = .ok (argv, s₁) ∧
          exec fsStep s.fs ops = .ok s'.fs ∧ ∀ op ∈ ops, CommandOps argv op := by
  obtain ⟨hheap, hreach⟩ := shell_reach hs
  refine ⟨hheap, hreach, fun typing out s' he => ?_⟩
  obtain ⟨_, argv, s₁, hread, ops, hexec, hops, _⟩ := shellCall_performs he
  exact ⟨argv, s₁, ops, hread, hexec, hops⟩

/-- The line `cd a`, after the line `mkdir a`. -/
theorem shell_calls_made : ∃ s out s' argv s₁ ops,
    exec shellStep (bootShell 0 zeroHeap fun _ => 0)
      [⟨(CStr.ofString "mkdir a\n").bytes, ⟨[], fun _ => 0, 0⟩⟩] = .ok s ∧
    shellCall s ⟨(CStr.ofString "cd a\n").bytes, ⟨[], fun _ => 0, 0⟩⟩ = .ok (out, s') ∧
    readArguments s (CStr.ofString "cd a\n").bytes = .ok (argv, s₁) ∧
    exec fsStep s.fs ops = .ok s'.fs ∧ ∀ op ∈ ops, CommandOps argv op := by
  obtain ⟨mkdir, hmkdir⟩ : ∃ typing : Typing,
    typing = ⟨(CStr.ofString "mkdir a\n").bytes, ⟨[], fun _ => 0, 0⟩⟩ := ⟨_, rfl⟩
  obtain ⟨cd, hcd⟩ : ∃ typing : Typing,
    typing = ⟨(CStr.ofString "cd a\n").bytes, ⟨[], fun _ => 0, 0⟩⟩ := ⟨_, rfl⟩
  have hok : (exec shellStep (bootShell 0 zeroHeap fun _ => 0) [mkdir, cd]).toOption.isSome = true := by
    rw [hmkdir, hcd]
    decide +kernel
  rw [← hmkdir, ← hcd]
  cases he : exec shellStep (bootShell 0 zeroHeap fun _ => 0) [mkdir, cd] with
  | error e =>
    rw [he] at hok
    cases hok
  | ok s₂ =>
    obtain ⟨s, hs, he⟩ := bind_eq_ok.1 he
    obtain ⟨s', hs', _⟩ := bind_eq_ok.1 he
    obtain ⟨out, hcall⟩ := shellStep_eq_ok hs'
    have hrun : exec shellStep (bootShell 0 zeroHeap fun _ => 0) [mkdir] = .ok s := by
      rw [exec, hs, ok_bind, exec]
    obtain ⟨_, _, hcalls⟩ := shell_calls 0 zeroHeap (fun _ => 0) (Reach.refl.exec hrun)
    obtain ⟨argv, s₁, ops, hread, hexec, hops⟩ := hcalls cd out s' hcall
    have hline : cd.line = (CStr.ofString "cd a\n").bytes := by
      rw [hcd]
    exact ⟨s, out, s', argv, s₁, ops, hrun, hcall, hline ▸ hread, hexec, hops⟩

/-- The prompt always fits its array. As long as `rm` is not used on a directory with entries it
shows the names on the way to the current directory, the last 32 of them, as `pwd` does, and
the index of the directory. -/
theorem prompt_names_place (t : Nat) (heap : Heap) (stack : Chars) (ts : List Typing)
    (he : exec shellStep (bootShell t heap stack) ts = .ok s) :
    (∃ prompt, shellPrompt s.fs = .ok prompt ∧ prompt.length < promptSize) ∧
      (Each shellStep RmStep (bootShell t heap stack) ts →
        ∃ names, s.fs.IsPath names s.fs.currentDir ∧
          cmdPwd s.fs = .ok [.puts (exactPath (lastNames names)).bytes, .text "\n"] ∧
          shellPrompt s.fs =
            .ok (promptText s.fs.currentDir (exactPath (lastNames names)).bytes)) := by
  constructor
  · have htable := inTable_reach (shell_reach (Reach.refl.exec he)).2
    exact ⟨_, shellPrompt_eq htable.current, promptText_length htable.current s.fs.currentPath.fits⟩
  · intro hrm
    have hinv : PathInv s.fs s.fs.currentPath.toCStr :=
      hrm.invariant (P := fun s => PathInv s.fs s.fs.currentPath.toCStr) (pathInv_fsInit t)
        (fun _ _ _ hi hr he => hi.shellStep hr he) he
    exact hinv.shows

/-- The line `cd home`. -/
theorem prompt_names_place_home : ∃ s names,
    exec shellStep (bootShell 0 zeroHeap fun _ => 0)
      [⟨(CStr.ofString "cd home\n").bytes, ⟨[], fun _ => 0, 0⟩⟩] = .ok s ∧
    s.fs.IsPath names s.fs.currentDir ∧
    shellPrompt s.fs = .ok (promptText s.fs.currentDir (exactPath (lastNames names)).bytes) := by
  obtain ⟨typing, htyping⟩ : ∃ typing : Typing,
    typing = ⟨(CStr.ofString "cd home\n").bytes, ⟨[], fun _ => 0, 0⟩⟩ := ⟨_, rfl⟩
  have hhead : ((readArguments (bootShell 0 zeroHeap fun _ => 0) typing.line).toOption.bind
      fun p => p.1.head?) = some (.ofString "cd") := by
    rw [htyping]
    decide +kernel
  have hrm : RmStep (bootShell 0 zeroHeap fun _ => 0) typing := by
    intro argv s₁ hread
    rw [hread] at hhead
    cases argv with
    | nil => cases hhead
    | cons cmd args =>
      cases args with
      | nil => trivial
      | cons name rest =>
        intro hrm
        have hcd : cmd = .ofString "cd" := Option.some.inj hhead
        exact absurd (hrm.symm.trans hcd) (by decide)
  have hok : (exec shellStep (bootShell 0 zeroHeap fun _ => 0) [typing]).toOption.isSome = true := by
    rw [htyping]
    decide +kernel
  rw [← htyping]
  cases he : exec shellStep (bootShell 0 zeroHeap fun _ => 0) [typing] with
  | error e =>
    rw [he] at hok
    cases hok
  | ok s =>
    obtain ⟨_, hplace⟩ := prompt_names_place 0 zeroHeap (fun _ => 0) _ he
    obtain ⟨names, hp, _, hprompt⟩ := hplace ⟨hrm, fun _ _ => trivial⟩
    exact ⟨s, names, rfl, hp, hprompt⟩

end ChipOS
