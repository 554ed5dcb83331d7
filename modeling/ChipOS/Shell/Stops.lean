import ChipOS.Editor.Stops
import ChipOS.Shell.LineStops

namespace ChipOS
open CharArray (Chars)
open Run
set_option autoImplicit true

/-- The buffer of `edit` after a line that does not end it. -/
def addLine (buffer line : List UInt8) : List UInt8 :=
  if strcmp line (CStr.ofString ":w").bytes = 0 then buffer
  else if buffer.length + line.length + 1 < maxFileSize then buffer ++ line ++ ['\n'.toUInt8]
  else buffer

/-- `edit` saves at the line. -/
def savesEdit (line : List UInt8) : Bool :=
  strcmp line (CStr.ofString ":w").bytes = 0 ||
    endsEdit line && strcmp line (CStr.ofString ":q").bytes ≠ 0

/-- The command comes to a write of so many bytes to the file. -/
inductive WritesBytes (fs : Filesystem) (input : CommandInput) : List CStr → CStr → Nat → Prop
  | touch : WritesBytes fs input (.ofString "touch" :: name :: args) name 0
  | copy : cmd = .ofString "cp" ∨ cmd = .ofString "mv" →
      findFileInDir fs fs.currentDir src = some i → (fs.files i).type = .regular →
      WritesBytes fs input (cmd :: src :: dst :: args) dst (readSize (fs.files i) maxFileSize)
  | edit : fsReadFile fs name maxFileSize (maxFileSize - 1) = .ok (r, old) →
      editInput input.bytes.length input.bytes = before ++ line :: after →
      (∀ l ∈ before, endsEdit l = false) → savesEdit line = true →
      WritesBytes fs input (.ofString "edit" :: name :: args) name (before.foldl addLine old).length
  | code : editorStart fs name input.keys = .ok s₀ → k < input.loops →
      exec editorStep s₀ (List.replicate k ()) = .ok s → Saving s →
      WritesBytes fs input (.ofString "code" :: name :: args) name (savedBytes 0 s.editor.buffer).length

/-- What is typed does not leave the command. -/
inductive StaysOpen (fs : Filesystem) (input : CommandInput) : List CStr → Prop
  | edit : (∀ l ∈ editInput input.bytes.length input.bytes, endsEdit l = false) →
      StaysOpen fs input (.ofString "edit" :: name :: args)
  | code : editorStart fs name input.keys = .ok s₀ →
      exec editorStep s₀ (List.replicate input.loops ()) = .ok s → s.running = true →
      StaysOpen fs input (.ofString "code" :: name :: args)

/-- Why a command stops, and what its words, its input and the file system are then. -/
inductive CommandStops (fs : Filesystem) (input : CommandInput) : List CStr → Stop → Prop
  | panic : CommandStops fs input (.ofString "panic" :: args)
      (.fault (.panic "User requested panic via shell command"))
  | calc : CalcOverflows arg1 op arg3 →
      CommandStops fs input (.ofString "calc" :: arg1 :: op :: arg3 :: args) (.fault .intOverflow)
  | cd : cdTarget fs dir = (r, some d) → maxPathLength ≤ (fs.pathString d).bytes.length →
      CommandStops fs input (.ofString "cd" :: dir :: args) (.fault (.outOfRange .currentPath))
  | pwd : maxPathLength ≤ fs.wherePath.bytes.length →
      CommandStops fs input (.ofString "pwd" :: args) (.fault (.outOfRange .pathBuffer))
  | write : WritesBytes fs input argv name size → WriteFaults fs name size e →
      CommandStops fs input argv (.fault e)
  | waits : StaysOpen fs input argv → CommandStops fs input argv .waits

/-- What holds of the file system at every prompt. -/
structure FsInv (fs : Filesystem) : Prop where
  storage : StorageInv fs
  table : InTable fs
  sizes : SizeInv fs

/-- With its word in front a command stops only as it says. -/
def FaultsAsSaid (word : String) (run : Filesystem → List CStr → Except Fault α) : Prop :=
  ∀ {fs input args g}, FsInv fs → (∀ a ∈ args, a.bytes.length < maxCommandLength - 1) →
    run fs (.ofString word :: args) = .error g →
      CommandStops fs input (.ofString word :: args) (.fault g)

/-- The same of the table, where a command may also wait. -/
def StopsAsSaid (c : String × Handler) : Prop :=
  ∀ {heap fs input args e}, FsInv fs → (∀ a ∈ args, a.bytes.length < maxCommandLength - 1) →
    c.2 heap fs input (.ofString c.1 :: args) = .error e →
      CommandStops fs input (.ofString c.1 :: args) e

section
variable {fs fs' : Filesystem} {name : CStr} {argv args : List CStr}

theorem stops_eq_error {r : Except Fault α} : stops r = .error e ↔ ∃ f, r = .error f ∧ e = .fault f := by
  cases r with
  | error f =>
    refine ⟨fun he => ?_, ?_⟩
    · cases he
      exact ⟨f, rfl, rfl⟩
    · rintro ⟨_, hf, rfl⟩
      cases hf
      rfl
  | ok a => exact iff_of_false nofun nofun

theorem FaultsAsSaid.reports {f : Filesystem → List CStr → Except Fault (List Print)}
    (hf : FaultsAsSaid word f) : StopsAsSaid (word, reports f) := by
  intro heap fs input args e hi hargs he
  rcases bind_eq_error.1 he with he | ⟨_, _, he⟩
  · obtain ⟨g, hg, rfl⟩ := stops_eq_error.1 he
    exact hf hi hargs hg
  · cases he

theorem FaultsAsSaid.changes {run : Filesystem → List CStr → Except Fault (List Print × Filesystem)}
    (hf : FaultsAsSaid word run) : StopsAsSaid (word, changes run) := by
  intro heap fs input args e hi hargs he
  obtain ⟨g, hg, rfl⟩ := stops_eq_error.1 he
  exact hf hi hargs hg

theorem FaultsAsSaid.changesBytes
    {run : Filesystem → List CStr → Except Fault (List UInt8 × Filesystem)}
    (hf : FaultsAsSaid word run) : StopsAsSaid (word, changesBytes run) := by
  intro heap fs input args e hi hargs he
  rcases bind_eq_error.1 he with he | ⟨_, _, he⟩
  · obtain ⟨g, hg, rfl⟩ := stops_eq_error.1 he
    exact hf hi hargs hg
  · cases he

theorem FaultsAsSaid.prints {f : List CStr → Except Fault (List Print)}
    (hf : FaultsAsSaid word fun _ argv => f argv) : StopsAsSaid (word, prints f) := hf.reports

end

section
variable {s s' : Shell}

end

end ChipOS
