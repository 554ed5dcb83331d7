import ChipOS.Shell.VolumeLines

namespace ChipOS
open CharArray (Chars)
open Run
set_option autoImplicit true

/-- The command lines of a series of entries, over the lines entered before. -/
def commandLines (lines : List (List UInt8)) : List Entry → List CommandLine
  | [] => []
  | e :: es => ⟨lineArguments (e.line lines), e.command⟩ ::
      commandLines (keepLine (e.line lines) lines) es

/-- A command line on the file system alone. -/
def lineStep (heap : Heap) (fs : Filesystem) (l : CommandLine) : Except Stop Filesystem :=
  (executeCommand heap fs l.input l.argv).map Prod.snd

/-- A prompt with the place in the volume, and what the command line entered there does. -/
def Volume.Prompts (heap : Heap) (v : Volume) (l : CommandLine) (out : List Print) (v' : Volume) :
    Prop :=
  ∃ dir out', out = .puts (promptText dir v.pathName.bytes) :: out' ∧ v.Line heap l out' v'

section
variable {heap : Heap} {w w' : WordShell} {v : Volume}

theorem Represents.prompt (hr : Represents w.fs v) :
    w.prompt = .puts (promptText w.fs.currentDir v.pathName.bytes) := by
  have hpath : w.fs.currentPath.bytes = v.pathName.bytes := by
    have hname := hr.pathName
    rw [fsGetCurrentPath, if_neg (by decide), if_neg (Nat.not_lt.2 w.fs.currentPath.fits)] at hname
    exact congrArg Prod.snd hname
  rw [WordShell.prompt, hpath]

theorem Represents.words (hr : Represents w.fs v)
    (hc : Each (lineStep heap) ClearLine w.fs (commandLines w.lines es))
    (he : answers (wordCall heap) w es = .ok (outs, w')) :
    ∃ v', Gives (Volume.Prompts heap) v (commandLines w.lines es) outs v' ∧ Represents w'.fs v' := by
  induction es generalizing w v outs with
  | nil =>
    cases he
    exact ⟨v, .nil, hr⟩
  | cons e es ih =>
    obtain ⟨⟨out, w₁⟩, hcall, he⟩ := bind_eq_ok.1 he
    obtain ⟨⟨outs', w₂⟩, hrest, he⟩ := bind_eq_ok.1 he
    cases he
    obtain ⟨⟨out', fs₁⟩, hexec, hcall⟩ := bind_eq_ok.1 hcall
    cases hcall
    obtain ⟨hline, hlines⟩ := hc
    obtain ⟨v₁, hdoes, hr₁⟩ := hr.command ⟨lineArguments (e.line w.lines), e.command⟩ hline hexec
    have hstep : lineStep heap w.fs ⟨lineArguments (e.line w.lines), e.command⟩ = .ok fs₁ := by
      rw [lineStep, hexec]
      rfl
    obtain ⟨v', hgives, hr'⟩ := ih hr₁ (hlines fs₁ hstep) hrest
    exact ⟨v', .cons ⟨_, _, congrArg (· :: out') hr.prompt, hdoes⟩ hgives, hr'⟩

end

end ChipOS
