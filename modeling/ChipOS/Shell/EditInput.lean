import ChipOS.Drivers.TypedLines
import ChipOS.Shell.Edit

namespace ChipOS
open Run
set_option autoImplicit true

def inputLineSize : Nat := 256

/-- The lines that `cmd_edit` gets from the keyboard in at most so many calls. -/
def editInput (calls : Nat) (input : List UInt8) : List (List UInt8) :=
  (getsCalls inputLineSize calls input).1

/-- Whatever file it edits and however far it gets, `cmd_edit` finishes on an empty line only if
the user typed one. -/
def FinishesOnEmpty (ls : List TypedLine) : Prop :=
  ∀ calls fs args out fs', cmdEdit fs (editInput calls (typedInput ls)) args = .ok (out, fs') →
    Says out finishedEditing → ∃ l ∈ ls, l.text = []

section
variable {name : CStr} {s s' : Edit} {fs fs' : Filesystem} {ext : List UInt8}
  {ls : List TypedLine} {lines : List (List UInt8)} {out : List Print}

theorem getsCalls_fits (hmax : 2 ≤ maxLength) (hls : ∀ l ∈ ls, l.Fits maxLength) (calls : Nat) :
    (getsCalls maxLength calls (typedInput ls)).1 =
      (ls.take calls).map fun l => l.text.take (maxLength - 1) := by
  induction calls generalizing ls with
  | zero => rfl
  | succ calls ih =>
    cases ls with
    | nil =>
      have hwait : consoleGets maxLength (typedInput []) = none := if_pos (by rw [List.length_nil]; omega)
      rw [getsCalls, hwait]
      rfl
    | cons l ls =>
      have hinput : typedInput (l :: ls) = l.input ++ typedInput ls := List.flatMap_cons
      rw [getsCalls, hinput, consoleGets_fits (hls l List.mem_cons_self)]
      exact congrArg _ (ih fun m hm => hls m (List.mem_cons_of_mem l hm))

theorem editLine_finished (he : editLine name ext s line = .ok (out, s', next))
    (hm : Says out finishedEditing) : line = [] := by
  rw [editLine] at he
  split at he
  · cases he
    exact absurd hm (by decide)
  split at he
  · obtain ⟨⟨result, fs⟩, _, hr⟩ := bind_eq_ok.1 he
    cases hr
    split at hm
    · exact absurd hm (by decide)
    · exact absurd hm (by decide)
  split at he
  · cases he
    exact absurd hm (by decide)
  split at he
  · next hz => exact List.eq_nil_of_length_eq_zero hz
  split at he
  · cases he
    simp at hm
  · cases he
    exact absurd hm (by decide)

theorem saveEdited_finished (he : saveEdited name s = .ok (out, fs')) :
    ¬Says out finishedEditing := by
  obtain ⟨⟨result, fs⟩, _, hr⟩ := bind_eq_ok.1 he
  by_cases hzero : result = 0
  · cases (if_pos hzero).symm.trans hr
    simp [finishedEditing]
  · cases (if_neg hzero).symm.trans hr
    simp [finishedEditing, nameMessage]

theorem editLoop_finished (he : editLoop name ext s lines = .ok (out, fs'))
    (hm : Says out finishedEditing) : [] ∈ lines := by
  induction lines generalizing s out with
  | nil =>
    cases he
    exact absurd hm says_nil
  | cons line lines ih =>
    rw [editLoop] at he
    obtain ⟨⟨out₁, s₁, next⟩, hline, he⟩ := bind_eq_ok.1 he
    have hprompt : Print.text finishedEditing ≠ .text "> " := by decide
    have hfirst : Says out₁ finishedEditing → [] ∈ line :: lines :=
      fun h => editLine_finished hline h ▸ List.mem_cons_self
    cases next with
    | again =>
      obtain ⟨⟨out₂, fs₂⟩, hrest, hr⟩ := bind_eq_ok.1 he
      cases hr
      rcases says_append.1 hm with h | h
      · exact hfirst ((says_cons.1 h).resolve_left hprompt)
      · exact List.mem_cons_of_mem line (ih hrest h)
    | leave shouldSave =>
      cases shouldSave with
      | false =>
        cases he
        exact hfirst ((says_cons.1 hm).resolve_left hprompt)
      | true =>
        obtain ⟨⟨out₂, fs₂⟩, hsave, hr⟩ := bind_eq_ok.1 he
        cases hr
        rcases says_append.1 hm with h | h
        · exact hfirst ((says_cons.1 h).resolve_left hprompt)
        · exact absurd h (saveEdited_finished hsave)

theorem showExisting_finished (ext line buffer : List UInt8) :
    ¬Says (showExisting ext line buffer) finishedEditing := by
  induction buffer generalizing line with
  | nil =>
    rw [showExisting]
    split
    · simp
    · simp
  | cons c buffer ih =>
    rw [showExisting]
    split
    · simp [ih []]
    · exact ih _

theorem cmdEdit_finished (he : cmdEdit fs lines args = .ok (out, fs'))
    (hm : Says out finishedEditing) : [] ∈ lines := by
  match args with
  | [] =>
    cases he
    exact absurd hm (by decide)
  | [_] =>
    cases he
    exact absurd hm (by decide)
  | _ :: name :: _ =>
    rw [cmdEdit] at he
    obtain ⟨⟨existingSize, buffer⟩, _, he⟩ := bind_eq_ok.1 he
    simp only at he
    have hheader : ¬Says (editHeader name) finishedEditing := by
      simp [editHeader, finishedEditing, separator]
    split at he
    · obtain ⟨⟨out', fs''⟩, hloop, hr⟩ := bind_eq_ok.1 he
      cases hr
      apply editLoop_finished hloop
      simp only [says_append] at hm
      rcases hm with (((h | h) | h) | h) | h
      · exact absurd h hheader
      · exact absurd h (by decide)
      · exact absurd h (showExisting_finished _ [] buffer)
      · exact absurd h (by decide)
      · exact h
    · obtain ⟨⟨out', fs''⟩, hloop, hr⟩ := bind_eq_ok.1 he
      cases hr
      apply editLoop_finished hloop
      exact (says_append.1 hm).resolve_left hheader

end

/-- A call of `console_gets` takes one typed line each exactly if no line fills the buffer while
it is typed; `cmd_edit` then takes an empty line for the end only if one was typed. -/
theorem gets_one_line (maxLength : Nat) (ls : List TypedLine) :
    (ReadsLines maxLength ls ↔ ∀ l ∈ ls, l.Fits maxLength) ∧
      ((∀ l ∈ ls, l.Fits inputLineSize) → FinishesOnEmpty ls) := by
  refine ⟨readsLines_iff maxLength ls, fun hls calls fs args out fs' he hm => ?_⟩
  have hmem : [] ∈ editInput calls (typedInput ls) := cmdEdit_finished he hm
  rw [editInput, getsCalls_fits (by decide) hls] at hmem
  obtain ⟨l, hl, hnil⟩ := List.mem_map.1 hmem
  have hl := List.mem_of_mem_take hl
  rw [List.take_of_length_le (Nat.le_of_lt (hls l hl).length)] at hnil
  exact ⟨l, hl, hnil⟩

def fullLine : TypedLine where
  keys := List.replicate 255 97
  enter := '\r'.toUInt8
  no_enter := by
    intro c hc
    rw [List.eq_of_mem_replicate hc]
    rfl
  is_enter := rfl

/-- The Enter of a full line is left over. The next call takes it for an empty line, which ends
the session. -/
theorem gets_leaves_enter : ¬ReadsLines inputLineSize [fullLine] ∧
    getsCalls inputLineSize 2 (typedInput [fullLine]) = ([List.replicate 255 97, []], []) ∧
    fullLine.text = List.replicate 255 97 ∧
    ∀ name ext s, editLine name ext s [] = .ok ([.text finishedEditing], s, .leave true) := by
  refine ⟨?_, by decide +kernel, by decide +kernel, fun _ _ _ => rfl⟩
  rw [readsLines_iff]
  intro h
  exact absurd (h fullLine List.mem_cons_self).length (by decide +kernel)

end ChipOS
