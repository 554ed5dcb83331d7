import ChipOS.Editor.LoadSave
import ChipOS.Fs.StorageBounds

namespace ChipOS
open CharArray Run
set_option autoImplicit true

/-- A fault in an array of the file system. -/
def StorageFault (e : Fault) : Prop :=
  e = .outOfRange .dataStorage ∨ e = .outOfRange .entryName

/-- The characters stored at a prompt that has room for `n` more of them. -/
def typedKeys : Nat → Keys → List UInt8
  | 0, _ => []
  | n + 1, keys =>
    if keys 0 ≠ '\n'.toUInt8 ∧ keys 0 ≠ '\r'.toUInt8 then keys 0 :: typedKeys n keys.tail else []

theorem readCommand_eq {k : Nat} {cmd : Chars} {keys : Keys} (hk : k + n = 15) (hroom : n < room) :
    ∃ cmd' keys', readCommand room k cmd keys = .ok (cmd', keys') ∧
      k + (typedKeys n keys).length ≤ 15 ∧
      bytes cmd' (k + (typedKeys n keys).length + 1) = bytes cmd k ++ typedKeys n keys ++ [0] := by
  induction n generalizing room k cmd keys with
  | zero =>
    obtain ⟨room, rfl⟩ := Nat.exists_eq_add_of_lt hroom
    refine ⟨Function.update cmd k 0, keys.tail, ?_, Nat.le_of_eq hk, ?_⟩
    · rw [readCommand, if_neg (by omega), set_eq (by omega) (by omega)]
      rfl
    · exact (bytes_update).trans (by rw [typedKeys, List.append_nil])
  | succ n ih =>
    obtain ⟨room, rfl⟩ := Nat.exists_eq_add_of_lt hroom
    rw [typedKeys, readCommand]
    by_cases hchar : keys 0 ≠ '\n'.toUInt8 ∧ keys 0 ≠ '\r'.toUInt8
    · have hrec : ∃ cmd' keys', readCommand (n + 1 + room) (k + 1 : Nat)
          (Function.update cmd k (keys 0)) keys.tail = .ok (cmd', keys') ∧
          k + 1 + (typedKeys n keys.tail).length ≤ 15 ∧
          bytes cmd' (k + 1 + (typedKeys n keys.tail).length + 1) =
            bytes (Function.update cmd k (keys 0)) (k + 1) ++ typedKeys n keys.tail ++ [0] :=
        ih (by omega) (by omega)
      obtain ⟨cmd', keys', he, hle, hb⟩ := hrec
      rw [if_pos ⟨hchar.1, hchar.2, by omega⟩, if_pos hchar, set_eq (by omega) (by omega)]
      refine ⟨cmd', keys', he, ?_, ?_⟩
      · rw [List.length_cons]
        omega
      · have hidx : k + ((typedKeys n keys.tail).length + 1) + 1 =
            k + 1 + (typedKeys n keys.tail).length + 1 := by omega
        rw [List.length_cons, hidx, hb, bytes_update]
        simp only [List.append_assoc, List.cons_append, List.nil_append]
    · rw [if_neg (fun h => hchar ⟨h.1, h.2.1⟩), if_neg hchar, set_eq (by omega) (by omega)]
      refine ⟨Function.update cmd k 0, keys.tail, rfl, by rw [List.length_nil]; omega, ?_⟩
      rw [List.append_nil]
      exact bytes_update

def typedCommand (keys : Keys) : List UInt8 := (typedKeys 15 keys).takeWhile (· != 0)

theorem readCommand_text (keys : Keys) :
    ∃ cmd keys', readCommand 16 0 (fun _ => 0) keys = .ok (cmd, keys') ∧
      CharArray.text 16 cmd = typedCommand keys := by
  have hread : ∃ cmd keys', readCommand 16 (0 : Nat) (fun _ => 0) keys = .ok (cmd, keys') ∧
      0 + (typedKeys 15 keys).length ≤ 15 ∧
      bytes cmd (0 + (typedKeys 15 keys).length + 1) =
        bytes (fun _ => 0) 0 ++ typedKeys 15 keys ++ [0] := readCommand_eq rfl (by decide)
  obtain ⟨cmd, keys', he, hle, hb⟩ := hread
  exact ⟨cmd, keys', he, text_of_bytes hb (by omega)⟩

theorem isCommand_iff (hc : CharArray.text 16 cmd = typedCommand keys) :
    isCommand cmd name = true ↔ typedCommand keys = (CStr.ofString name).bytes := by
  have hnul : 0 ∉ typedCommand keys := fun hm =>
    absurd (List.mem_takeWhile_imp (p := (· != (0 : UInt8))) hm) (by decide)
  rw [isCommand, decide_eq_true_eq, hc]
  constructor
  · exact eq_of_strcmp hnul (CStr.ofString name).no_nul
  · intro h
    rw [h]
    exact strcmp_self _

/-- The keys of the insert mode that change the buffer. -/
def InsertEdits (ed : EditorState) (input : UInt8) : Prop :=
  if input = '\n'.toUInt8 ∨ input = '\r'.toUInt8 then ed.lineCount < maxLines - 1
  else if input = 127 ∨ input = 8 then 0 < ed.cursorCol
  else input ≥ 32 ∧ input ≤ 126 ∧ (ed.text ed.cursorLine).length < maxLineLength - 1

/-- The keys of the command mode that change the buffer or save it. -/
def CommandEdits (ed : EditorState) (input : UInt8) (keys : Keys) : Prop :=
  input = 'o'.toUInt8 ∧ ed.lineCount < maxLines - 1 ∨
  input = 'x'.toUInt8 ∧ ed.cursorCol < (ed.text ed.cursorLine).length ∨
  input = ':'.toUInt8 ∧ (typedCommand keys = (CStr.ofString "w").bytes ∨
    typedCommand keys = (CStr.ofString "wq").bytes)

/-- The next iteration of the main loop edits or saves. -/
def Edits (s : Session) : Prop :=
  s.running = true ∧ s.readOnly = false ∧ s.keys 0 ≠ 27 ∧
    if s.editor.insertMode then InsertEdits s.editor (s.keys 0)
    else CommandEdits s.editor (s.keys 0) s.keys.tail

/-- The edit comes to its end with the invariant and sets the mark. -/
def Marks (r : Except Fault EditorState) : Prop :=
  ∃ ed, r = .ok ed ∧ EditorInv ed ∧ ed.modified = true

/-- The cursor may move, the mode may change and the loop may end, and nothing else. -/
def Quiet (s : Session) (r : Except Fault Session) : Prop :=
  ∃ ed m k b, Moved s.editor ed ∧
    r = .ok { s with editor := { ed with insertMode := m }, keys := k, running := b }

/-- The same with any relation for the moves of the cursor. -/
def QuietBy (M : EditorState → EditorState → Prop) (s : Session) (r : Except Fault Session) : Prop :=
  ∃ ed m k b, M s.editor ed ∧
    r = .ok { s with editor := { ed with insertMode := m }, keys := k, running := b }

/-- A relation that holds of every move of the cursor. -/
structure HoldsOfMoves (M : EditorState → EditorState → Prop) : Prop where
  moved : ∀ ed ed', M ed ed' → Moved ed ed'
  refl : ∀ ed, EditorInv ed → M ed ed
  up : ∀ ed, EditorInv ed → ∃ ed', moveUp ed = .ok ed' ∧ M ed ed'
  down : ∀ ed, EditorInv ed → ∃ ed', moveDown ed = .ok ed' ∧ M ed ed'
  right : ∀ ed, EditorInv ed → ∃ ed', moveRight ed = .ok ed' ∧ M ed ed'
  left : ∀ ed, EditorInv ed → M ed (moveLeft ed)
  toEnd : ∀ ed, EditorInv ed → ∃ ed', moveEnd ed = .ok ed' ∧ M ed ed'

/-- What an iteration that edits or saves comes to. -/
inductive EditsTo (s : Session) : Except Fault Session → Prop
  | edit : EditorInv ed → ed.modified = true →
      EditsTo s (.ok { s with editor := ed, keys := k })
  | save : editorSaveFile s.editor s.fs = .ok (result, ed, fs) →
      EditsTo s (.ok { s with
        editor := ed, fs, saves := (result, ed) :: s.saves, keys := k, running := b })
  | fault : StorageFault e → EditsTo s (.error e)

section
variable {ed : EditorState}

theorem newLine_marks (hi : EditorInv ed) (hroom : ed.lineCount < maxLines - 1) :
    Marks (editorNewLine ed) := by
  obtain ⟨col, hcol, _⟩ := hi.col_index
  obtain ⟨lines, he, hl⟩ := newLine_eq hi hcol hroom
  exact ⟨_, he, hi.newLine hroom hl, rfl⟩

theorem insertChar_marks (hi : EditorInv ed) (hc : c ≠ 0)
    (hroom : (ed.text ed.cursorLine).length < maxLineLength - 1) :
    Marks (editorInsertChar ed c) := by
  obtain ⟨col, hcol, hle⟩ := hi.col_index
  have hsize : maxLineLength = 256 := rfl
  obtain ⟨row, he, hrow⟩ := insertChar_eq hi hc hcol rfl hroom
  have hlen : ((ed.text ed.cursorLine).take col ++ c :: (ed.text ed.cursorLine).drop col).length =
      (ed.text ed.cursorLine).length + 1 := by
    rw [List.length_append, List.length_cons, List.length_take_of_le (by omega), List.length_drop]
    omega
  exact ⟨_, he, hi.setRow hrow (by omega) (by omega) (by omega), rfl⟩

theorem deleteChar_marks (hi : EditorInv ed) (hpos : ed.cursorCol > 0) :
    Marks (editorDeleteChar ed) := by
  have hshort := hi.current.short
  obtain ⟨col, hcol, hlt⟩ := hi.col_pred hpos
  obtain ⟨row, he, hrow⟩ := deleteChar_eq hi hcol rfl
  have hlen := List.length_eraseIdx_of_lt hlt
  exact ⟨_, he, hi.setRow hrow (by omega) (by omega) (by omega), rfl⟩

theorem deleteUnderCursor_marks (hi : EditorInv ed)
    (hlt : ed.cursorCol < (ed.text ed.cursorLine).length) : Marks (deleteUnderCursor ed) := by
  obtain ⟨col, hcol, _⟩ := hi.col_index
  have hshort := hi.current.short
  have hin : col < (ed.text ed.cursorLine).length := by omega
  obtain ⟨row, he, hrow⟩ := deleteUnderCursor_eq hi hcol rfl hin
  have hlen := List.length_eraseIdx_of_lt hin
  exact ⟨_, he, hi.setRow hrow (by omega) (by omega) (by omega), rfl⟩

theorem insertKey_stays (hi : EditorInv ed) (hn : ¬InsertEdits ed input) :
    insertKey ed input = .ok ed := by
  rw [InsertEdits] at hn
  rw [insertKey]
  split
  · next henter =>
    rw [if_pos henter] at hn
    exact newLine_full hn
  next henter =>
  rw [if_neg henter] at hn
  split
  · next hback =>
    rw [if_pos hback] at hn
    exact deleteChar_start hn
  next hback =>
  rw [if_neg hback] at hn
  split
  · next hprint => exact insertChar_full hi fun hroom => hn ⟨hprint.1, hprint.2, hroom⟩
  · rfl

theorem insertKey_marks (hi : EditorInv ed) (he : InsertEdits ed input) :
    Marks (insertKey ed input) := by
  rw [InsertEdits] at he
  rw [insertKey]
  split
  · next henter =>
    rw [if_pos henter] at he
    exact newLine_marks hi he
  next henter =>
  rw [if_neg henter] at he
  split
  · next hback =>
    rw [if_pos hback] at he
    exact deleteChar_marks hi he
  next hback =>
  rw [if_neg hback] at he
  have hne : input ≠ 0 := by
    rintro rfl
    exact absurd he.1 (by decide)
  rw [if_pos ⟨he.1, he.2.1⟩]
  exact insertChar_marks hi hne he.2.2

end

section
variable {s : Session} {M : EditorState → EditorState → Prop}

theorem holdsOfMoves_moved : HoldsOfMoves Moved :=
  ⟨fun _ _ hm => hm, fun _ hi => .refl hi, fun _ hi => moveUp_eq hi, fun _ hi => moveDown_eq hi,
    fun _ hi => moveRight_eq hi, fun _ hi => moveLeft_moved hi, fun _ hi => moveEnd_eq hi⟩

theorem quiet_rest (hM : HoldsOfMoves M) (hi : EditorInv s.editor) :
    QuietBy M s (.ok { s with keys := k, running := b }) :=
  ⟨s.editor, s.editor.insertMode, k, b, hM.refl _ hi, rfl⟩

theorem quiet_mode (hM : HoldsOfMoves M) (hi : EditorInv s.editor) :
    QuietBy M s (.ok { s with editor := { s.editor with insertMode := m }, keys := k }) :=
  ⟨s.editor, m, k, s.running, hM.refl _ hi, rfl⟩

theorem quiet_move (hm : ∃ ed', r = .ok ed' ∧ M s.editor ed') :
    QuietBy M s (r >>= fun ed' => .ok { s with editor := ed', keys := k }) := by
  obtain ⟨ed', rfl, hm⟩ := hm
  exact ⟨ed', ed'.insertMode, k, s.running, hm, rfl⟩

theorem quiet_left (hM : HoldsOfMoves M) (hi : EditorInv s.editor) :
    QuietBy M s (.ok { s with editor := moveLeft s.editor, keys := k }) :=
  ⟨moveLeft s.editor, (moveLeft s.editor).insertMode, k, s.running, hM.left _ hi, rfl⟩

theorem quiet_leave (hM : HoldsOfMoves M) (hi : EditorInv s.editor) :
    QuietBy M s (.ok (Session.leaveInsertMode { s with keys := k })) := by
  rw [Session.leaveInsertMode]
  split
  · exact quiet_mode hM hi
  · exact quiet_rest hM hi

theorem quiet_escape (hM : HoldsOfMoves M) (hi : EditorInv s.editor) : QuietBy M s (escapeKey s) := by
  unfold escapeKey
  dsimp only
  split
  · split
    · exact quiet_move (hM.up _ hi)
    split
    · exact quiet_move (hM.down _ hi)
    split
    · exact quiet_move (hM.right _ hi)
    split
    · exact quiet_left hM hi
    · exact quiet_leave hM hi
  · exact quiet_leave hM hi

theorem quiet_readOnly (hM : HoldsOfMoves M) (hi : EditorInv s.editor) : QuietBy M s (readOnlyKey s input) := by
  rw [readOnlyKey]
  split
  · exact quiet_move (hM.down _ hi)
  split
  · exact quiet_move (hM.up _ hi)
  split
  · exact quiet_left hM hi
  split
  · exact quiet_move (hM.right _ hi)
  split
  · obtain ⟨cmd, keys', he, _⟩ := readCommand_text s.keys
    rw [readOnlyPrompt, he, ok_bind]
    dsimp only
    split <;> exact quiet_rest hM hi
  · exact quiet_rest hM hi

theorem quiet_prompt (hM : HoldsOfMoves M) (hi : EditorInv s.editor)
    (hw : typedCommand s.keys ≠ (CStr.ofString "w").bytes)
    (hwq : typedCommand s.keys ≠ (CStr.ofString "wq").bytes) : QuietBy M s (commandPrompt s) := by
  obtain ⟨cmd, keys', he, hc⟩ := readCommand_text s.keys
  have hw' : ¬isCommand cmd "w" = true := fun h => hw ((isCommand_iff hc).1 h)
  have hwq' : ¬isCommand cmd "wq" = true := fun h => hwq ((isCommand_iff hc).1 h)
  rw [commandPrompt, he, ok_bind]
  dsimp only
  rw [if_neg hw', if_neg hwq']
  split
  · split <;> exact quiet_rest hM hi
  split <;> exact quiet_rest hM hi

theorem quiet_command (hM : HoldsOfMoves M) (hi : EditorInv s.editor) (hn : ¬CommandEdits s.editor input s.keys) :
    QuietBy M s (commandKey s input) := by
  rw [CommandEdits, not_or, not_or] at hn
  obtain ⟨ho, hx, hc⟩ := hn
  rw [commandKey]
  split
  · exact quiet_mode hM hi
  split
  · obtain ⟨ed', he, hm⟩ := hM.toEnd _ hi
    rw [he]
    exact ⟨ed', true, s.keys, s.running, hm, rfl⟩
  split
  · next hinput =>
    have hfull : ¬s.editor.lineCount < maxLines - 1 := fun h => ho ⟨hinput, h⟩
    obtain ⟨ed', he, hm⟩ := hM.toEnd _ hi
    have hnew : editorNewLine ed' = .ok ed' := by
      apply newLine_full
      cases hM.moved _ _ hm
      exact hfull
    rw [he, ok_bind, hnew]
    exact ⟨ed', true, s.keys, s.running, hm, rfl⟩
  split
  · exact quiet_move (hM.down _ hi)
  split
  · exact quiet_move (hM.up _ hi)
  split
  · exact quiet_left hM hi
  split
  · exact quiet_move (hM.right _ hi)
  split
  · next hinput =>
    rw [deleteUnderCursor_end hi fun h => hx ⟨hinput, h⟩]
    exact quiet_rest hM hi
  split
  · next hinput =>
    exact quiet_prompt hM hi (fun h => hc ⟨hinput, .inl h⟩) (fun h => hc ⟨hinput, .inr h⟩)
  · exact quiet_rest hM hi

theorem editorStep_quietBy (hM : HoldsOfMoves M) (hi : EditorInv s.editor) (hn : ¬Edits s) :
    QuietBy M s (editorStep s ()) := by
  have hkey : EditorInv s.anyKey.editor := hi
  rw [editorStep]
  split
  swap
  · exact quiet_rest hM hi
  next hrun =>
  unfold editorIter
  dsimp only
  split
  · exact quiet_escape hM hkey
  next hesc =>
  split
  · exact quiet_readOnly hM hkey
  next hread =>
  have hedit : ¬if s.editor.insertMode then InsertEdits s.editor (s.keys 0)
      else CommandEdits s.editor (s.keys 0) s.keys.tail :=
    fun h => hn ⟨hrun, Bool.eq_false_iff.2 hread, hesc, h⟩
  split
  · next hmode =>
    have hmode : s.editor.insertMode = true := hmode
    rw [if_pos hmode] at hedit
    have hins : insertKey s.anyKey.editor (s.keys 0) = .ok s.editor := insertKey_stays hi hedit
    rw [hins]
    exact quiet_rest hM hi
  · next hmode =>
    have hmode : ¬s.editor.insertMode = true := hmode
    rw [if_neg hmode] at hedit
    exact quiet_command (s := s.anyKey) hM hkey hedit

theorem editorStep_quiet (hi : EditorInv s.editor) (hn : ¬Edits s) : Quiet s (editorStep s ()) :=
  editorStep_quietBy holdsOfMoves_moved hi hn

theorem EditsTo.of_anyKey (he : EditsTo s.anyKey r) : EditsTo s r := by
  cases he with
  | edit hi hm => exact .edit hi hm
  | save hs => exact .save hs
  | fault hf => exact .fault hf

theorem editorSaveFile_error (hi : EditorInv ed) (he : editorSaveFile ed fs = .error e) :
    StorageFault e := by
  rw [editorSaveFile_data, hi.saved, ok_bind] at he
  rcases bind_eq_error.1 he with hw | ⟨p, _, hp⟩
  · exact fsWriteFile_error hw
  · split at hp
    · cases hp
    · cases hp

/-- What a command that saves leaves. -/
inductive Saves (s : Session) : Except Fault Session → Prop
  | save : editorSaveFile s.editor s.fs = .ok (result, ed, fs) →
      Saves s (.ok { s with
        editor := ed, fs, saves := (result, ed) :: s.saves, keys := k, running := b })
  | fault : StorageFault e → Saves s (.error e)

theorem Saves.edits (h : Saves s r) : EditsTo s r := by
  cases h with
  | save hsave => exact .save hsave
  | fault hf => exact .fault hf

/-- A save is recorded, if only the keys and the end of the loop depend on its result. -/
theorem save_recorded {done : Int × Session → Session} (hi : EditorInv s.editor)
    (hdone : ∀ p, ∃ k b, done p = { p.2 with keys := k, running := b }) :
    Saves s (Session.save { s with keys } >>= fun p => .ok (done p)) := by
  rw [Session.save]
  cases hsave : editorSaveFile s.editor s.fs with
  | error e => exact .fault (editorSaveFile_error hi hsave)
  | ok p =>
    change Saves s (.ok (done _))
    obtain ⟨k, b, hp⟩ := hdone (p.1, { s with
      editor := p.2.1, fs := p.2.2, saves := (p.1, p.2.1) :: s.saves, keys })
    rw [hp]
    exact .save hsave

theorem prompt_saves (hi : EditorInv s.editor)
    (hw : typedCommand s.keys = (CStr.ofString "w").bytes ∨
      typedCommand s.keys = (CStr.ofString "wq").bytes) : Saves s (commandPrompt s) := by
  obtain ⟨cmd, keys', hread, hc⟩ := readCommand_text s.keys
  rw [commandPrompt, hread, ok_bind]
  dsimp only
  by_cases hcmd : isCommand cmd "w" = true
  · rw [if_pos hcmd]
    refine save_recorded hi fun p => ?_
    split <;> exact ⟨_, _, rfl⟩
  · have hwq : isCommand cmd "wq" = true :=
      (isCommand_iff hc).2 (hw.resolve_left fun h => hcmd ((isCommand_iff hc).2 h))
    have hq : ¬isCommand cmd "q" = true := fun h =>
      absurd (((isCommand_iff hc).1 hwq).symm.trans ((isCommand_iff hc).1 h)) (by decide)
    have hq' : ¬isCommand cmd "q!" = true := fun h =>
      absurd (((isCommand_iff hc).1 hwq).symm.trans ((isCommand_iff hc).1 h)) (by decide)
    rw [if_neg hcmd, if_neg hq, if_neg hq', if_pos hwq]
    refine save_recorded hi fun p => ?_
    split <;> exact ⟨_, _, rfl⟩

theorem commandKey_open (s : Session) : commandKey s 'o'.toUInt8 = (do
    let editor ← moveEnd s.editor
    let editor ← editorNewLine editor
    return { s with editor := { editor with insertMode := true } }) := rfl

theorem commandKey_delete (s : Session) : commandKey s 'x'.toUInt8 = (do
    let editor ← deleteUnderCursor s.editor
    return { s with editor }) := rfl

theorem commandKey_prompt (s : Session) : commandKey s ':'.toUInt8 = commandPrompt s := rfl

theorem command_edits (hi : EditorInv s.editor) (he : CommandEdits s.editor input s.keys) :
    EditsTo s (commandKey s input) := by
  rcases he with ⟨rfl, hroom⟩ | ⟨rfl, hlt⟩ | ⟨rfl, hw⟩
  · obtain ⟨ed', hend, hm⟩ := moveEnd_eq hi
    have hroom' : ed'.lineCount < maxLines - 1 := by
      cases hm
      exact hroom
    obtain ⟨ed₁, hnew, hi₁, hmark⟩ := newLine_marks (hi.moved hm) hroom'
    rw [commandKey_open, hend, ok_bind, hnew]
    exact .edit hi₁.flags hmark
  · obtain ⟨ed₁, hdel, hi₁, hmark⟩ := deleteUnderCursor_marks hi hlt
    rw [commandKey_delete, hdel]
    exact .edit hi₁ hmark
  · rw [commandKey_prompt]
    exact (prompt_saves hi hw).edits

theorem editorStep_insert (hrun : s.running = true) (hread : s.readOnly = false) (hesc : s.keys 0 ≠ 27)
    (hmode : s.editor.insertMode = true) : editorStep s () =
      insertKey s.editor (s.keys 0) >>= fun editor => .ok { s.anyKey with editor } := by
  have hread' : ¬s.anyKey.readOnly = true := Bool.eq_false_iff.1 hread
  have hmode' : s.anyKey.editor.insertMode = true := hmode
  rw [editorStep, if_pos hrun]
  unfold editorIter
  dsimp only
  rw [if_neg hesc, if_neg hread', if_pos hmode']
  rfl

theorem editorStep_command (hrun : s.running = true) (hread : s.readOnly = false)
    (hesc : s.keys 0 ≠ 27) (hmode : ¬s.editor.insertMode = true) :
    editorStep s () = commandKey s.anyKey (s.keys 0) := by
  have hread' : ¬s.anyKey.readOnly = true := Bool.eq_false_iff.1 hread
  have hmode' : ¬s.anyKey.editor.insertMode = true := hmode
  rw [editorStep, if_pos hrun]
  unfold editorIter
  dsimp only
  rw [if_neg hesc, if_neg hread', if_neg hmode']

/-- An iteration that edits marks the buffer, records a save or stops in the file system. -/
theorem editorStep_edits (hi : EditorInv s.editor) (he : Edits s) : EditsTo s (editorStep s ()) := by
  obtain ⟨hrun, hread, hesc, he⟩ := he
  by_cases hmode : s.editor.insertMode = true
  · rw [if_pos hmode] at he
    obtain ⟨ed, hk, hi', hmark⟩ := insertKey_marks hi he
    rw [editorStep_insert hrun hread hesc hmode, hk]
    exact .edit hi' hmark
  · rw [if_neg hmode] at he
    rw [editorStep_command hrun hread hesc hmode]
    exact (command_edits (s := s.anyKey) hi he).of_anyKey

end

end ChipOS
