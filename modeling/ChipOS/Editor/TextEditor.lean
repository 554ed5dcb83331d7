import ChipOS.Editor.Primitives
import ChipOS.Editor.Replay

namespace ChipOS
open CharArray Run
set_option autoImplicit true

def Keys.drop (keys : Keys) (n : Nat) : Keys := fun i => keys (i + n)

/-- A session as its user sees it: a text with a cursor, the mode, and the mark for changes that
are not saved. -/
structure TextEditor where
  text : TextBuffer UInt8
  name : CStr
  inserting : Bool
  unsaved : Bool
  fs : Filesystem
  keys : Keys
  running : Bool

namespace TextEditor

def skip (e : TextEditor) (n : Nat) : TextEditor := { e with keys := e.keys.drop n }

def mode (e : TextEditor) (inserting : Bool) : TextEditor := { e with inserting }

def move (e : TextEditor) (f : TextBuffer UInt8 → TextBuffer UInt8) : TextEditor :=
  { e with text := f e.text }

/-- A change of the text, if there is room for it or something to take away. -/
def edit (e : TextEditor) (room : Prop) [Decidable room] (f : TextBuffer UInt8 → TextBuffer UInt8) :
    TextEditor :=
  if room then { e with text := f e.text, unsaved := true } else e

def newLine (e : TextEditor) : TextEditor := e.edit (e.text.lines.length < maxLines - 1) .newLine

/-- A key in insert mode. -/
def type (e : TextEditor) (c : UInt8) : TextEditor :=
  if c = '\n'.toUInt8 ∨ c = '\r'.toUInt8 then e.newLine
  else if c = 127 ∨ c = 8 then e.edit (0 < e.text.col) .delete
  else if c ≥ 32 ∧ c ≤ 126 then e.edit (e.text.current.length < maxLineLength - 1) (·.insert c)
  else e

/-- The arrow keys, behind `ESC` and `[`. -/
def arrow (c : UInt8) : Option (TextBuffer UInt8 → TextBuffer UInt8) :=
  if c = 'A'.toUInt8 then some .up
  else if c = 'B'.toUInt8 then some .down
  else if c = 'C'.toUInt8 then some .right
  else if c = 'D'.toUInt8 then some .left
  else none

/-- `ESC` and the keys that belong to it: an arrow, or the end of the insert mode. -/
def escape (e : TextEditor) : TextEditor :=
  if e.keys 0 = '['.toUInt8 then
    match arrow (e.keys 1) with
    | some f => (e.skip 2).move f
    | none => (e.skip 2).mode false
  else (e.skip 1).mode false

/-- What fits of the text into the file: whether that was done. -/
def save (e : TextEditor) : Except Fault (Bool × TextEditor) := do
  let data := savedBytes 0 e.text.lines
  let (r, fs) ← fsCall e.fs (.writeFile e.name data data.length)
  let saved : Bool := r = fsSuccess
  return (saved, { e with fs, unsaved := e.unsaved && !saved })

/-- What is typed behind `:`, up to `Enter`. A key more is read behind a message. -/
def command (e : TextEditor) : Except Fault TextEditor := do
  let word := typedCommand e.keys
  let e := e.skip ((typedKeys 15 e.keys).length + 1)
  if word = (CStr.ofString "w").bytes then
    let (saved, e) ← e.save
    return if saved then e.skip 1 else e
  else if word = (CStr.ofString "q").bytes then
    return if e.unsaved then e.skip 1 else { e with running := false }
  else if word = (CStr.ofString "q!").bytes then return { e with running := false }
  else if word = (CStr.ofString "wq").bytes then
    let (saved, e) ← e.save
    return if saved then { e with running := false } else e.skip 1
  else return e.skip 1

/-- A key in command mode. -/
def key (e : TextEditor) (c : UInt8) : Except Fault TextEditor :=
  if c = 'i'.toUInt8 then .ok (e.mode true)
  else if c = 'a'.toUInt8 ∨ c = 'A'.toUInt8 then .ok ((e.move .toEnd).mode true)
  else if c = 'o'.toUInt8 then .ok ((e.move .toEnd).newLine.mode true)
  else if c = 'j'.toUInt8 then .ok (e.move .down)
  else if c = 'k'.toUInt8 then .ok (e.move .up)
  else if c = 'h'.toUInt8 then .ok (e.move .left)
  else if c = 'l'.toUInt8 then .ok (e.move .right)
  else if c = 'x'.toUInt8 then .ok (e.edit (e.text.col < e.text.current.length) .deleteUnder)
  else if c = ':'.toUInt8 then e.command
  else .ok (e.skip 1)

def step (e : TextEditor) (_ : Unit) : Except Fault TextEditor :=
  if e.running then
    let c := e.keys 0
    let e := e.skip 1
    if c = 27 then .ok e.escape
    else if e.inserting then .ok (e.type c)
    else e.key c
  else .ok e

/-- What the answer to the menu makes of a file that exists. -/
def opened (e : TextEditor) (data : List UInt8) (choice : UInt8) : TextEditor :=
  if choice = '2'.toUInt8 then
    let e := { e with text := (TextBuffer.start (loadedLines data)).bottom.toEnd }
    (if 0 < e.text.current.length then e.newLine else e).mode true
  else if choice = '3'.toUInt8 then { e with unsaved := true }
  else { e with text := .start (loadedLines data) }

def start (fs : Filesystem) (name : CStr) (keys : Keys) : Except Fault TextEditor := do
  if name.bytes.length < 256 then
    let (r, data) ← fsReadFile fs name bufferSize (bufferSize - 1)
    let e := ⟨.start [], name, false, false, fs, keys, true⟩
    return if r ≥ 0 then (e.skip 2).opened data (keys 0) else e
  else .error (.outOfRange .editorFilename)

end TextEditor

/-- The text editor that a session is, with this text. -/
def Session.showing (s : Session) (b : TextBuffer UInt8) : TextEditor :=
  ⟨b, s.editor.filename.toCStr, s.editor.insertMode, s.editor.modified, s.fs, s.keys, s.running⟩

/-- The session is the text editor, with its text in the arrays. -/
inductive Follows (s : Session) : TextEditor → Prop
  | mk : EditorInv s.editor → s.readOnly = false → Shows s.editor b → Follows s (s.showing b)

/-- An edit sets the mark, and leaves the mode and the name. -/
structure Marked (ed ed' : EditorState) : Prop where
  name : ed'.filename = ed.filename
  mode : ed'.insertMode = ed.insertMode
  mark : ed'.modified = true

section
variable {ed ed' : EditorState} {b : TextBuffer UInt8}

theorem Shows.view {v : Int} (hs : Shows ed b) : Shows { ed with viewStartLine := v } b :=
  ⟨hs.lines, hs.line, hs.col⟩

theorem Shows.ite {p : Prop} [Decidable p] (h : Shows ed b) (h' : Shows ed' b) :
    Shows (if p then ed else ed') b := by
  split
  · exact h
  · exact h'

theorem Shows.goto {l : Int} {i : Nat} (hs : Shows ed b) (hi : i < b.lines.length) (hl : l = i) :
    Shows (if ed.cursorCol > (ed.text l).length then
        { ed with cursorLine := l, cursorCol := (ed.text l).length }
      else { ed with cursorLine := l }) (b.goto i) := by
  obtain ⟨hlines, hline, hcol⟩ := TextBuffer.goto_eq hi
  have hcur : b.lines.get ⟨i, hi⟩ = ed.text l := by
    have hget := hs.getElem? hi
    rw [List.getElem?_eq_getElem hi] at hget
    rw [hl]
    exact Option.some.inj hget
  rw [hcur] at hcol
  have hb := hs.col
  split
  · exact ⟨hlines.trans hs.lines, by rw [hline]; exact hl, by rw [hcol]; dsimp only; omega⟩
  · exact ⟨hlines.trans hs.lines, by rw [hline]; exact hl, by rw [hcol]; dsimp only; omega⟩

theorem Shows.up (hi : EditorInv ed) (hs : Shows ed b) :
    ∃ ed', moveUp ed = .ok ed' ∧ Moved ed ed' ∧ Shows ed' b.up := by
  have hline := hs.line
  have hcount := hs.count hi
  have hmax := hi.line_lt_max
  obtain ⟨ed₁, he, hm⟩ := moveUp_eq hi
  refine ⟨ed₁, he, hm, ?_⟩
  rw [moveUp] at he
  split at he
  · next hup =>
    have habove : HasLine { ed with cursorLine := ed.cursorLine - 1 } (ed.cursorLine - 1)
        (ed.text (ed.cursorLine - 1)) :=
      (hi.hasLine (by omega) (by omega)).of_lines rfl
    simp only [habove.lineLen, ok_bind] at he
    cases he
    have hb : b.up = b.goto (b.line - 1) := if_pos (by omega)
    rw [hb]
    have hgoto := hs.goto (l := ed.cursorLine - 1) (i := b.line - 1) (by
      have hlt := b.line_lt
      omega) (by omega)
    exact hgoto.view.ite hgoto
  · cases he
    have hb : b.up = b := if_neg (by omega)
    rw [hb]
    exact hs

theorem Shows.down (hi : EditorInv ed) (hs : Shows ed b) :
    ∃ ed', moveDown ed = .ok ed' ∧ Moved ed ed' ∧ Shows ed' b.down := by
  have hline := hs.line
  have hcount := hs.count hi
  have hmax := hi.count_le
  obtain ⟨ed₁, he, hm⟩ := moveDown_eq hi
  refine ⟨ed₁, he, hm, ?_⟩
  rw [moveDown] at he
  rw [TextBuffer.down]
  split at he
  · next hdown =>
    have hbelow : HasLine { ed with cursorLine := ed.cursorLine + 1 } (ed.cursorLine + 1)
        (ed.text (ed.cursorLine + 1)) :=
      (hi.hasLine (by omega) (by omega)).of_lines rfl
    simp only [hbelow.lineLen, ok_bind] at he
    cases he
    have hgoto := hs.goto (l := ed.cursorLine + 1) (i := b.line + 1) (by omega) (by omega)
    exact hgoto.view.ite hgoto
  · cases he
    rw [TextBuffer.goto_of_le (by omega)]
    exact hs

theorem Shows.right (hi : EditorInv ed) (hs : Shows ed b) :
    ∃ ed', moveRight ed = .ok ed' ∧ Moved ed ed' ∧ Shows ed' b.right := by
  have hcol := hs.col
  have hle : b.col ≤ b.current.length := b.col_le
  have hcurrent := hs.current
  obtain ⟨ed₁, he, hm⟩ := moveRight_eq hi
  refine ⟨ed₁, he, hm, ?_⟩
  rw [moveRight, hi.current.lineLen, ok_bind, ← hcurrent] at he
  cases he
  split
  · exact ⟨hs.lines, hs.line, by dsimp only [TextBuffer.right]; omega⟩
  · exact ⟨hs.lines, hs.line, by dsimp only [TextBuffer.right]; omega⟩

theorem Shows.left (hs : Shows ed b) : Shows (moveLeft ed) b.left := by
  have hcol := hs.col
  rw [moveLeft]
  split
  · exact ⟨hs.lines, hs.line, by dsimp only [TextBuffer.left]; omega⟩
  · exact ⟨hs.lines, hs.line, by dsimp only [TextBuffer.left]; omega⟩

theorem Shows.toEnd (hi : EditorInv ed) (hs : Shows ed b) :
    ∃ ed', moveEnd ed = .ok ed' ∧ Moved ed ed' ∧ Shows ed' b.toEnd := by
  obtain ⟨ed₁, he, hm⟩ := moveEnd_eq hi
  refine ⟨ed₁, he, hm, ?_⟩
  rw [moveEnd, hi.current.lineLen, ok_bind, ← hs.current] at he
  cases he
  exact ⟨hs.lines, hs.line, rfl⟩

end

theorem readCommand_keys {k : Nat} {cmd cmd' : Chars} {keys keys' : Keys} (hk : k + n = 15)
    (hroom : n < room) (he : readCommand room k cmd keys = .ok (cmd', keys')) :
    keys' = keys.drop ((typedKeys n keys).length + 1) := by
  induction n generalizing room k cmd keys with
  | zero =>
    obtain ⟨room, rfl⟩ := Nat.exists_eq_add_of_lt hroom
    rw [readCommand, if_neg (by omega)] at he
    obtain ⟨_, _, he⟩ := bind_eq_ok.1 he
    cases he
    rfl
  | succ n ih =>
    obtain ⟨room, rfl⟩ := Nat.exists_eq_add_of_lt hroom
    rw [readCommand] at he
    rw [typedKeys]
    by_cases hchar : keys 0 ≠ '\n'.toUInt8 ∧ keys 0 ≠ '\r'.toUInt8
    · rw [if_pos ⟨hchar.1, hchar.2, by omega⟩] at he
      rw [if_pos hchar]
      obtain ⟨_, _, he⟩ := bind_eq_ok.1 he
      have he' : readCommand (n + 1 + room) (k + 1 : Nat) _ keys.tail = .ok (cmd', keys') := he
      exact ih (by omega) (by omega) he'
    · rw [if_neg fun h => hchar ⟨h.1, h.2.1⟩] at he
      rw [if_neg hchar]
      obtain ⟨_, _, he⟩ := bind_eq_ok.1 he
      cases he
      rfl

section
variable {ed ed' : EditorState}

theorem insertChar_marked (hi : EditorInv ed) (hc : c ≠ 0)
    (hroom : (ed.text ed.cursorLine).length < maxLineLength - 1)
    (he : editorInsertChar ed c = .ok ed') : Marked ed ed' := by
  obtain ⟨col, hcol, _⟩ := hi.col_index
  obtain ⟨row, hins, _⟩ := insertChar_eq hi hc hcol rfl hroom
  cases hins.symm.trans he
  exact ⟨rfl, rfl, rfl⟩

theorem deleteChar_marked (hi : EditorInv ed) (hpos : ed.cursorCol > 0)
    (he : editorDeleteChar ed = .ok ed') : Marked ed ed' := by
  obtain ⟨col, hcol, _⟩ := hi.col_pred hpos
  obtain ⟨row, hdel, _⟩ := deleteChar_eq hi hcol rfl
  cases hdel.symm.trans he
  exact ⟨rfl, rfl, rfl⟩

theorem deleteUnder_marked (hi : EditorInv ed) (hlt : ed.cursorCol < (ed.text ed.cursorLine).length)
    (he : deleteUnderCursor ed = .ok ed') : Marked ed ed' := by
  obtain ⟨col, hcol, _⟩ := hi.col_index
  obtain ⟨row, hdel, _⟩ := deleteUnderCursor_eq hi hcol rfl (by omega)
  cases hdel.symm.trans he
  exact ⟨rfl, rfl, rfl⟩

theorem newLine_marked (hi : EditorInv ed) (hroom : ed.lineCount < maxLines - 1)
    (he : editorNewLine ed = .ok ed') : Marked ed ed' := by
  obtain ⟨col, hcol, _⟩ := hi.col_index
  obtain ⟨lines, hnew, _⟩ := newLine_eq hi hcol hroom
  cases hnew.symm.trans he
  exact ⟨rfl, rfl, rfl⟩

end

section
variable {s : Session} {e : TextEditor} {f : TextBuffer UInt8 → TextBuffer UInt8}
  {call : Except Fault EditorState}

theorem Follows.seen (h : Follows s e) :
    s.editor.buffer = e.text.lines ∧ s.fs = e.fs ∧ s.keys = e.keys ∧ s.running = e.running ∧
      s.editor.insertMode = e.inserting := by
  cases h with
  | mk hi hw hs => exact ⟨hs.lines.symm, rfl, rfl, rfl, rfl⟩

theorem Follows.lineLen (h : Follows s e) :
    s.editor.lineLen s.editor.cursorLine = .ok ((e.text.current.length : Nat) : Int) := by
  cases h with
  | @mk b hi hw hs =>
    have hcurrent : (s.showing b).text.current = s.editor.text s.editor.cursorLine := hs.current
    rw [hi.current.lineLen, hcurrent]

theorem Follows.skip (h : Follows s e) : Follows s.anyKey (e.skip 1) := by
  cases h with
  | mk hi hw hs => exact .mk (s := s.anyKey) hi hw hs

theorem Follows.mode (h : Follows s e) (m : Bool) :
    Follows { s with editor := { s.editor with insertMode := m } } (e.mode m) := by
  cases h with
  | mk hi hw hs =>
    have hs' : Shows { s.editor with insertMode := m } _ := ⟨hs.lines, hs.line, hs.col⟩
    exact .mk (s := { s with editor := { s.editor with insertMode := m } }) hi.flags hw hs'

theorem Follows.move (h : Follows s e)
    (hm : EditorInv s.editor → Shows s.editor e.text →
      ∃ ed, call = .ok ed ∧ Moved s.editor ed ∧ Shows ed (f e.text)) :
    ∃ ed, call = .ok ed ∧ Follows { s with editor := ed } (e.move f) := by
  cases h with
  | mk hi hw hs =>
    obtain ⟨ed, he, hmoved, hs'⟩ := hm hi hs
    refine ⟨ed, he, ?_⟩
    have hi' := hi.moved hmoved
    cases hmoved with
    | mk => exact .mk hi' hw hs'

theorem Follows.edit {room : Prop} [Decidable room] (h : Follows s e)
    (hr : EditorInv s.editor → Shows s.editor e.text →
      Refines s.editor call room (f e.text) ∧ (room → ∀ ed, call = .ok ed → Marked s.editor ed)) :
    ∃ ed, call = .ok ed ∧ Follows { s with editor := ed } (e.edit room f) := by
  cases h with
  | @mk b hi hw hs =>
    obtain ⟨hrefines, hmarked⟩ := hr hi hs
    by_cases hroom : room
    · obtain ⟨ed, he, hi', hs'⟩ := hrefines.1 hroom
      have hm := hmarked hroom ed he
      have hshow : (s.showing b).edit room f = ({ s with editor := ed } : Session).showing (f b) := by
        rw [TextEditor.edit, if_pos hroom]
        simp only [Session.showing, hm.name, hm.mode, hm.mark]
      rw [hshow]
      exact ⟨ed, he, .mk hi' hw hs'⟩
    · rw [TextEditor.edit, if_neg hroom]
      exact ⟨s.editor, hrefines.2 hroom, .mk hi hw hs⟩

theorem Follows.newLine (h : Follows s e) :
    ∃ ed, editorNewLine s.editor = .ok ed ∧ Follows { s with editor := ed } e.newLine :=
  h.edit fun hi hs => ⟨hs.newLine hi, fun hroom ed he => by
    have hcount := hs.count hi
    have hmax : maxLines = 1000 := rfl
    exact newLine_marked hi (by omega) he⟩

theorem Follows.deleteUnder (h : Follows s e) :
    ∃ ed, deleteUnderCursor s.editor = .ok ed ∧ Follows { s with editor := ed }
      (e.edit (e.text.col < e.text.current.length) .deleteUnder) :=
  h.edit fun hi hs => ⟨hs.deleteUnder hi, fun hlt ed he => by
    have hcol := hs.col
    rw [hs.current] at hlt
    exact deleteUnder_marked hi (by omega) he⟩

theorem Follows.type (h : Follows s e) :
    ∃ ed, insertKey s.editor c = .ok ed ∧ Follows { s with editor := ed } (e.type c) := by
  rw [insertKey, TextEditor.type]
  split
  · exact h.newLine
  split
  · exact h.edit fun hi hs => ⟨hs.delete hi, fun hpos ed he => by
      have hcol := hs.col
      exact deleteChar_marked hi (by omega) he⟩
  split
  · next hprint =>
    have hc : c ≠ 0 := by
      rintro rfl
      exact absurd hprint.1 (by decide)
    exact h.edit fun hi hs => ⟨hs.insert hi hc, fun hroom ed he =>
      insertChar_marked hi hc (hs.current ▸ hroom) he⟩
  · cases h with
    | mk hi hw hs => exact ⟨s.editor, rfl, .mk hi hw hs⟩

theorem Follows.leave (h : Follows s e) : Follows s.leaveInsertMode (e.mode false) := by
  have hmode := h.mode false
  cases h with
  | @mk b hi hw hs =>
    have hcond : (!s.readOnly && s.editor.insertMode) = s.editor.insertMode := by
      rw [hw]
      rfl
    rw [Session.leaveInsertMode, hcond]
    split
    · exact hmode
    · next hinsert =>
      have hshow : (s.showing b).mode false = s.showing b := by
        rw [TextEditor.mode, Session.showing, Bool.eq_false_iff.2 hinsert]
      rw [hshow]
      exact .mk hi hw hs

theorem Follows.escape (h : Follows s e) :
    ∃ s', escapeKey s = .ok s' ∧ Follows s' e.escape := by
  have hkeys : e.keys = s.keys := h.seen.2.2.1.symm
  rw [escapeKey, TextEditor.escape, hkeys]
  dsimp only
  have h₁ := h.skip
  have h₂ : Follows s.anyKey.anyKey (e.skip 2) := h₁.skip
  have hnext : s.anyKey.keys 0 = s.keys 1 := rfl
  split
  · rw [hnext, TextEditor.arrow]
    split
    · obtain ⟨ed, he, hf⟩ := h₂.move fun hi hs => hs.up hi
      exact ⟨_, bind_eq_ok.2 ⟨ed, he, rfl⟩, hf⟩
    split
    · obtain ⟨ed, he, hf⟩ := h₂.move fun hi hs => hs.down hi
      exact ⟨_, bind_eq_ok.2 ⟨ed, he, rfl⟩, hf⟩
    split
    · obtain ⟨ed, he, hf⟩ := h₂.move fun hi hs => hs.right hi
      exact ⟨_, bind_eq_ok.2 ⟨ed, he, rfl⟩, hf⟩
    split
    · obtain ⟨ed, he, hf⟩ := h₂.move fun hi hs => ⟨_, rfl, moveLeft_moved hi, hs.left⟩
      cases he
      exact ⟨_, rfl, hf⟩
    · exact ⟨_, rfl, h₂.leave⟩
  · exact ⟨_, rfl, h₁.leave⟩

theorem Follows.marked {m : Bool} {saves : List (Int × EditorState)} (h : Follows s e) :
    Follows { s with editor := { s.editor with modified := m }, fs := fs', saves }
      { e with unsaved := m, fs := fs' } := by
  cases h with
  | @mk b hi hw hs =>
    have hs' : Shows { s.editor with modified := m } b := ⟨hs.lines, hs.line, hs.col⟩
    have hf : Follows { s with editor := { s.editor with modified := m }, fs := fs', saves }
        (Session.showing _ b) := .mk hi.flags hw hs'
    exact hf

theorem Follows.save (h : Follows s e) :
    SameEnd (fun (p : Int × Session) (q : Bool × TextEditor) => (p.1 = 0 ↔ q.1 = true) ∧
      Follows p.2 q.2) s.save e.save := by
  cases h with
  | @mk b hi hw hs =>
    have hcall : fsCall s.fs (.writeFile s.editor.filename.toCStr (savedBytes 0 b.lines)
        (savedBytes 0 b.lines).length) = fsWriteFile s.fs s.editor.filename.toCStr
          (savedBytes 0 s.editor.buffer) (savedBytes 0 s.editor.buffer).length := by
      rw [hs.lines]
      rfl
    rw [Session.save, TextEditor.save, editorSaveFile_data, hi.saved, ok_bind]
    dsimp only [Session.showing]
    rw [hcall]
    cases fsWriteFile s.fs s.editor.filename.toCStr (savedBytes 0 s.editor.buffer)
        (savedBytes 0 s.editor.buffer).length with
    | error g => exact .error
    | ok p =>
      obtain ⟨r, fs⟩ := p
      rw [ok_bind, ok_bind]
      dsimp only
      by_cases hr : r = fsSuccess
      · rw [if_pos hr, ok_bind]
        have hmark : (s.editor.modified && !decide (r = fsSuccess)) = false := by
          rw [decide_eq_true hr, Bool.not_true, Bool.and_false]
        rw [hmark]
        exact .ok ⟨iff_of_true rfl (decide_eq_true hr), (Follows.mk hi hw hs).marked⟩
      · rw [if_neg hr, ok_bind]
        have hmark : (s.editor.modified && !decide (r = fsSuccess)) = s.editor.modified := by
          rw [decide_eq_false hr, Bool.not_false, Bool.and_true]
        rw [hmark]
        have hnot : ¬decide (r = fsSuccess) = true := fun hd => hr (of_decide_eq_true hd)
        exact .ok ⟨iff_of_false (show ¬(-1 : Int) = 0 by decide) hnot, (Follows.mk hi hw hs).marked⟩

theorem Follows.stop (h : Follows s e) : Follows { s with running := false } { e with running := false } := by
  cases h with
  | mk hi hw hs => exact .mk (s := { s with running := false }) hi hw hs

theorem Follows.command (h : Follows s e) : SameEnd Follows (commandPrompt s) e.command := by
  have hkeys : e.keys = s.keys := h.seen.2.2.1.symm
  obtain ⟨cmd, keys', he, hc⟩ := readCommand_text s.keys
  have hrest : keys' = s.keys.drop ((typedKeys 15 s.keys).length + 1) :=
    readCommand_keys (k := 0) rfl (by decide) he
  have h₁ : Follows { s with keys := keys' } (e.skip ((typedKeys 15 s.keys).length + 1)) := by
    rw [hrest]
    cases h with
    | mk hi hw hs =>
      exact .mk (s := { s with keys := s.keys.drop ((typedKeys 15 s.keys).length + 1) }) hi hw hs
  rw [commandPrompt, TextEditor.command, he, ok_bind, hkeys]
  dsimp only
  rw [if_congr (isCommand_iff hc) rfl rfl, if_congr (isCommand_iff hc) rfl rfl,
    if_congr (isCommand_iff hc) rfl rfl, if_congr (isCommand_iff hc) rfl rfl]
  split
  · apply h₁.save.bind
    rintro ⟨r, s'⟩ ⟨saved, e'⟩ ⟨hr, hf⟩
    dsimp only at hr hf ⊢
    by_cases hzero : r = 0
    · rw [if_pos hzero, if_pos (hr.1 hzero)]
      exact .ok hf.skip
    · rw [if_neg hzero, if_neg fun hsaved => hzero (hr.2 hsaved)]
      exact .ok hf
  split
  · have hmark : e.unsaved = s.editor.modified := by cases h; rfl
    have hsame : (e.skip ((typedKeys 15 s.keys).length + 1)).unsaved = s.editor.modified := hmark
    by_cases hm : s.editor.modified = true
    · rw [if_pos hm, if_pos (hsame.trans hm)]
      exact .ok h₁.skip
    · rw [if_neg hm, if_neg fun h => hm (hsame.symm.trans h)]
      exact .ok h₁.stop
  split
  · exact .ok h₁.stop
  split
  · apply h₁.save.bind
    rintro ⟨r, s'⟩ ⟨saved, e'⟩ ⟨hr, hf⟩
    dsimp only at hr hf ⊢
    by_cases hzero : r = 0
    · rw [if_pos hzero, if_pos (hr.1 hzero)]
      exact .ok hf.stop
    · rw [if_neg hzero, if_neg fun hsaved => hzero (hr.2 hsaved)]
      exact .ok hf.skip
  · exact .ok h₁.skip

theorem Follows.key (h : Follows s e) : SameEnd Follows (commandKey s c) (e.key c) := by
  rw [commandKey, TextEditor.key]
  split
  · exact .ok (h.mode true)
  split
  · obtain ⟨ed, he, hf⟩ := h.move fun hi hs => hs.toEnd hi
    rw [he, ok_bind]
    exact .ok (hf.mode true)
  split
  · obtain ⟨ed, he, hf⟩ := h.move fun hi hs => hs.toEnd hi
    obtain ⟨ed', he', hf'⟩ := hf.newLine
    rw [he, ok_bind]
    dsimp only at he'
    rw [he', ok_bind]
    exact .ok (hf'.mode true)
  split
  · obtain ⟨ed, he, hf⟩ := h.move fun hi hs => hs.down hi
    rw [he, ok_bind]
    exact .ok hf
  split
  · obtain ⟨ed, he, hf⟩ := h.move fun hi hs => hs.up hi
    rw [he, ok_bind]
    exact .ok hf
  split
  · obtain ⟨ed, he, hf⟩ := h.move fun hi hs => ⟨_, rfl, moveLeft_moved hi, hs.left⟩
    cases he
    exact .ok hf
  split
  · obtain ⟨ed, he, hf⟩ := h.move fun hi hs => hs.right hi
    rw [he, ok_bind]
    exact .ok hf
  split
  · obtain ⟨ed, he, hf⟩ := h.deleteUnder
    rw [he, ok_bind]
    exact .ok hf
  split
  · exact h.command
  · exact .ok h.skip

theorem Follows.step (h : Follows s e) : SameEnd Follows (editorStep s ()) (e.step ()) := by
  obtain ⟨_, _, hkeys, hrun, hmode⟩ := h.seen
  have hwrite : ¬s.anyKey.readOnly = true := by
    cases h with
    | mk hi hw hs => exact Bool.eq_false_iff.1 hw
  rw [editorStep, TextEditor.step, ← hrun]
  split
  · unfold editorIter
    dsimp only
    rw [← hkeys]
    split
    · obtain ⟨s', he, hf⟩ := h.skip.escape
      rw [he]
      exact .ok hf
    have hmode' : (e.skip 1).inserting = s.anyKey.editor.insertMode := hmode.symm
    rw [hmode']
    split
    · obtain ⟨ed, he, hf⟩ := h.skip.type
      rw [he, ok_bind]
      exact .ok hf
    · exact h.skip.key
  · exact .ok h

end

section
variable {ed ed' : EditorState} {ls : List (List UInt8)}

theorem Loaded.shows (hf : BlankState ed) (hl : Loaded ed ed' ls) : Shows ed' (.start ls) := by
  obtain ⟨lines, n, hframe⟩ := hl.frame
  have hline : ed'.cursorLine = 0 := (congrArg EditorState.cursorLine hframe).trans hf.cursorLine
  have hcol : ed'.cursorCol = 0 := (congrArg EditorState.cursorCol hframe).trans hf.cursorCol
  have hpos := hl.count_pos
  have hbuffer := hl.buffer
  cases ls with
  | nil => exact absurd hpos (by decide)
  | cons l ls => exact ⟨hbuffer.symm, hline, hcol⟩

theorem Loaded.follows (hf : BlankState ed) (hl : Loaded ed ed' ls) :
    Follows ⟨ed', fs, keys, true, false, []⟩
      ⟨.start ls, ed.filename.toCStr, ed.insertMode, ed.modified, fs, keys, true⟩ := by
  have hshows := hl.shows hf
  have hi := hf.loaded_start hl
  obtain ⟨lines, n, rfl⟩ := hl.frame
  exact .mk (s := ⟨_, fs, keys, true, false, []⟩) hi rfl hshows

theorem Loaded.follows_last (hf : BlankState ed) (hl : Loaded ed ed' ls) (fs : Filesystem)
    (keys : Keys) :
    Follows ⟨{ ed' with cursorLine := ed'.lineCount - 1 }, fs, keys, true, false, []⟩
      ⟨(TextBuffer.start ls).bottom, ed.filename.toCStr, ed.insertMode, ed.modified, fs, keys, true⟩ := by
  have hs := hl.shows hf
  have hcount := hs.count (hf.loaded_start hl)
  have hlt := (TextBuffer.start ls).line_lt
  have hi : EditorInv { ed' with cursorLine := ed'.lineCount - 1 } :=
    hf.loaded hl (by omega) (by omega)
  obtain ⟨hlines, hline, hcol⟩ := TextBuffer.goto_eq (b := .start ls)
    (i := (TextBuffer.start ls).lines.length - 1) (by omega)
  have hzero : (TextBuffer.start ls).col = 0 := by cases ls <;> rfl
  have hat : ed'.cursorCol = (TextBuffer.start ls).col := hs.col
  have hshows : Shows { ed' with cursorLine := ed'.lineCount - 1 } (TextBuffer.start ls).bottom := by
    refine ⟨hlines.trans hs.lines, ?_, ?_⟩
    · rw [TextBuffer.bottom, hline]
      dsimp only
      omega
    · rw [TextBuffer.bottom, hcol]
      dsimp only
      omega
  obtain ⟨lines, n, rfl⟩ := hl.frame
  exact .mk (s := ⟨_, fs, keys, true, false, []⟩) hi rfl hshows

theorem opened_follows (hf : BlankState ed)
    (hr : fsReadFile fs filename bufferSize (bufferSize - 1) = .ok (r, data)) (choice : UInt8)
    (keys : Keys) :
    ∃ ed', openExisting ed fs filename choice = .ok ed' ∧
      Follows ⟨ed', fs, keys, true, false, []⟩ (TextEditor.opened
        ⟨.start [], ed.filename.toCStr, ed.insertMode, ed.modified, fs, keys, true⟩ data choice) := by
  obtain ⟨ed₁, hload, hl⟩ := editorLoadFile_loaded hf.lines hr
  rw [openExisting, TextEditor.opened]
  split
  · obtain ⟨ed₂, hend, h₂⟩ := (hl.follows_last hf fs keys).move fun hi hs => hs.toEnd hi
    dsimp only at hend h₂
    have hlen : ed₂.lineLen ed₂.cursorLine =
        .ok (((TextBuffer.start (loadedLines data)).bottom.toEnd.current.length : Nat) : Int) :=
      h₂.lineLen
    rw [hload, ok_bind]
    dsimp only
    rw [hend, ok_bind, hlen, ok_bind]
    by_cases hpos : 0 < (TextBuffer.start (loadedLines data)).bottom.toEnd.current.length
    · obtain ⟨ed₃, hnew, h₃⟩ := h₂.newLine
      dsimp only at hnew
      rw [if_pos (by omega), hnew, ok_bind, if_pos hpos]
      exact ⟨_, rfl, h₃.mode true⟩
    · rw [if_neg (by omega), if_neg hpos]
      exact ⟨_, rfl, h₂.mode true⟩
  split
  · obtain ⟨ed₂, hempty, hl₂⟩ := hf.emptyBuffer
    rw [hempty, ok_bind]
    exact ⟨_, rfl, (hl₂.follows hf).marked⟩
  · rw [hload, ok_bind]
    exact ⟨_, rfl, hl.follows hf⟩

end

theorem start_follows (fs : Filesystem) (filename : CStr) (keys : Keys) :
    SameEnd Follows (editorStart fs filename keys) (TextEditor.start fs filename keys) := by
  rw [editorStart, TextEditor.start]
  by_cases hlen : filename.bytes.length < 256
  swap
  · rw [strcpy, dif_neg hlen, if_neg hlen]
    exact .error
  rw [strcpy, dif_pos hlen, if_pos hlen]
  simp only [checked, ok_bind]
  obtain ⟨ed, hed⟩ : ∃ ed : EditorState, ed = { editorZero ⟨filename, hlen⟩ with
      language := detectLanguage filename, viewHeight := 20 } := ⟨_, rfl⟩
  have hf : BlankState ed := hed ▸ .start _
  rw [← hed]
  cases hr : fsReadFile fs filename bufferSize (bufferSize - 1) with
  | error e => exact .error
  | ok p =>
    obtain ⟨r, data⟩ := p
    rw [ok_bind, ok_bind]
    dsimp only
    have hread : (decide (r ≥ 0) && decide ('1'.toUInt8 = '4'.toUInt8)) = false := Bool.and_false _
    rw [hread]
    split
    · obtain ⟨ed', hopen, hfollows⟩ := opened_follows hf hr (keys 0) keys.tail.tail
      rw [hopen, ok_bind]
      subst hed
      exact .ok hfollows
    · obtain ⟨ed', hempty, hl⟩ := hf.emptyBuffer
      rw [hempty, ok_bind]
      subst hed
      exact .ok (hl.follows hf)

/-- However a session is started and whatever is typed, after every number of iterations it is the
text editor in the same place, or both have come to the same fault. -/
theorem sessions_edit_text (fs : Filesystem) (filename : CStr) (keys : Keys) (n : Nat) :
    SameEnd Follows
      (editorStart fs filename keys >>= fun s => exec editorStep s (List.replicate n ()))
      (TextEditor.start fs filename keys >>= fun e => exec TextEditor.step e (List.replicate n ())) :=
  (start_follows fs filename keys).bind fun _ _ h =>
    .exec (fun _ _ _ h => h.step) h (List.replicate n ())

end ChipOS
