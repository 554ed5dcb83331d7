import ChipOS.Fs.Filesystem
import ChipOS.Lib.CharArray

namespace ChipOS
open CharArray (Chars)
set_option autoImplicit true

def maxLines : Nat := 1000
def maxLineLength : Nat := 256

def bufferSize : Nat := 4096

inductive Language where
  | plain
  | c
  | verilog
  | systemVerilog
  | riscvAsm
  | unknown
deriving DecidableEq, Repr

/-- The static state of the editor. `lines` has `maxLines` rows of `maxLineLength` bytes. -/
structure EditorState where
  filename : CBuf 256
  lines : Int → Chars
  lineCount : Int
  cursorLine : Int
  cursorCol : Int
  viewStartLine : Int
  viewHeight : Int
  modified : Bool
  insertMode : Bool
  language : Language

/-- The name from its last dot on. -/
def lastDot : List UInt8 → Option (List UInt8)
  | [] => none
  | c :: cs =>
    match lastDot cs with
    | some ext => some ext
    | none => if c = '.'.toUInt8 then some (c :: cs) else none

def detectLanguage (filename : CStr) : Language :=
  if filename.bytes.length < 2 then .plain
  else
    match lastDot filename.bytes with
    | none => .plain
    | some ext =>
      let isExt (s : String) : Bool := strcmp ext (CStr.ofString s).bytes = 0
      if isExt ".c" || isExt ".h" then .c
      else if isExt ".cpp" || isExt ".cxx" || isExt ".cc" || isExt ".hpp" then .c
      else if isExt ".v" then .verilog
      else if isExt ".sv" || isExt ".svh" then .systemVerilog
      else if isExt ".s" || isExt ".asm" then .riscvAsm
      else .plain

/-- `lines[line]` -/
def EditorState.row (ed : EditorState) (line : Int) : Except Fault Chars :=
  if 0 ≤ line ∧ line < maxLines then .ok (ed.lines line)
  else .error (.outOfRange .editorLines)

def EditorState.setRow (ed : EditorState) (line : Int) (row : Chars) : EditorState :=
  { ed with lines := Function.update ed.lines line row }

/-- `strlen(lines[line])` -/
def EditorState.lineLen (ed : EditorState) (line : Int) : Except Fault Int := do
  let row ← ed.row line
  checked .editorLines (CharArray.strlen maxLineLength row)

/-- `lines[line][col] = c` -/
def EditorState.putChar (ed : EditorState) (line col : Int) (c : UInt8) :
    Except Fault EditorState := do
  let row ← ed.row line
  let row ← checked .editorLines (CharArray.set maxLineLength row col c)
  return ed.setRow line row

/-- `strcpy(lines[dst], lines[src] + col)` -/
def EditorState.copyLine (ed : EditorState) (dst src col : Int) : Except Fault EditorState := do
  let dstRow ← ed.row dst
  let srcRow ← ed.row src
  let row ← checked .editorLines
    (CharArray.strcpy maxLineLength dstRow 0 maxLineLength srcRow col)
  return ed.setRow dst row

/-- The loop of `editor_load_file` from the index `i` on, with `room` bytes left to read. -/
def loadLoop (buffer : Chars) : Nat → Int → Int → EditorState → Except Fault EditorState
  | 0, _, _, ed => .ok ed
  | room + 1, i, linePos, ed =>
    if ed.lineCount < maxLines then do
      let c ← checked .loadBuffer (CharArray.get bufferSize buffer i)
      if c = '\n'.toUInt8 ∨ c = 0 then do
        let ed ← ed.putChar ed.lineCount linePos 0
        loadLoop buffer room (i + 1) 0 { ed with lineCount := ed.lineCount + 1 }
      else if linePos < maxLineLength - 1 then do
        let ed ← ed.putChar ed.lineCount linePos c
        loadLoop buffer room (i + 1) (linePos + 1) ed
      else loadLoop buffer room (i + 1) linePos ed
    else .ok ed

def EditorState.emptyBuffer (ed : EditorState) : Except Fault EditorState :=
  ({ ed with lineCount := 1 } : EditorState).putChar 0 0 0

def editorLoadFile (ed : EditorState) (fs : Filesystem) (filename : CStr) :
    Except Fault (Int × EditorState) := do
  let (bytesRead, data) ← fsReadFile fs filename bufferSize (bufferSize - 1)
  if bytesRead < 0 then
    let ed ← ed.emptyBuffer
    return (0, ed)
  else
    let buffer : Chars := fun i => data[i.toNat]?.getD 0
    let buffer ← checked .loadBuffer (CharArray.set bufferSize buffer bytesRead 0)
    let ed ← loadLoop buffer bytesRead.toNat 0 0 { ed with lineCount := 0 }
    if ed.lineCount = 0 then
      let ed ← ed.emptyBuffer
      return (0, ed)
    else return (0, ed)

/-- The loop of `editor_save_file` from the line `i` on, with `n` lines left. -/
def saveLoop (ed : EditorState) : Nat → Int → Int → Chars → Except Fault (Int × Chars)
  | 0, _, pos, buffer => .ok (pos, buffer)
  | n + 1, i, pos, buffer =>
    if pos < bufferSize - 1 then do
      let lineLen ← ed.lineLen i
      if pos + lineLen + 1 < bufferSize then do
        let row ← ed.row i
        let buffer ← checked .saveBuffer (CharArray.strcpy bufferSize buffer pos maxLineLength row 0)
        if i < ed.lineCount - 1 then do
          let buffer ← checked .saveBuffer
            (CharArray.set bufferSize buffer (pos + lineLen) '\n'.toUInt8)
          saveLoop ed n (i + 1) (pos + lineLen + 1) buffer
        else saveLoop ed n (i + 1) (pos + lineLen) buffer
      else saveLoop ed n (i + 1) pos buffer
    else .ok (pos, buffer)

/-- What the uninitialised `buffer` holds before the loop is never read. -/
def editorSaveFile (ed : EditorState) (fs : Filesystem) :
    Except Fault (Int × EditorState × Filesystem) := do
  let (pos, buffer) ← saveLoop ed ed.lineCount.toNat 0 0 fun _ => 0
  let buffer ← checked .saveBuffer (CharArray.set bufferSize buffer pos 0)
  let (result, fs) ← fsWriteFile fs ed.filename.toCStr (CharArray.bytes buffer pos.toNat) pos.toNat
  if result = fsSuccess then return (0, { ed with modified := false }, fs)
  else return (-1, ed, fs)

def editorInsertChar (ed : EditorState) (c : UInt8) : Except Fault EditorState := do
  let lineLen ← ed.lineLen ed.cursorLine
  if lineLen < maxLineLength - 1 then
    let row ← ed.row ed.cursorLine
    let row ← checked .editorLines
      (CharArray.shiftRight maxLineLength ed.cursorCol (lineLen - ed.cursorCol).toNat row)
    let row ← checked .editorLines (CharArray.set maxLineLength row ed.cursorCol c)
    let row ← checked .editorLines (CharArray.set maxLineLength row (lineLen + 1) 0)
    return { ed.setRow ed.cursorLine row with cursorCol := ed.cursorCol + 1, modified := true }
  else return ed

/-- Shifts the characters of the cursor's line from the index `low + 1` on to the left. -/
def EditorState.eraseChar (ed : EditorState) (low : Int) : Except Fault EditorState := do
  let lineLen ← ed.lineLen ed.cursorLine
  let row ← ed.row ed.cursorLine
  let row ← checked .editorLines
    (CharArray.shiftLeft maxLineLength (lineLen - low).toNat low row)
  return ed.setRow ed.cursorLine row

def editorDeleteChar (ed : EditorState) : Except Fault EditorState := do
  if ed.cursorCol > 0 then
    let ed ← ed.eraseChar (ed.cursorCol - 1)
    return { ed with cursorCol := ed.cursorCol - 1, modified := true }
  else return ed

/-- `for (i = low + n; i > low; i--) strcpy(lines[i], lines[i - 1])` -/
def shiftLines (low : Int) : Nat → EditorState → Except Fault EditorState
  | 0, ed => .ok ed
  | n + 1, ed => do
    let ed ← ed.copyLine (low + n + 1) (low + n) 0
    shiftLines low n ed

def editorNewLine (ed : EditorState) : Except Fault EditorState := do
  if ed.lineCount < maxLines - 1 then
    let ed ← shiftLines (ed.cursorLine + 1) (ed.lineCount - (ed.cursorLine + 1)).toNat ed
    let ed := { ed with lineCount := ed.lineCount + 1 }
    let ed ← ed.copyLine (ed.cursorLine + 1) ed.cursorLine ed.cursorCol
    let ed ← ed.putChar ed.cursorLine ed.cursorCol 0
    return { ed with cursorLine := ed.cursorLine + 1, cursorCol := 0, modified := true }
  else return ed

abbrev Keys := Nat → UInt8

def Keys.tail (keys : Keys) : Keys := fun n => keys (n + 1)

/-- The local and static state of `editor_start` at the head of its main loop. `saves` is a
record of the calls of `editor_save_file`, the last first: what each one returned and the
state it left. -/
structure Session where
  editor : EditorState
  fs : Filesystem
  keys : Keys
  running : Bool
  readOnly : Bool
  saves : List (Int × EditorState)

/-- `console_getchar` where the key does not matter. -/
def Session.anyKey (s : Session) : Session := { s with keys := s.keys.tail }

/-- The keys `UP`, and `k` outside insert mode. -/
def moveUp (ed : EditorState) : Except Fault EditorState := do
  if ed.cursorLine > 0 then
    let ed := { ed with cursorLine := ed.cursorLine - 1 }
    let lineLen ← ed.lineLen ed.cursorLine
    let ed := if ed.cursorCol > lineLen then { ed with cursorCol := lineLen } else ed
    return if ed.cursorLine < ed.viewStartLine then { ed with viewStartLine := ed.cursorLine } else ed
  else return ed

/-- The keys `DOWN`, and `j` outside insert mode. -/
def moveDown (ed : EditorState) : Except Fault EditorState := do
  if ed.cursorLine < ed.lineCount - 1 then
    let ed := { ed with cursorLine := ed.cursorLine + 1 }
    let lineLen ← ed.lineLen ed.cursorLine
    let ed := if ed.cursorCol > lineLen then { ed with cursorCol := lineLen } else ed
    return if ed.cursorLine ≥ ed.viewStartLine + ed.viewHeight then
      { ed with viewStartLine := ed.cursorLine - ed.viewHeight + 1 } else ed
  else return ed

/-- The keys `RIGHT`, and `l` outside insert mode. -/
def moveRight (ed : EditorState) : Except Fault EditorState := do
  let lineLen ← ed.lineLen ed.cursorLine
  return if ed.cursorCol < lineLen then { ed with cursorCol := ed.cursorCol + 1 } else ed

/-- The keys `LEFT`, and `h` outside insert mode. -/
def moveLeft (ed : EditorState) : EditorState :=
  if ed.cursorCol > 0 then { ed with cursorCol := ed.cursorCol - 1 } else ed

/-- The keys `a` and `A` up to the change of mode. -/
def moveEnd (ed : EditorState) : Except Fault EditorState := do
  let lineLen ← ed.lineLen ed.cursorLine
  return { ed with cursorCol := lineLen }

/-- The key `x`. -/
def deleteUnderCursor (ed : EditorState) : Except Fault EditorState := do
  let lineLen ← ed.lineLen ed.cursorLine
  if ed.cursorCol < lineLen then
    let ed ← ed.eraseChar ed.cursorCol
    return { ed with modified := true }
  else return ed

def Session.leaveInsertMode (s : Session) : Session :=
  if !s.readOnly && s.editor.insertMode then
    { s with editor := { s.editor with insertMode := false } }
  else s

/-- What follows `ESC`. -/
def escapeKey (s : Session) : Except Fault Session := do
  let seq1 := s.keys 0
  let s := s.anyKey
  if seq1 = '['.toUInt8 then
    let seq2 := s.keys 0
    let s := s.anyKey
    if seq2 = 'A'.toUInt8 then
      let editor ← moveUp s.editor
      return { s with editor }
    else if seq2 = 'B'.toUInt8 then
      let editor ← moveDown s.editor
      return { s with editor }
    else if seq2 = 'C'.toUInt8 then
      let editor ← moveRight s.editor
      return { s with editor }
    else if seq2 = 'D'.toUInt8 then return { s with editor := moveLeft s.editor }
    else return s.leaveInsertMode
  else return s.leaveInsertMode

/-- The loop that reads `cmd` at the `:` prompt. It stops at 15 characters, after reading one
more. -/
def readCommand : Nat → Int → Chars → Keys → Except Fault (Chars × Keys)
  | 0, _, _, _ => .error .outOfFuel
  | room + 1, cmdIdx, cmd, keys =>
    let cmdChar := keys 0
    if cmdChar ≠ '\n'.toUInt8 ∧ cmdChar ≠ '\r'.toUInt8 ∧ cmdIdx < 15 then do
      let cmd ← checked .commandLine (CharArray.set 16 cmd cmdIdx cmdChar)
      readCommand room (cmdIdx + 1) cmd keys.tail
    else do
      let cmd ← checked .commandLine (CharArray.set 16 cmd cmdIdx 0)
      return (cmd, keys.tail)

def isCommand (cmd : Chars) (name : String) : Bool :=
  strcmp (CharArray.text 16 cmd) (CStr.ofString name).bytes = 0

def readOnlyPrompt (s : Session) : Except Fault Session := do
  let (cmd, keys) ← readCommand 16 0 (fun _ => 0) s.keys
  let s := { s with keys }
  if isCommand cmd "q" then return { s with running := false }
  else return s.anyKey

def readOnlyKey (s : Session) (input : UInt8) : Except Fault Session := do
  if input = 'j'.toUInt8 then
    let editor ← moveDown s.editor
    return { s with editor }
  else if input = 'k'.toUInt8 then
    let editor ← moveUp s.editor
    return { s with editor }
  else if input = 'h'.toUInt8 then return { s with editor := moveLeft s.editor }
  else if input = 'l'.toUInt8 then
    let editor ← moveRight s.editor
    return { s with editor }
  else if input = ':'.toUInt8 then readOnlyPrompt s
  else return s

def insertKey (ed : EditorState) (input : UInt8) : Except Fault EditorState :=
  if input = '\n'.toUInt8 ∨ input = '\r'.toUInt8 then editorNewLine ed
  else if input = 127 ∨ input = 8 then editorDeleteChar ed
  else if input ≥ 32 ∧ input ≤ 126 then editorInsertChar ed input
  else .ok ed

def Session.save (s : Session) : Except Fault (Int × Session) := do
  let (result, editor, fs) ← editorSaveFile s.editor s.fs
  return (result, { s with editor, fs, saves := (result, editor) :: s.saves })

def commandPrompt (s : Session) : Except Fault Session := do
  let (cmd, keys) ← readCommand 16 0 (fun _ => 0) s.keys
  let s := { s with keys }
  if isCommand cmd "w" then
    let (result, s) ← s.save
    return if result = 0 then s.anyKey else s
  else if isCommand cmd "q" then
    return if s.editor.modified then s.anyKey else { s with running := false }
  else if isCommand cmd "q!" then return { s with running := false }
  else if isCommand cmd "wq" then
    let (result, s) ← s.save
    return if result = 0 then { s with running := false } else s.anyKey
  else return s.anyKey -- `h`, `help` and unknown commands print something

def commandKey (s : Session) (input : UInt8) : Except Fault Session := do
  if input = 'i'.toUInt8 then return { s with editor := { s.editor with insertMode := true } }
  else if input = 'a'.toUInt8 ∨ input = 'A'.toUInt8 then
    let editor ← moveEnd s.editor
    return { s with editor := { editor with insertMode := true } }
  else if input = 'o'.toUInt8 then
    let editor ← moveEnd s.editor
    let editor ← editorNewLine editor
    return { s with editor := { editor with insertMode := true } }
  else if input = 'j'.toUInt8 then
    let editor ← moveDown s.editor
    return { s with editor }
  else if input = 'k'.toUInt8 then
    let editor ← moveUp s.editor
    return { s with editor }
  else if input = 'h'.toUInt8 then return { s with editor := moveLeft s.editor }
  else if input = 'l'.toUInt8 then
    let editor ← moveRight s.editor
    return { s with editor }
  else if input = 'x'.toUInt8 then
    let editor ← deleteUnderCursor s.editor
    return { s with editor }
  else if input = ':'.toUInt8 then commandPrompt s
  else return s.anyKey

/-- One iteration of the main loop of `editor_start`. -/
def editorIter (s : Session) : Except Fault Session := do
  let input := s.keys 0
  let s := s.anyKey
  if input = 27 then escapeKey s
  else if s.readOnly then readOnlyKey s input
  else if s.editor.insertMode then
    let editor ← insertKey s.editor input
    return { s with editor }
  else commandKey s input

/-- The loop's test and one iteration. Nothing happens once the loop is left. -/
def editorStep (s : Session) (_ : Unit) : Except Fault Session :=
  if s.running then editorIter s else .ok s

/-- `memset` of the state to 0, and the copy of the name. -/
def editorZero (filename : CBuf 256) : EditorState where
  filename
  lines := fun _ _ => 0
  lineCount := 0
  cursorLine := 0
  cursorCol := 0
  viewStartLine := 0
  viewHeight := 0
  modified := false
  insertMode := false
  language := .plain

/-- The menu of `editor_start` for a file that exists. -/
def openExisting (ed : EditorState) (fs : Filesystem) (filename : CStr) (choice : UInt8) :
    Except Fault EditorState := do
  if choice = '2'.toUInt8 then
    let (_, ed) ← editorLoadFile ed fs filename
    let ed := { ed with cursorLine := ed.lineCount - 1 }
    let ed ← moveEnd ed
    let lineLen ← ed.lineLen ed.cursorLine
    let ed ← if lineLen > 0 then editorNewLine ed else .ok ed
    return { ed with insertMode := true }
  else if choice = '3'.toUInt8 then
    let ed ← ed.emptyBuffer
    return { ed with modified := true }
  else -- `1`, `4` and an invalid choice
    let (_, ed) ← editorLoadFile ed fs filename
    return ed

/-- `editor_start` up to its main loop. The menu answer is in a variable of its own, which
shadows the `choice` that the read-only mode depends on. -/
def editorStart (fs : Filesystem) (filename : CStr) (keys : Keys) : Except Fault Session := do
  let name ← checked .editorFilename (strcpy 256 filename)
  let ed := { editorZero name with language := detectLanguage filename, viewHeight := 20 }
  let choice := '1'.toUInt8
  let (bytesRead, _) ← fsReadFile fs filename bufferSize (bufferSize - 1)
  let readOnly : Bool := bytesRead ≥ 0 && choice = '4'.toUInt8
  if bytesRead ≥ 0 then
    let menuChoice := keys 0
    let editor ← openExisting ed fs filename menuChoice
    return { editor, fs, keys := keys.tail.tail, running := true, readOnly, saves := [] }
  else
    let editor ← ed.emptyBuffer
    return { editor, fs, keys, running := true, readOnly, saves := [] }

end ChipOS
