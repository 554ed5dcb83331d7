import ChipOS.Editor.Editor
import ChipOS.Fs.Tokens
import ChipOS.Shell.Calc
import ChipOS.Shell.Cat
import ChipOS.Shell.EditInput
import ChipOS.Shell.Files
import ChipOS.Shell.Grep
import ChipOS.Shell.History
import ChipOS.Shell.Language
import ChipOS.Shell.Syntax
import ChipOS.Shell.System

namespace ChipOS
open CharArray (Chars)
open Run
set_option autoImplicit true

/-- Why the shell does not come to its next prompt. -/
inductive Stop where
  | fault (f : Fault)
  | promptOverrun
  | waits
deriving DecidableEq, Repr

def stops : Except Fault α → Except Stop α := Except.mapError .fault

/-- A call that may wait for more input. -/
def awaits (r : Except Fault (Option α)) : Except Stop α :=
  stops r >>= fun o => o.elim (.error .waits) .ok

/-- What is typed while a command runs: the bytes that `edit` reads, and the keys of the code
editor with how often its main loop runs on them. -/
structure CommandInput where
  bytes : List UInt8
  keys : Keys
  loops : Nat

/-- A command: what it prints, and the file system after it. -/
abbrev Handler := Heap → Filesystem → CommandInput → List CStr → Except Stop (List Print × Filesystem)

/-- The lines that `cmd_edit` does not read past. -/
def endsEdit (line : List UInt8) : Bool :=
  strcmp line (CStr.ofString ":q").bytes = 0 || strcmp line (CStr.ofString ":wq").bytes = 0 ||
    line.length = 0

/-- `cmd_edit` on the bytes that are typed at it. -/
def cmdEditTyped : Handler := fun _ fs input argv =>
  match argv with
  | _ :: _ :: _ =>
    let lines := editInput input.bytes.length input.bytes
    if lines.any endsEdit then stops (cmdEdit fs lines argv) else .error .waits
  | _ => stops (cmdEdit fs [] argv)

/-- `cmd_code`, without what the editor draws. -/
def cmdCode : Handler := fun _ fs input argv =>
  match argv with
  | _ :: filename :: _ => do
    let s ← stops (editorStart fs filename input.keys)
    let s ← stops (exec editorStep s (List.replicate input.loops ()))
    if s.running then .error .waits else return (codeBanner argv, s.fs)
  | _ => return (codeBanner argv, fs)

/-- A command that only reads its arguments. -/
def prints (out : List CStr → Except Fault (List Print)) : Handler := fun _ fs _ argv =>
  stops (out argv) >>= fun out => .ok (out, fs)

/-- A command that only reads the file system. -/
def reports (out : Filesystem → List CStr → Except Fault (List Print)) : Handler :=
  fun _ fs _ argv => stops (out fs argv) >>= fun out => .ok (out, fs)

/-- A command that changes the file system. -/
def changes (run : Filesystem → List CStr → Except Fault (List Print × Filesystem)) : Handler :=
  fun _ fs _ argv => stops (run fs argv)

/-- A command whose model gives the bytes it prints. -/
def changesBytes (run : Filesystem → List CStr → Except Fault (List UInt8 × Filesystem)) : Handler :=
  fun _ fs _ argv => stops (run fs argv) >>= fun (out, fs) => .ok ([.puts out], fs)

def validCommands : List String :=
  ["help", "ls", "cd", "pwd", "mkdir", "rmdir", "rm", "touch", "cat", "about", "mem", "calc",
    "clear", "echo", "colortest", "panic", "edit", "code", "compile", "run", "syntax", "cp", "mv",
    "find", "grep", "exit", "quit"]

def commands : List (String × Handler) :=
  [("help", prints fun _ => .ok cmdHelp),
    ("about", prints fun _ => .ok cmdAbout),
    ("mem", fun heap fs _ _ => .ok (cmdMem heap, fs)),
    ("calc", prints cmdCalc),
    ("clear", prints fun _ => .ok cmdClear),
    ("echo", prints fun argv => .ok (cmdEcho argv)),
    ("panic", prints fun _ => cmdPanic),
    ("ls", reports cmdLs),
    ("cd", changes cmdCd),
    ("pwd", reports fun fs _ => cmdPwd fs),
    ("mkdir", changes cmdMkdir),
    ("rmdir", changes cmdRmdir),
    ("rm", changes cmdRm),
    ("touch", changesBytes cmdTouch),
    ("cat", reports cmdCat),
    ("colortest", prints fun _ => .ok cmdColortest),
    ("cp", changes cmdCp),
    ("mv", changesBytes cmdMv),
    ("find", reports cmdFind),
    ("grep", reports cmdGrep),
    ("edit", cmdEditTyped),
    ("code", cmdCode),
    ("compile", reports cmdCompile),
    ("run", reports cmdRun),
    ("syntax", reports cmdSyntax),
    ("exit", prints fun _ => .ok cmdExit),
    ("quit", prints fun _ => .ok cmdQuit)]

def CStr.isWord (s : CStr) (word : String) : Bool := strcmp s.bytes (CStr.ofString word).bytes = 0

def isValidCommand (cmd : CStr) : Bool := cmd.bytes.length ≠ 0 && validCommands.any cmd.isWord

def accidentalKeywords : List String :=
  ["int", "char", "void", "if", "else", "for", "while", "do", "switch", "case", "break",
    "continue", "return", "struct", "union", "enum", "typedef", "const", "static", "extern", "auto",
    "register", "volatile", "unsigned", "signed", "long", "short", "double", "float"]

def isLikelyAccidentalInput (input : CStr) : Bool :=
  accidentalKeywords.any input.isWord || input.bytes.length = 1

def unknownCommand (cmd : CStr) : List Print :=
  [.text "Unknown command: ", .puts cmd.bytes, .text "\nType 'help' for available commands.\n"]

def executeCommand : Handler := fun heap fs input argv =>
  match argv with
  | [] => .ok ([], fs)
  | cmd :: _ =>
    if !isValidCommand cmd then
      if isLikelyAccidentalInput cmd then .ok ([], fs) else .ok (unknownCommand cmd, fs)
    else
      match commands.find? fun c => cmd.isWord c.1 with
      | some (_, handler) => handler heap fs input argv
      | none => .ok ([], fs)

def promptSize : Nat := maxPathLength + 32

/-- `strcat(prompt, s)` -/
def promptCat (prompt s : List UInt8) : Except Stop (List UInt8) :=
  if prompt.length + s.length < promptSize then .ok (prompt ++ s) else .error .promptOverrun

def shellPrompt (fs : Filesystem) : Except Stop (List UInt8) := do
  let (result, currentPath) := fsGetCurrentPath fs maxPathLength
  if result = fsSuccess then
    let dirIdHex ← stops (itoaText (asInt fs.currentDir) 16)
    let prompt ← promptCat [] (CStr.ofString "chip:").bytes
    let prompt ← promptCat prompt currentPath
    let prompt ← promptCat prompt (CStr.ofString " [0x").bytes
    let prompt ← promptCat prompt dirIdHex
    promptCat prompt (CStr.ofString "]$ ").bytes
  else return (CStr.ofString "chip> ").bytes

/-- The state of the kernel at a prompt. -/
structure Shell where
  history : History
  inputBuffer : Chars
  heap : Heap
  fs : Filesystem

/-- What is typed at a prompt: the bytes of the line, and what its command reads. -/
structure Typing where
  line : List UInt8
  command : CommandInput

/-- The strings at the indices that `parse_command` returns. -/
def argStrings (input : Chars) (args : List Int) : Except Fault (List CStr) :=
  args.mapM fun i => checked .inputBuffer (stringAt maxCommandLength input i)

/-- The line that is read, and its arguments; none if it is empty. -/
def readArguments (s : Shell) (line : List UInt8) : Except Stop (List CStr × Shell) := do
  let (history, edit) ← awaits (consoleGetsWithHistory s.history s.inputBuffer maxCommandLength line)
  let len ← stops (checked .inputBuffer (CharArray.strlen maxCommandLength edit.buffer))
  if len = 0 then return ([], { s with history, inputBuffer := edit.buffer })
  else
    let (args, inputBuffer) ← stops (parseCommand edit.buffer)
    let argv ← stops (argStrings inputBuffer args)
    return (argv, { s with history, inputBuffer })

/-- An iteration of the loop of `shell_run`: what it prints, without the echo of the line. -/
def shellCall (s : Shell) (t : Typing) : Except Stop (List Print × Shell) := do
  let prompt ← shellPrompt s.fs
  let (argv, s) ← readArguments s t.line
  if argv.length > 0 then
    let (out, fs) ← executeCommand s.heap s.fs t.command argv
    return (.puts prompt :: out, { s with fs })
  else return ([.puts prompt], s)

def shellStep (s : Shell) (t : Typing) : Except Stop Shell := (shellCall s t).map Prod.snd

/-- The kernel when `shell_run` is called. What the stack holds there is arbitrary. -/
def bootShell (systemTime : Nat) (heap : Heap) (stack : Chars) : Shell :=
  ⟨.empty, stack, heap, fsInit systemTime⟩

end ChipOS
