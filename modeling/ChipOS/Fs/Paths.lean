import ChipOS.Fs.Filesystem
import ChipOS.Lib.Run

namespace ChipOS
open Run
set_option autoImplicit true

/-- `fs_get_current_path` into a buffer of `size` bytes. -/
def fsGetCurrentPath (fs : Filesystem) (size : Nat) : Int × List UInt8 :=
  if size < 1 then (fsErrorInvalidPath, [])
  else if fs.currentPath.bytes.length + 1 > size then (fsErrorNoSpace, [])
  else (fsSuccess, fs.currentPath.bytes)

theorem maxFilename_pos : 0 < maxFilename := by decide

/-- The names that `fs_getcwd` pushes from `current` on, at most `depth` of them. -/
def cwdStack (fs : Filesystem) : Nat → Nat → Except Fault (List (CBuf maxFilename))
  | 0, _ => .ok []
  | depth + 1, current =>
    if current = fs.rootDir then .ok []
    else if current ≥ maxFiles then .error (.outOfRange .fileTable)
    else
      match strncpy maxFilename (fs.files current).name.toCStr maxFilename with
      | none => .error (.outOfRange .pathStack)
      | some bytes => do
        let name := CBuf.ofBytes maxFilename maxFilename_pos bytes
        if (fs.files current).parentId = fs.currentDir then return [name]
        let above ← cwdStack fs depth (fs.files current).parentId
        return name :: above

def appendBuffer (buffer : CBuf size) (s : CStr) : Except Fault (CBuf size) :=
  match strcat buffer s with
  | some buffer => .ok buffer
  | none => .error (.outOfRange .pathBuffer)

/-- Appends the names, the outermost first, each after a slash. -/
def joinCwd : List (CBuf maxFilename) → CBuf size → Except Fault (CBuf size)
  | [], buffer => .ok buffer
  | name :: names, buffer => do
    let buffer ← appendBuffer buffer slash
    let buffer ← appendBuffer buffer name.toCStr
    joinCwd names buffer

/-- `fs_getcwd` into a buffer of `size` bytes: the result, and the string stored there. -/
def fsGetcwd (fs : Filesystem) (size : Nat) : Except Fault (Int × List UInt8) :=
  if h : size < 1 then .ok (fsErrorInvalidPath, [])
  else if fs.currentDir = fs.rootDir then
    if size < 2 then .ok (fsErrorNoSpace, []) else .ok (fsSuccess, slash.bytes)
  else do
    let stack ← cwdStack fs 32 fs.currentDir
    let empty : CBuf size := ⟨.empty, Nat.le_of_not_lt h⟩
    let buffer ← joinCwd stack.reverse empty
    if buffer.bytes.length + 1 > size then return (fsErrorNoSpace, buffer.bytes)
    return (fsSuccess, buffer.bytes)

def maxPath : Nat := 256

/-- The loop of `fs_resolve_path` over the tokens, with `none` for the result -1. -/
def resolveLoop (fs : Filesystem) : Nat → Nat → Option CStr → Except Fault (Option Nat)
  | 0, _, _ => .error .outOfFuel
  | fuel + 1, dir, next =>
    match strtok slash next with
    | none => .ok (some dir)
    | some (token, next) =>
      match findFileInDir fs dir token with
      | none => .ok none
      | some id =>
        if (fs.files id).type ≠ .directory then .ok none else resolveLoop fs fuel id next

def fsResolvePath (fs : Filesystem) (path : CStr) : Except Fault (Option Nat) :=
  if path.bytes = [] then .ok none
  else
    let dir := if path.bytes.head? = some '/'.toUInt8 then fs.rootDir else fs.currentDir
    match strncpy maxPath path (maxPath - 1) with
    | none => .error (.outOfRange .tempPath)
    | some bytes =>
      let tempPath := CBuf.ofBytes maxPath (by decide) bytes
      resolveLoop fs (tempPath.bytes.length + 1) dir (some tempPath.toCStr)

end ChipOS
