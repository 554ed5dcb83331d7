import ChipOS.Fs.WhereAmI
import ChipOS.Shell.Commands
import ChipOS.Shell.Listing

namespace ChipOS
open Run
set_option autoImplicit true

/-- A `uint32_t` as `fs_make_directory` and `fs_change_directory` print it. -/
def idText (id : Nat) (base : Int) : Except Fault (List UInt8) := itoaText (asInt (u32 id)) base

def fsMakeDirectoryPrints (fs : Filesystem) (name : CStr) : Except Fault (List Print) := do
  let out := [.text "[DEBUG] fs_make_directory called for: ", .puts name.bytes, .text "\n"]
  if name.bytes.length = 0 ∨ name.bytes.length ≥ maxFilename then
    return out ++ [.text "[DEBUG] Invalid directory name\n"]
  match findFileInDir fs fs.currentDir name with
  | some existing =>
    let buf ← idText existing 16
    return out ++ [.text "[DEBUG] Directory already exists with ID: ", .text "0x", .puts buf,
      .text "\n"]
  | none =>
    if fs.fileCount ≥ maxFiles then return out ++ [.text "[DEBUG] No space left in file table\n"]
    if fs.nextFileId ≥ maxFiles then return out ++ [.text "[DEBUG] No more file IDs available\n"]
    let newId ← idText fs.fileCount 10
    let newIdHex ← idText fs.fileCount 16
    let parent ← idText fs.currentDir 16
    let count ← idText (fs.fileCount + 1) 10
    let nextId ← idText (fs.nextFileId + 1) 10
    return out ++ [.text "[DEBUG] Assigning new directory ID: ", .puts newId,
      .text " (file_count=", .puts newId, .text ")\n",
      .text "[DEBUG] Directory created successfully\n",
      .text "[DEBUG] New directory ID: 0x", .puts newIdHex, .text " (parent: 0x", .puts parent,
      .text ")\n", .text "[DEBUG] Updated file_count: ", .puts count,
      .text ", next_file_id: ", .puts nextId, .text "\n"]

/-- What `fs_change_directory` prints, all of it before `rebuild_current_path`. -/
def fsChangeDirectoryPrints (fs : Filesystem) (path : CStr) : Except Fault (List Print) := do
  let out := [.text "[DEBUG] fs_change_directory called with path: ", .puts path.bytes, .text "\n"]
  if path.bytes.length = 0 then return out ++ [.text "[DEBUG] Invalid path (empty or NULL)\n"]
  if strcmp path.bytes (CStr.ofString ".").bytes = 0 then
    return out ++ [.text "[DEBUG] Staying in the same directory\n"]
  let current ← idText fs.currentDir 16
  if strcmp path.bytes (CStr.ofString "..").bytes = 0 then
    let parent ← idText (fs.files fs.currentDir).parentId 16
    return out ++ [.text "[DEBUG] Going up: ", .text "from 0x", .puts current, .text " -> 0x",
      .puts parent, .text "\n"]
  match findFileInDir fs fs.currentDir path with
  | none =>
    let buf ← itoaText (-1) 16
    return out ++ [.text "[DEBUG] find_file_in_dir returned: 0x", .puts buf, .text "\n",
      .text "[DEBUG] Directory not found\n"]
  | some targetId =>
    let target ← idText targetId 16
    let out := out ++ [.text "[DEBUG] find_file_in_dir returned: 0x", .puts target, .text "\n"]
    if (fs.files targetId).type ≠ .directory then
      return out ++ [.text "[DEBUG] Target is not a directory\n"]
    return out ++ [.text "[DEBUG] Changing current_dir: 0x", .puts current, .text " -> 0x",
      .puts target, .text "\n"]

/-- A call that changes the file system on the first argument, what it prints, and a message if it
fails. -/
def nameCommand (usage message : String) (debug : Filesystem → CStr → Except Fault (List Print))
    (op : CStr → FsOp) (fs : Filesystem) : List CStr → Except Fault (List Print × Filesystem)
  | _ :: name :: _ => do
    let out ← debug fs name
    let (result, fs) ← fsCall fs (op name)
    return (out ++ if result ≠ 0 then nameMessage message name else [], fs)
  | _ => return ([.text usage], fs)

def cmdMkdir : Filesystem → List CStr → Except Fault (List Print × Filesystem) :=
  nameCommand "Usage: mkdir <directory>\n" "mkdir: cannot create directory '"
    fsMakeDirectoryPrints .makeDirectory

def quiet (_ : Filesystem) (_ : CStr) : Except Fault (List Print) := .ok []

def cmdRmdir : Filesystem → List CStr → Except Fault (List Print × Filesystem) :=
  nameCommand "Usage: rmdir <directory>\n" "rmdir: cannot remove directory '" quiet .removeDirectory

def cmdRm : Filesystem → List CStr → Except Fault (List Print × Filesystem) :=
  nameCommand "Usage: rm <file>\n" "rm: cannot remove file '" quiet .deleteFile

def cmdCd (fs : Filesystem) : List CStr → Except Fault (List Print × Filesystem)
  | _ :: dir :: _ => do
    let lenBuf ← itoaText (asInt (u32 dir.bytes.length)) 10
    let debug ← fsChangeDirectoryPrints fs dir
    let out := [.text "DEBUG: Raw argument received: '", .puts dir.bytes, .text "' (length: ",
      .puts lenBuf, .text ")\n", .text "DEBUG: Changing to directory: ", .puts dir.bytes,
      .text "\n"] ++ debug
    let (result, fs) ← fsChangeDirectory fs dir
    if result ≠ 0 then
      return (out ++ [.text "cd: ", .puts dir.bytes, .text ": No such directory\n"], fs)
    return (out ++ [.text "DEBUG: Directory changed successfully\n"], fs)
  | _ => return ([.text "Usage: cd <directory>\n"], fs)

def cmdPwd (fs : Filesystem) : Except Fault (List Print) := do
  let (result, path) ← fsGetcwd fs maxPathLength
  if result = fsSuccess then return [.puts path, .text "\n"]
  return [.text "Error getting current directory\n"]

def cmdCp (fs : Filesystem) : List CStr → Except Fault (List Print × Filesystem)
  | _ :: src :: dst :: _ => do
    let (bytesRead, buffer) ← fsReadFile fs src maxFileSize maxFileSize
    if bytesRead < 0 then return (nameMessage "cp: cannot read source file '" src, fs)
    let (written, fs) ← fsWriteFile fs dst buffer bytesRead.toNat
    if written ≠ 0 then return (nameMessage "cp: cannot write to destination file '" dst, fs)
    return ([.text "File '", .puts src.bytes, .text "' copied to '", .puts dst.bytes, .text "'\n"],
      fs)
  | _ => return ([.text "Usage: cp <source> <destination>\n"], fs)

def cmdFind (fs : Filesystem) : List CStr → Except Fault (List Print)
  | _ :: name :: _ => do
    let out := [.text "Searching for files matching '", .puts name.bytes, .text "'...\n"]
    let (result, _) ← fsReadFile fs name 256 1
    if result ≥ 0 then return out ++ [.text "Found: ./", .puts name.bytes, .text "\n"]
    return out ++ nameMessage "No files found matching '" name
  | _ => return [.text "Usage: find <filename>\n",
      .text "Note: This is a simple find that searches in current directory\n"]

def cmdCompile (fs : Filesystem) : List CStr → Except Fault (List Print)
  | _ :: filename :: _ => do
    let ext := some (getFileExtension filename.bytes)
    let out := [.text "Compiling: ", .puts filename.bytes, .text "\n"]
    let (result, _) ← fsReadFile fs filename 256 1
    if result < 0 then
      return out ++ [.text "Error: Source file '", .puts filename.bytes, .text "' not found\n"]
    if strcmp (getFileExtension filename.bytes) (CStr.ofString ".c").bytes = 0 then
      return out ++ [.text "C Compiler: gcc-riscv64 (simulated)\n",
        .text "Status: Compilation successful\n", .text "Output: a.out\n"]
    else if isVerilogExt ext then
      return out ++ [.text "Verilog Compiler: iverilog (simulated)\n",
        .text "Status: Synthesis successful\n", .text "Output: design.vvp\n"]
    else if isAsmExt ext then
      return out ++ [.text "Assembler: riscv64-as (simulated)\n",
        .text "Status: Assembly successful\n", .text "Output: program.o\n"]
    else
      return out ++ [.text "Error: Unsupported file type\n",
        .text "Supported: .c (C), .v/.sv (Verilog), .s/.asm (Assembly)\n"]
  | _ => return [.text "Usage: compile <source_file>\n", .text "Supported: .c, .v, .s files\n"]

/-- The line of `=` that `cmd_run` and the editor print. -/
def doubleRule : Print := .text "========================================\n"

def runProgram (fs : Filesystem) (program : CStr) : Except Fault (List Print) := do
  if strcmp program.bytes (CStr.ofString "a.out").bytes = 0 then
    return [.text "Hello, ChipOS World!\n", .text "Program executed successfully\n",
      .text "Exit code: 0\n"]
  else if (strstr program.bytes (CStr.ofString ".vvp").bytes).isSome then
    return [.text "Verilog simulation starting...\n", .text "VCD file: dump.vcd\n",
      .text "Simulation completed\n"]
  else if (strstr program.bytes (CStr.ofString ".o").bytes).isSome then
    return [.text "Object file executed\n", .text "RISC-V program completed\n"]
  else
    let (result, _) ← fsReadFile fs program 256 256
    if result ≥ 0 then return [.text "Script/program found and executed\n"]
    return [.text "Error: Program '", .puts program.bytes, .text "' not found\n"]

def cmdRun (fs : Filesystem) : List CStr → Except Fault (List Print)
  | _ :: program :: _ => do
    let out ← runProgram fs program
    return [.text "Running: ", .puts program.bytes, .text "\n", doubleRule] ++ out ++ [doubleRule]
  | _ => return [.text "Usage: run <program>\n", .text "Run compiled programs or scripts\n"]

end ChipOS
