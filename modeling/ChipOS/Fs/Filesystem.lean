import ChipOS.CString
import ChipOS.Fault
import ChipOS.Lib.ByteMemory
import Mathlib.Data.List.Find

namespace ChipOS
open ByteMemory
set_option autoImplicit true

def maxFilename : Nat := 64
def maxFiles : Nat := 256
def maxFileSize : Nat := 4096
def maxPathLength : Nat := 256

/-- `sizeof(fs.data_storage)`. -/
def storageSize : Nat := maxFiles * maxFileSize

def fsSuccess : Int := 0
def fsErrorNotFound : Int := -1
def fsErrorInvalidName : Int := -2
def fsErrorNoSpace : Int := -3
def fsErrorAlreadyExists : Int := -4
def fsErrorInvalidPath : Int := -5
def fsErrorNotDirectory : Int := -6
def fsErrorNotEmpty : Int := -7
def fsErrorPermissionDenied : Int := -8

def permRead : Nat := 1
def permWrite : Nat := 2
def permExec : Nat := 4

inductive FileType where
  | regular
  | directory
  | device
deriving DecidableEq, Repr

structure FileEntry where
  name : CBuf maxFilename
  type : FileType
  size : Nat
  permissions : Nat
  parentId : Nat
  createdTime : Nat
  modifiedTime : Nat
  dataOffset : Nat
deriving DecidableEq

/-- The static state of the file system. `files` and `dataStorage` stand for arrays of
`maxFiles` entries and `storageSize` bytes; the entries below `fileCount` are live. -/
structure Filesystem where
  files : Nat → FileEntry
  fileCount : Nat
  currentDir : Nat
  rootDir : Nat
  currentPath : CBuf maxPathLength
  dataStorage : Mem
  dataUsage : Nat
  nextFileId : Nat
  systemTime : Nat
  count_le : fileCount ≤ maxFiles

def u32 (x : Nat) : Nat := x % 2 ^ 32

/-- The test of `find_file_in_dir`. -/
def FileEntry.isIn (entry : FileEntry) (dirId : Nat) (name : CStr) : Bool :=
  entry.parentId = dirId ∧ strcmp entry.name.bytes name.bytes = 0

/-- `find_file_in_dir`, with `none` for its -1. -/
def findFileInDir (fs : Filesystem) (dirId : Nat) (name : CStr) : Option Nat :=
  (List.range fs.fileCount).find? fun i => (fs.files i).isIn dirId name

def Filesystem.addEntry (fs : Filesystem) (entry : FileEntry) (h : fs.fileCount < maxFiles) :
    Filesystem :=
  { fs with
    files := Function.update fs.files fs.fileCount entry
    fileCount := fs.fileCount + 1
    count_le := h }

/-- `system_time++` -/
def Filesystem.tick (fs : Filesystem) : Filesystem :=
  { fs with systemTime := u32 (fs.systemTime + 1) }

/-- `modified_time = system_time++` -/
def Filesystem.stamp (fs : Filesystem) (i : Nat) : Filesystem :=
  { fs with
    files := Function.update fs.files i { fs.files i with modifiedTime := fs.systemTime }
    systemTime := u32 (fs.systemTime + 1) }

def fsCreateFile (fs : Filesystem) (name : CStr) (type : FileType) :
    Except Fault (Int × Filesystem) :=
  if h : fs.fileCount ≥ maxFiles then .ok (fsErrorNoSpace, fs)
  else if (findFileInDir fs fs.currentDir name).isSome then .ok (fsErrorAlreadyExists, fs)
  else
    match strncpy maxFilename name (maxFilename - 1) with
    | none => .error (.outOfRange .entryName)
    | some bytes =>
      let entry : FileEntry :=
        { name := CBuf.ofBytes maxFilename (by decide) bytes
          type
          size := 0
          permissions :=
            if type = .directory then permRead ||| permWrite ||| permExec
            else permRead ||| permWrite
          parentId := fs.currentDir
          createdTime := fs.systemTime
          modifiedTime := u32 (fs.systemTime + 1)
          dataOffset := fs.dataUsage }
      .ok (fsSuccess, (fs.addEntry entry (Nat.lt_of_not_ge h)).tick)

/-- Copies `size` bytes of `data` into the storage of the entry `i`. -/
def Filesystem.storeData (fs : Filesystem) (i : Nat) (data : List UInt8) (size : Nat) :
    Filesystem :=
  let entry := fs.files i
  let dataEnd := u32 (entry.dataOffset + size)
  { fs with
    files := Function.update fs.files i { entry with size, modifiedTime := fs.systemTime }
    dataStorage := blit fs.dataStorage entry.dataOffset (data.take size)
    dataUsage := if dataEnd > fs.dataUsage then dataEnd else fs.dataUsage
    systemTime := u32 (fs.systemTime + 1) }

def writeSize (size : Nat) : Nat := if size > maxFileSize then maxFileSize else size

/-- The part of `fs_write_file` after the entry is found. -/
def writeEntry (fs : Filesystem) (i : Nat) (data : List UInt8) (size : Nat) :
    Except Fault (Int × Filesystem) :=
  if (fs.files i).type ≠ .regular then .ok (fsErrorInvalidPath, fs)
  else if (fs.files i).dataOffset + writeSize size > storageSize then
    .error (.outOfRange .dataStorage)
  else if writeSize size > data.length then .error (.outOfRange .callerData)
  else .ok (fsSuccess, fs.storeData i data (writeSize size))

def fsWriteFile (fs : Filesystem) (name : CStr) (data : List UInt8) (size : Nat) :
    Except Fault (Int × Filesystem) :=
  match findFileInDir fs fs.currentDir name with
  | some i => writeEntry fs i data size
  | none => do
    let (result, fs) ← fsCreateFile fs name .regular
    if result ≠ fsSuccess then return (fsErrorNoSpace, fs)
    match findFileInDir fs fs.currentDir name with
    | some i => writeEntry fs i data size
    | none => .error (.outOfRange .fileTable)

def readSize (entry : FileEntry) (size : Nat) : Nat :=
  if size < entry.size then size else entry.size

/-- `fs_read_file` into a buffer of `capacity` bytes: the result, and what is stored there. -/
def fsReadFile (fs : Filesystem) (name : CStr) (capacity size : Nat) :
    Except Fault (Int × List UInt8) :=
  match findFileInDir fs fs.currentDir name with
  | none => .ok (fsErrorInvalidPath, [])
  | some i =>
    if (fs.files i).type ≠ .regular then .ok (fsErrorInvalidPath, [])
    else if (fs.files i).dataOffset + readSize (fs.files i) size > storageSize then
      .error (.outOfRange .dataStorage)
    else if readSize (fs.files i) size > capacity then .error (.outOfRange .fileBuffer)
    else
      .ok (readSize (fs.files i) size,
        slice fs.dataStorage (fs.files i).dataOffset (readSize (fs.files i) size))

def fsMakeDirectory (fs : Filesystem) (name : CStr) : Int × Filesystem :=
  if h : name.bytes.length = 0 ∨ name.bytes.length ≥ maxFilename then (fsErrorInvalidName, fs)
  else if (findFileInDir fs fs.currentDir name).isSome then (fsErrorAlreadyExists, fs)
  else if h' : fs.fileCount ≥ maxFiles then (fsErrorNoSpace, fs)
  else if fs.nextFileId ≥ maxFiles then (fsErrorNoSpace, fs)
  else
    let entry : FileEntry :=
      { name := ⟨name, Nat.lt_of_not_ge (not_or.1 h).2⟩
        type := .directory
        size := 0
        permissions := permRead ||| permWrite ||| permExec
        parentId := fs.currentDir
        createdTime := fs.systemTime
        modifiedTime := u32 (fs.systemTime + 1)
        dataOffset := 0 }
    let fs := (fs.addEntry entry (Nat.lt_of_not_ge h')).tick
    (fsSuccess, { fs with nextFileId := u32 (fs.nextFileId + 1) })

/-- Puts the last entry into the slot `id`, and renumbers what refers to it. -/
def Filesystem.removeEntry (fs : Filesystem) (id : Nat) : Filesystem :=
  let last := fs.fileCount - 1
  if id < last then
    let renumber (entry : FileEntry) : FileEntry :=
      if entry.parentId = last then { entry with parentId := id } else entry
    let files i := if i < fs.fileCount then renumber (fs.files i) else fs.files i
    { fs with
      files := Function.update files id (files last)
      currentDir := if fs.currentDir = last then id else fs.currentDir
      fileCount := fs.fileCount - 1
      count_le := Nat.le_trans (Nat.sub_le _ _) fs.count_le }
  else { fs with
    fileCount := fs.fileCount - 1
    count_le := Nat.le_trans (Nat.sub_le _ _) fs.count_le }

def fsDeleteFile (fs : Filesystem) (name : CStr) : Int × Filesystem :=
  match findFileInDir fs fs.currentDir name with
  | none => (fsErrorNotFound, fs)
  | some id => (fsSuccess, fs.removeEntry id)

def fsRemoveDirectory (fs : Filesystem) (name : CStr) : Int × Filesystem :=
  match findFileInDir fs fs.currentDir name with
  | none => (fsErrorNotFound, fs)
  | some id =>
    if (fs.files id).type ≠ .directory then (fsErrorNotDirectory, fs)
    else if (List.range fs.fileCount).any fun i => (fs.files i).parentId = id then
      (fsErrorNotEmpty, fs)
    else (fsSuccess, fs.removeEntry id)

def fsCopyFile (fs : Filesystem) (src dest : CStr) : Except Fault (Int × Filesystem) := do
  let (bytesRead, buffer) ← fsReadFile fs src maxFileSize maxFileSize
  if bytesRead < 0 then return (bytesRead, fs)
  fsWriteFile fs dest buffer bytesRead.toNat

/-- A negative `int` stored in a `uint32_t` becomes a large number. -/
def toU32 (x : Int) : Nat := (x % 2 ^ 32).toNat

def fsMoveFile (fs : Filesystem) (src dest : CStr) : Except Fault (Int × Filesystem) :=
  match findFileInDir fs fs.currentDir src with
  | none => .ok (fsErrorNotFound, fs)
  | some srcFile =>
    if (findFileInDir fs fs.currentDir dest).isSome then .ok (fsErrorAlreadyExists, fs)
    else do
      let (ret, fs) ← fsCreateFile fs dest (fs.files srcFile).type
      if ret ≠ fsSuccess then return (ret, fs)
      let (bytesRead, buffer) ← fsReadFile fs src maxFileSize (fs.files srcFile).size
      if toU32 bytesRead ≠ (fs.files srcFile).size then
        return (fsErrorPermissionDenied, (fsDeleteFile fs dest).2)
      let (written, fs) ← fsWriteFile fs dest buffer (fs.files srcFile).size
      if written ≠ fsSuccess then return (fsErrorPermissionDenied, (fsDeleteFile fs dest).2)
      return fsDeleteFile fs src

def fsTouchFile (fs : Filesystem) (name : CStr) : Except Fault (Int × Filesystem) :=
  match findFileInDir fs fs.currentDir name with
  | some id => .ok (fsSuccess, fs.stamp id)
  | none => do
    let (result, fs) ← fsCreateFile fs name .regular
    if result ≠ fsSuccess then return (fsErrorNoSpace, fs)
    fsWriteFile fs name [] 0

/-- The names on the way from `curr` up to the root, at most `depth` of them. -/
def pathStack (fs : Filesystem) : Nat → Nat → Except Fault (List (CBuf maxFilename))
  | 0, _ => .ok []
  | depth + 1, curr =>
    if curr = fs.rootDir then .ok []
    else if curr ≥ maxFiles then .error (.outOfRange .fileTable)
    else do
      let above ← pathStack fs depth (fs.files curr).parentId
      return (fs.files curr).name :: above

def appendPath (path : CBuf maxPathLength) (s : CStr) : Except Fault (CBuf maxPathLength) :=
  match strcat path s with
  | some path => .ok path
  | none => .error (.outOfRange .currentPath)

def slash : CStr := ⟨['/'.toUInt8], by decide⟩

def joinPath : List (CBuf maxFilename) → CBuf maxPathLength → Except Fault (CBuf maxPathLength)
  | [], path => .ok path
  | [name], path => appendPath path name.toCStr
  | name :: names, path => do
    let path ← appendPath path name.toCStr
    let path ← appendPath path slash
    joinPath names path

def rebuildCurrentPath (fs : Filesystem) : Except Fault Filesystem :=
  let root : CBuf maxPathLength := ⟨slash, by decide⟩
  if fs.currentDir = fs.rootDir then .ok { fs with currentPath := root }
  else do
    let stack ← pathStack fs 32 fs.currentDir
    let path ← joinPath stack.reverse root
    return { fs with currentPath := if path.bytes = [] then root else path }

def fsChangeDirectory (fs : Filesystem) (path : CStr) : Except Fault (Int × Filesystem) :=
  if path.bytes.length = 0 then .ok (fsErrorInvalidPath, fs)
  else if strcmp path.bytes (CStr.ofString ".").bytes = 0 then .ok (fsSuccess, fs)
  else if strcmp path.bytes (CStr.ofString "..").bytes = 0 then
    if fs.currentDir ≥ maxFiles then .error (.outOfRange .fileTable)
    else do
      let fs ← rebuildCurrentPath { fs with currentDir := (fs.files fs.currentDir).parentId }
      return (fsSuccess, fs)
  else
    match findFileInDir fs fs.currentDir path with
    | none => .ok (fsErrorNotFound, fs)
    | some id =>
      if (fs.files id).type ≠ .directory then .ok (fsErrorNotDirectory, fs)
      else do
        let fs ← rebuildCurrentPath { fs with currentDir := id }
        return (fsSuccess, fs)

/-- The first half of `fs_init`, from the value of the static `system_time`. -/
def fsRoot (systemTime : Nat) : Filesystem :=
  let zero : FileEntry :=
    { name := ⟨⟨[], by decide⟩, by decide⟩, type := .regular, size := 0, permissions := 0,
      parentId := 0, createdTime := 0, modifiedTime := 0, dataOffset := 0 }
  let root : FileEntry :=
    { zero with
      name := ⟨slash, by decide⟩
      type := .directory
      permissions := permRead ||| permWrite ||| permExec
      createdTime := systemTime
      modifiedTime := u32 (systemTime + 1) }
  { files := Function.update (fun _ => zero) 0 root
    fileCount := 1
    currentDir := 0
    rootDir := 0
    currentPath := ⟨slash, by decide⟩
    dataStorage := fun _ => 0
    dataUsage := 0
    nextFileId := 1
    systemTime := u32 (systemTime + 1)
    count_le := by decide }

def fsInit (systemTime : Nat) : Filesystem :=
  let fs := (fsMakeDirectory (fsRoot systemTime) (.ofString "home")).2
  let fs := (fsMakeDirectory fs (.ofString "bin")).2
  (fsMakeDirectory fs (.ofString "etc")).2

/-- The calls that change the file system. -/
inductive FsOp where
  | createFile (name : CStr) (type : FileType)
  | writeFile (name : CStr) (data : List UInt8) (size : Nat)
  | touchFile (name : CStr)
  | makeDirectory (name : CStr)
  | deleteFile (name : CStr)
  | removeDirectory (name : CStr)
  | copyFile (src dest : CStr)
  | moveFile (src dest : CStr)
  | changeDirectory (path : CStr)
deriving DecidableEq

def fsCall (fs : Filesystem) : FsOp → Except Fault (Int × Filesystem)
  | .createFile name type => fsCreateFile fs name type
  | .writeFile name data size => fsWriteFile fs name data size
  | .touchFile name => fsTouchFile fs name
  | .makeDirectory name => .ok (fsMakeDirectory fs name)
  | .deleteFile name => .ok (fsDeleteFile fs name)
  | .removeDirectory name => .ok (fsRemoveDirectory fs name)
  | .copyFile src dest => fsCopyFile fs src dest
  | .moveFile src dest => fsMoveFile fs src dest
  | .changeDirectory path => fsChangeDirectory fs path

def fsStep (fs : Filesystem) (op : FsOp) : Except Fault Filesystem := (fsCall fs op).map Prod.snd

end ChipOS
