import ChipOS.Fs.Filesystem

namespace ChipOS
open Run
set_option autoImplicit true

def usageTouch : List UInt8 := (CStr.ofString "Usage: touch <filename>\n").bytes

/-- The line that names one file, between `before` and `after`. -/
def messageLine (before : String) (name : CStr) (after : String) : List UInt8 :=
  (CStr.ofString before).bytes ++ name.bytes ++ (CStr.ofString after).bytes

/-- `cmd_touch`: what it prints and the state after it. -/
def cmdTouch (fs : Filesystem) : List CStr → Except Fault (List UInt8 × Filesystem)
  | _ :: name :: _ => do
    let (bytesRead, _) ← fsReadFile fs name 1 1
    if bytesRead ≥ 0 then return (messageLine "File '" name "' already exists\n", fs)
    let (written, fs) ← fsWriteFile fs name [] 0
    if written = fsSuccess then return (messageLine "Created file '" name "'\n", fs)
    return (messageLine "touch: cannot create file '" name "'\n", fs)
  | _ => return (usageTouch, fs)

theorem cmdTouch_cases (he : cmdTouch fs (cmd :: name :: rest) = .ok (out, fs')) :
    ∃ r data, fsReadFile fs name 1 1 = .ok (r, data) ∧
      (¬r < 0 ∧ out = messageLine "File '" name "' already exists\n" ∧ fs' = fs ∨
        r < 0 ∧ ∃ written, fsWriteFile fs name [] 0 = .ok (written, fs') ∧
          out = if written = fsSuccess then messageLine "Created file '" name "'\n"
            else messageLine "touch: cannot create file '" name "'\n") := by
  obtain ⟨⟨r, data⟩, hread, he⟩ := bind_eq_ok.1 he
  refine ⟨r, data, hread, ?_⟩
  dsimp only at he
  split at he
  · next hpos =>
    cases he
    exact .inl ⟨Int.not_lt.2 hpos, rfl, rfl⟩
  next hneg =>
  obtain ⟨⟨written, fs₁⟩, hwrite, he⟩ := bind_eq_ok.1 he
  dsimp only at he
  split at he
  · next hok =>
    cases he
    exact .inr ⟨Int.not_le.1 hneg, written, hwrite, (if_pos hok).symm⟩
  · next hno =>
    cases he
    exact .inr ⟨Int.not_le.1 hneg, written, hwrite, (if_neg hno).symm⟩

def usageMv : List UInt8 := (CStr.ofString "Usage: mv <source> <destination>\n").bytes

def movedMessage (src dst : CStr) : List UInt8 :=
  messageLine "File '" src "' moved to '" ++ messageLine "" dst "'\n"

/-- `cmd_mv`: what it prints and the state after it. -/
def cmdMv (fs : Filesystem) : List CStr → Except Fault (List UInt8 × Filesystem)
  | _ :: src :: dst :: _ => do
    let (bytesRead, buffer) ← fsReadFile fs src maxFileSize maxFileSize
    if bytesRead < 0 then return (messageLine "mv: cannot read source file '" src "'\n", fs)
    let (written, fs) ← fsWriteFile fs dst buffer bytesRead.toNat
    if written ≠ fsSuccess then
      return (messageLine "mv: cannot write to destination file '" dst "'\n", fs)
    let (deleted, fs) := fsDeleteFile fs src
    if deleted ≠ fsSuccess then
      return (messageLine "mv: warning - could not remove source file '" src "'\n", fs)
    return (movedMessage src dst, fs)
  | _ => return (usageMv, fs)

/-- `mv` reads the source, writes what it read, and removes the source if that was done. -/
theorem cmdMv_cases (he : cmdMv fs (cmd :: src :: dst :: rest) = .ok (out, fs')) :
    ∃ r data, fsReadFile fs src maxFileSize maxFileSize = .ok (r, data) ∧
      (r < 0 ∧ out = messageLine "mv: cannot read source file '" src "'\n" ∧ fs' = fs ∨
        ¬r < 0 ∧ ∃ written fs₁, fsWriteFile fs dst data r.toNat = .ok (written, fs₁) ∧
          (written ≠ fsSuccess ∧ out = messageLine "mv: cannot write to destination file '" dst "'\n" ∧
              fs' = fs₁ ∨
            written = fsSuccess ∧ ∃ deleted, fsDeleteFile fs₁ src = (deleted, fs') ∧
              out = if deleted = fsSuccess then movedMessage src dst
                else messageLine "mv: warning - could not remove source file '" src "'\n")) := by
  obtain ⟨⟨r, data⟩, hread, he⟩ := bind_eq_ok.1 he
  refine ⟨r, data, hread, ?_⟩
  dsimp only at he
  split at he
  · next hneg =>
    cases he
    exact .inl ⟨hneg, rfl, rfl⟩
  next hpos =>
  obtain ⟨⟨written, fs₁⟩, hwrite, he⟩ := bind_eq_ok.1 he
  refine .inr ⟨hpos, written, fs₁, hwrite, ?_⟩
  dsimp only at he
  split at he
  · next hno =>
    cases he
    exact .inl ⟨hno, rfl, rfl⟩
  next hok =>
  refine .inr ⟨not_not.1 hok, ?_⟩
  split at he
  · next hdel =>
    cases he
    exact ⟨_, rfl, (if_neg hdel).symm⟩
  · next hdel =>
    cases he
    exact ⟨_, rfl, (if_pos (not_not.1 hdel)).symm⟩

end ChipOS
