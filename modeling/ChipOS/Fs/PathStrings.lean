import ChipOS.Fs.PathMap
import ChipOS.Fs.Paths

namespace ChipOS
open NameTree Run
set_option autoImplicit true

/-- A string put into an array of `n` bytes. -/
def fill (array : CArray) (n : Nat) (s : CStr) : Except Fault (CBuf n) :=
  match strcpy n s with
  | some buf => .ok buf
  | none => .error (.outOfRange array)

def joinNames : List CStr → CStr
  | [] => .empty
  | [name] => name
  | name :: names => name.append (slash.append (joinNames names))

def slashNames : List CStr → CStr
  | [] => .empty
  | name :: names => slash.append (name.append (slashNames names))

/-- The string that `rebuild_current_path` makes for the directory `dir`. -/
def Filesystem.pathString (fs : Filesystem) (dir : Nat) : CStr :=
  slash.append (joinNames (fs.links.up fs.rootDir 32 dir).reverse)

/-- The names on the way up from `curr`, up to the first return to the current directory. -/
def Filesystem.cwdNames (fs : Filesystem) : Nat → Nat → List CStr
  | 0, _ => []
  | depth + 1, curr =>
    if curr = fs.rootDir then []
    else (fs.files curr).name.toCStr ::
      if (fs.files curr).parentId = fs.currentDir then []
      else fs.cwdNames depth (fs.files curr).parentId

/-- The parent links lead from `dir` to the root, past directories with these names. -/
def Filesystem.Chain (fs : Filesystem) (names : List CStr) (dir : Nat) : Prop :=
  PathTo fs.links.all fs.rootDir names dir

def Filesystem.cwdString (fs : Filesystem) : CStr :=
  slashNames (fs.cwdNames 32 fs.currentDir).reverse

/-- The current directory and all parents are in the table. -/
structure InTable (fs : Filesystem) : Prop where
  root : fs.rootDir = 0
  current : fs.currentDir < maxFiles
  parent : ∀ i, (fs.files i).parentId < maxFiles

theorem fill_fits (h : s.bytes.length < n) : fill array n s = .ok ⟨s, h⟩ := by
  rw [fill, strcpy, dif_pos h]

theorem fill_overflows (h : n ≤ s.bytes.length) : fill array n s = .error (.outOfRange array) := by
  rw [fill, strcpy, dif_neg (Nat.not_lt.2 h)]

theorem fill_self (buf : CBuf n) : fill array n buf.toCStr = .ok buf := fill_fits buf.fits

/-- Appending to what is in an array fails exactly when the longer string does not fit. -/
theorem fill_bind {f : CBuf n → Except Fault (CBuf n)}
    (hf : ∀ buf : CBuf n, f buf = fill array n (buf.toCStr.append t)) :
    (fill array n s >>= f) = fill array n (s.append t) := by
  by_cases h : s.bytes.length < n
  · rw [fill_fits h, ok_bind, hf]
  · have hlong : n ≤ (s.append t).bytes.length := by
      rw [CStr.append, List.length_append]
      omega
    rw [fill_overflows (Nat.le_of_not_lt h), fill_overflows hlong]
    rfl

theorem appendPath_eq (path : CBuf maxPathLength) (s : CStr) :
    appendPath path s = fill .currentPath maxPathLength (path.toCStr.append s) := by
  cases hs : strcpy maxPathLength (path.toCStr.append s) with
  | none => simp only [appendPath, strcat_eq, fill, hs]
  | some p => simp only [appendPath, strcat_eq, fill, hs]

theorem appendBuffer_eq (buffer : CBuf size) (s : CStr) :
    appendBuffer buffer s = fill .pathBuffer size (buffer.toCStr.append s) := by
  cases hs : strcpy size (buffer.toCStr.append s) with
  | none => simp only [appendBuffer, strcat_eq, fill, hs]
  | some b => simp only [appendBuffer, strcat_eq, fill, hs]

theorem joinPath_eq (names : List (CBuf maxFilename)) (path : CBuf maxPathLength) :
    joinPath names path =
      fill .currentPath maxPathLength (path.toCStr.append (joinNames (names.map CBuf.toCStr))) := by
  induction names generalizing path with
  | nil =>
    rw [List.map_nil, joinNames, CStr.append_empty, fill_self]
    rfl
  | cons name names ih =>
    cases names with
    | nil => exact appendPath_eq path name.toCStr
    | cons name' names =>
      have hrest : ∀ p : CBuf maxPathLength, (appendPath p slash >>= joinPath (name' :: names)) =
          fill .currentPath maxPathLength
            (p.toCStr.append (slash.append (joinNames ((name' :: names).map CBuf.toCStr)))) := by
        intro p
        rw [appendPath_eq, fill_bind ih, CStr.append_assoc]
      have hjoin : joinPath (name :: name' :: names) path =
        appendPath path name.toCStr >>= fun p => appendPath p slash >>= joinPath (name' :: names) := rfl
      rw [hjoin, appendPath_eq, fill_bind hrest, CStr.append_assoc]
      rfl

theorem joinCwd_eq (names : List (CBuf maxFilename)) (buffer : CBuf size) :
    joinCwd names buffer =
      fill .pathBuffer size (buffer.toCStr.append (slashNames (names.map CBuf.toCStr))) := by
  induction names generalizing buffer with
  | nil =>
    rw [List.map_nil, slashNames, CStr.append_empty, fill_self]
    rfl
  | cons name names ih =>
    have hrest : ∀ b : CBuf size, (appendBuffer b name.toCStr >>= joinCwd names) =
        fill .pathBuffer size
          (b.toCStr.append (name.toCStr.append (slashNames (names.map CBuf.toCStr)))) := by
      intro b
      rw [appendBuffer_eq, fill_bind ih, CStr.append_assoc]
    have hjoin : joinCwd (name :: names) buffer =
      appendBuffer buffer slash >>= fun b => appendBuffer b name.toCStr >>= joinCwd names := rfl
    rw [hjoin, appendBuffer_eq, fill_bind hrest, CStr.append_assoc]
    rfl

theorem slash_joinNames (names : List CStr) (hne : names ≠ []) :
    slash.append (joinNames names) = slashNames names := by
  induction names with
  | nil => exact absurd rfl hne
  | cons name names ih =>
    cases names with
    | nil => rw [joinNames, slashNames, slashNames, CStr.append_empty]
    | cons name' names =>
      rw [slashNames, ← ih (List.cons_ne_nil _ _)]
      rfl

section
variable {fs : Filesystem}

theorem pathStack_eq (ht : InTable fs) (hd : dir < maxFiles) : ∃ stack,
    pathStack fs depth dir = .ok stack ∧
      stack.map CBuf.toCStr = fs.links.up fs.rootDir depth dir := by
  induction depth generalizing dir with
  | zero => exact ⟨[], rfl, rfl⟩
  | succ depth ih =>
    rw [pathStack, Links.up]
    by_cases hroot : dir = fs.rootDir
    · rw [if_pos hroot, if_pos hroot]
      exact ⟨[], rfl, rfl⟩
    · obtain ⟨above, habove, hnames⟩ := ih (ht.parent dir)
      rw [if_neg hroot, if_neg hroot, if_neg (Nat.not_le.2 hd), habove]
      exact ⟨(fs.files dir).name :: above, rfl, congrArg _ hnames⟩

theorem rebuildCurrentPath_eq (ht : InTable fs) : rebuildCurrentPath fs =
    fill .currentPath maxPathLength (fs.pathString fs.currentDir) >>= fun p =>
      .ok { fs with currentPath := p } := by
  rw [rebuildCurrentPath, Filesystem.pathString]
  by_cases hroot : fs.currentDir = fs.rootDir
  · rw [if_pos hroot, Links.up, if_pos hroot]
    rfl
  obtain ⟨stack, hstack, hnames⟩ : ∃ stack, pathStack fs 32 fs.currentDir = .ok stack ∧ _ :=
    pathStack_eq ht ht.current
  rw [if_neg hroot, hstack, ok_bind, joinPath_eq, List.map_reverse, hnames]
  by_cases hlen : (slash.append (joinNames (fs.links.up fs.rootDir 32 fs.currentDir).reverse)).bytes.length <
      maxPathLength
  · rw [fill_fits hlen, ok_bind, ok_bind]
    rfl
  · rw [fill_overflows (Nat.le_of_not_lt hlen)]
    rfl

theorem cwdStack_eq (ht : InTable fs) (hd : dir < maxFiles) : ∃ stack,
    cwdStack fs depth dir = .ok stack ∧ stack.map CBuf.toCStr = fs.cwdNames depth dir := by
  induction depth generalizing dir with
  | zero => exact ⟨[], rfl, rfl⟩
  | succ depth ih =>
    rw [cwdStack, Filesystem.cwdNames]
    by_cases hroot : dir = fs.rootDir
    · rw [if_pos hroot, if_pos hroot]
      exact ⟨[], rfl, rfl⟩
    -- every name in the table has room for its NUL
    have hname := (fs.files dir).name.fits
    have hcopy : (CBuf.ofBytes maxFilename (by decide) ((fs.files dir).name.bytes ++
        List.replicate (maxFilename - (fs.files dir).name.bytes.length) 0)).toCStr =
        (fs.files dir).name.toCStr := CBuf.ofBytes_pad (by decide) hname
    rw [if_neg hroot, if_neg hroot, if_neg (Nat.not_le.2 hd),
      strncpy_short hname (Nat.le_refl _)]
    simp only
    by_cases hback : (fs.files dir).parentId = fs.currentDir
    · rw [if_pos hback, if_pos hback]
      exact ⟨[_], rfl, congrArg (fun name => [name]) hcopy⟩
    · obtain ⟨above, habove, hnames⟩ := ih (ht.parent dir)
      rw [if_neg hback, if_neg hback, habove]
      refine ⟨_ :: above, rfl, ?_⟩
      rw [List.map_cons, hcopy, hnames]

/-- Outside the root `fs_getcwd` puts its string into the buffer and succeeds, or writes past
the end of the buffer. -/
theorem fsGetcwd_eq (ht : InTable fs) (hroot : fs.currentDir ≠ fs.rootDir) (hs : 1 ≤ size) :
    fsGetcwd fs size = fill .pathBuffer size fs.cwdString >>= fun buf =>
      .ok (fsSuccess, buf.bytes) := by
  obtain ⟨stack, hstack, hnames⟩ : ∃ stack, cwdStack fs 32 fs.currentDir = .ok stack ∧ _ :=
    cwdStack_eq ht ht.current
  have hjoin : joinCwd stack.reverse ⟨.empty, hs⟩ = fill .pathBuffer size fs.cwdString := by
    rw [joinCwd_eq, List.map_reverse, hnames]
    rfl
  rw [fsGetcwd, dif_neg (Nat.not_lt.2 hs), if_neg hroot, hstack, ok_bind]
  simp only
  rw [hjoin]
  by_cases hlen : fs.cwdString.bytes.length < size
  · rw [fill_fits hlen, ok_bind, ok_bind, if_neg (Nat.not_lt.2 hlen)]
    rfl
  · rw [fill_overflows (Nat.le_of_not_lt hlen)]
    rfl

theorem fsGetcwd_root (hroot : fs.currentDir = fs.rootDir) (hs : 1 ≤ size) :
    fsGetcwd fs size =
      if size < 2 then .ok (fsErrorNoSpace, []) else .ok (fsSuccess, slash.bytes) := by
  rw [fsGetcwd, dif_neg (Nat.not_lt.2 hs), if_pos hroot]

/-- The result of `fs_change_directory` and the directory it enters, if it enters one. -/
def cdTarget (fs : Filesystem) (path : CStr) : Int × Option Nat :=
  if path.bytes.length = 0 then (fsErrorInvalidPath, none)
  else if strcmp path.bytes (CStr.ofString ".").bytes = 0 then (fsSuccess, none)
  else if strcmp path.bytes (CStr.ofString "..").bytes = 0 then
    (fsSuccess, some (fs.files fs.currentDir).parentId)
  else
    match findFileInDir fs fs.currentDir path with
    | none => (fsErrorNotFound, none)
    | some id =>
      if (fs.files id).type ≠ .directory then (fsErrorNotDirectory, none) else (fsSuccess, some id)

theorem fsChangeDirectory_eq (hc : fs.currentDir < maxFiles) : fsChangeDirectory fs path =
    match cdTarget fs path with
    | (r, none) => .ok (r, fs)
    | (r, some d) => rebuildCurrentPath { fs with currentDir := d } >>= fun fs' => .ok (r, fs') := by
  rw [fsChangeDirectory, cdTarget]
  split
  · rfl
  split
  · rfl
  split
  · rw [if_neg (Nat.not_le.2 hc)]
    rfl
  cases findFileInDir fs fs.currentDir path with
  | none => rfl
  | some id =>
    by_cases ht : (fs.files id).type = .directory
    · simp only [ht, ne_eq, not_true_eq_false, ↓reduceIte]
      rfl
    · simp only [ht, ne_eq, not_false_eq_true, ↓reduceIte]

theorem cdTarget_cases (hd : cdTarget fs path = (r, some d)) :
    d = (fs.files fs.currentDir).parentId ∨
      findFileInDir fs fs.currentDir path = some d ∧ (fs.files d).type = .directory := by
  rw [cdTarget] at hd
  split at hd
  · cases hd
  split at hd
  · cases hd
  split at hd
  · cases hd
    exact .inl rfl
  split at hd
  · cases hd
  next id hf =>
  split at hd
  · cases hd
  next hdir =>
  cases hd
  exact .inr ⟨hf, Decidable.not_not.1 hdir⟩

theorem cdTarget_lt (ht : InTable fs) (hd : cdTarget fs path = (r, some d)) : d < maxFiles := by
  rcases cdTarget_cases hd with rfl | ⟨hf, _⟩
  · exact ht.parent _
  · exact Nat.lt_of_lt_of_le (findFileInDir_some hf).1 fs.count_le

theorem fsChangeDirectory_stay (ht : InTable fs) (hd : cdTarget fs path = (r, none)) :
    fsChangeDirectory fs path = .ok (r, fs) := by
  rw [fsChangeDirectory_eq ht.current, hd]

theorem fsChangeDirectory_enter (ht : InTable fs) (hd : cdTarget fs path = (r, some d))
    (hfits : (fs.pathString d).bytes.length < maxPathLength) : fsChangeDirectory fs path =
      .ok (r, { fs with currentDir := d, currentPath := ⟨fs.pathString d, hfits⟩ }) := by
  have henter : InTable { fs with currentDir := d } := ⟨ht.root, cdTarget_lt ht hd, ht.parent⟩
  have hfill : fill .currentPath maxPathLength
      (Filesystem.pathString { fs with currentDir := d } d) = .ok ⟨fs.pathString d, hfits⟩ :=
    fill_fits hfits
  rw [fsChangeDirectory_eq ht.current, hd]
  simp only
  rw [rebuildCurrentPath_eq henter, hfill]
  rfl

theorem fsChangeDirectory_overflow (ht : InTable fs) (hd : cdTarget fs path = (r, some d))
    (hlong : ¬(fs.pathString d).bytes.length < maxPathLength) :
    fsChangeDirectory fs path = .error (.outOfRange .currentPath) := by
  have henter : InTable { fs with currentDir := d } := ⟨ht.root, cdTarget_lt ht hd, ht.parent⟩
  have hfill : fill .currentPath maxPathLength
      (Filesystem.pathString { fs with currentDir := d } d) = .error (.outOfRange .currentPath) :=
    fill_overflows (Nat.le_of_not_lt hlong)
  rw [fsChangeDirectory_eq ht.current, hd]
  simp only
  rw [rebuildCurrentPath_eq henter, hfill]
  rfl

end

end ChipOS
