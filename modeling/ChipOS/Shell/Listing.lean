import ChipOS.Fs.VolumePaths
import ChipOS.Shell.Numbers
import ChipOS.Shell.Output

namespace ChipOS
open CharArray (Chars)
open NameTree Run
set_option autoImplicit true

/-- A `uint32_t` passed as an `int`. -/
def asInt (x : Nat) : Int := if x < 2 ^ 31 then x else x - 2 ^ 32

/-- The string that `itoa` leaves in a buffer of 16 bytes. -/
def itoaText (value base : Int) : Except Fault (List UInt8) := do
  let buf ← checked .digits (itoa 16 (fun _ => 0) value base)
  return CharArray.text 16 buf

/-- What `fs_list_directory` prints for an entry of the directory. -/
def listEntry (longListing : Bool) (f : FileEntry) : Except Fault (List Print) :=
  if longListing then do
    let sizeBuf ← itoaText (asInt f.size) 16
    let parentBuf ← itoaText (asInt f.parentId) 16
    return [.puts [if f.type = .directory then 'd'.toUInt8 else 'f'.toUInt8], .text "     0x",
      .puts sizeBuf, .text " ", .puts f.name.bytes, .text " 0x", .puts parentBuf, .text "\n"]
  else return [.puts f.name.bytes, .text "\n"]

/-- The loop of `fs_list_directory` over the entries. -/
def listLoop (fs : Filesystem) (dirId : Nat) (longListing : Bool) :
    List Nat → Except Fault (List Print)
  | [] => .ok []
  | i :: is => do
    let out ← if (fs.files i).parentId = dirId then listEntry longListing (fs.files i) else .ok []
    let more ← listLoop fs dirId longListing is
    return out ++ more

def listHeader : List Print :=
  [.text "Type  Size     Name        ParentID\n", .text "----  -------- ----------- --------\n"]

/-- `fs_list_directory` of an index that is not negative. -/
def fsListDirectory (fs : Filesystem) (dirId : Nat) (longListing : Bool) :
    Except Fault (List Print) :=
  if dirId ≥ maxFiles then .error (.outOfRange .fileTable)
  else if (fs.files dirId).type ≠ .directory then .ok [.text "ls: not a directory\n"]
  else do
    let rows ← listLoop fs dirId longListing (List.range fs.fileCount)
    return (if longListing then listHeader else []) ++ rows

/-- The loop of `cmd_ls` over its arguments. -/
def lsArguments (args : List CStr) : Bool × Option CStr :=
  args.foldl (fun r arg =>
    if strcmp arg.bytes (CStr.ofString "-l").bytes = 0 then (true, r.2) else (r.1, some arg))
    (false, none)

def cmdLs (fs : Filesystem) (argv : List CStr) : Except Fault (List Print) :=
  let (longListing, path) := lsArguments argv.tail
  match path with
  | some path => do
    match ← fsResolvePath fs path with
    | none => return nameMessage "ls: cannot access '" path
    | some dirId => fsListDirectory fs dirId longListing
  | none => fsListDirectory fs fs.currentDir longListing

def Filesystem.children (fs : Filesystem) (dir : Nat) : List Nat :=
  (List.range fs.fileCount).filter fun i => (fs.files i).parentId = dir

def Filesystem.names (fs : Filesystem) (dir : Nat) : List CStr :=
  (fs.children dir).map fun i => (fs.files i).name.toCStr

def shortRow (name : CStr) : List Print := [.puts name.bytes, .text "\n"]

def longRow (letter : Char) (size : Nat) (name : CStr) (parent : Nat) : List Print :=
  [.puts [letter.toUInt8], .text "     0x", .puts (itoaString 16 size), .text " ", .puts name.bytes,
    .text " 0x", .puts (itoaString 16 parent), .text "\n"]

/-- The row for a name of the volume in the directory with the index `parent`. -/
def nodeRow (parent : Nat) (name : CStr) : Option Node → List Print
  | some .directory => longRow 'd' 0 name parent
  | some (.file data) => longRow 'f' data.length name parent
  | _ => longRow 'f' 0 name parent

/-- The listing of a directory: each name there once, in some order, and for the long listing the
index of the directory. -/
def Volume.Lists (v : Volume) (dir : List CStr) (longListing : Bool) (out : List Print) : Prop :=
  ∃ (names : List CStr) (dirId : Nat), names.Nodup ∧
    (∀ n, n ∈ names ↔ ({ v with here := dir } : Volume).lookup n ≠ none) ∧
    out = if longListing then
        listHeader ++ names.flatMap fun n => nodeRow dirId n (({ v with here := dir } : Volume).lookup n)
      else names.flatMap shortRow

/-- What `ls` prints for its arguments. -/
def Volume.Listing (v : Volume) (args : List CStr) (out : List Print) : Prop :=
  let (longListing, path) := lsArguments args
  match path with
  | none => v.Lists v.here longListing out
  | some path =>
    if path.bytes ≠ [] ∧ v.node (v.resolve path) = some .directory then
      v.Lists (v.resolve path) longListing out
    else out = nameMessage "ls: cannot access '" path

section
variable {fs : Filesystem} {v : Volume}

theorem mem_children : i ∈ fs.children dir ↔ i < fs.fileCount ∧ (fs.files i).parentId = dir := by
  rw [Filesystem.children, List.mem_filter, List.mem_range, decide_eq_true_eq]

theorem mem_names : n ∈ fs.names dir ↔ (findFileInDir fs dir n).isSome := by
  rw [Filesystem.names, List.mem_map]
  constructor
  · rintro ⟨i, hi, hname⟩
    obtain ⟨hlive, hparent⟩ := mem_children.1 hi
    cases hf : findFileInDir fs dir n with
    | none => exact absurd hname (findFileInDir_none hf hlive hparent)
    | some j => rfl
  · intro hsome
    obtain ⟨i, hf⟩ := Option.isSome_iff_exists.1 hsome
    obtain ⟨hlive, hparent, hname⟩ := findFileInDir_some hf
    exact ⟨i, mem_children.2 ⟨hlive, hparent⟩, hname⟩

theorem names_nodup (ht : IsTree fs.links 0) : (fs.names dir).Nodup := by
  have hrange : (fs.children dir).Nodup := List.nodup_range.filter _
  apply List.Nodup.map_on _ hrange
  intro i hi j hj he
  obtain ⟨hilive, hiparent⟩ := mem_children.1 hi
  obtain ⟨hjlive, hjparent⟩ := mem_children.1 hj
  exact ht.name_inj i j hilive hjlive (hiparent.trans hjparent.symm) he

theorem itoaText_eq {base : Nat} (hb : 10 ≤ base) (hb' : base ≤ 36) (hx : x < 2 ^ 31) :
    itoaText (asInt x) base = .ok (itoaString base x) := by
  have hint : asInt x = (x : Int) := if_pos hx
  have hmax : intMax = 2147483647 := rfl
  have hmin : intMin = -2147483648 := rfl
  have hlen : (itoaString base (x : Int)).length ≤ 10 := itoaString_length hb (by omega) (by omega)
  obtain ⟨out, he, hholds⟩ : ∃ out, itoa 16 (fun _ => 0) (x : Int) base = some out ∧
      CharArray.Holds out 0 (itoaString base x) :=
    itoa_holds (fun _ => 0) (by omega) hb' (by omega)
  have htext : CharArray.text 16 out = itoaString base x := CharArray.text_eq hholds (by omega)
  rw [itoaText, hint, he, checked, ok_bind, htext]
  rfl

theorem hexText_eq (hx : x < 2 ^ 31) : itoaText (asInt x) 16 = .ok (itoaString 16 x) := by
  have hbase : itoaText (asInt x) (16 : Nat) = .ok (itoaString 16 x) :=
    itoaText_eq (by decide) (by decide) hx
  exact hbase

theorem listEntry_short : listEntry false f = .ok (shortRow f.name.toCStr) := rfl

theorem listEntry_long (hs : f.size < 2 ^ 31) (hp : f.parentId < 2 ^ 31) :
    listEntry true f =
      .ok (longRow (if f.type = .directory then 'd' else 'f') f.size f.name.toCStr f.parentId) := by
  rw [listEntry, if_pos rfl, hexText_eq hs, hexText_eq hp]
  by_cases ht : f.type = .directory
  · rw [if_pos ht, if_pos ht]
    rfl
  · rw [if_neg ht, if_neg ht]
    rfl

theorem listLoop_eq {line : Nat → List Print}
    (hl : ∀ i ∈ is, (fs.files i).parentId = dir → listEntry long (fs.files i) = .ok (line i)) :
    listLoop fs dir long is =
      .ok ((is.filter fun i => (fs.files i).parentId = dir).flatMap line) := by
  induction is with
  | nil => rfl
  | cons i is ih =>
    obtain ⟨hfirst, hrest⟩ := List.forall_mem_cons.1 hl
    rw [listLoop, ih hrest]
    by_cases hp : (fs.files i).parentId = dir
    · have hkeep : (i :: is).filter (fun i => (fs.files i).parentId = dir) =
          i :: is.filter fun i => (fs.files i).parentId = dir :=
        List.filter_cons_of_pos (by simpa using hp)
      rw [if_pos hp, hfirst hp, hkeep, List.flatMap_cons]
      rfl
    · have hdrop : (i :: is).filter (fun i => (fs.files i).parentId = dir) =
          is.filter fun i => (fs.files i).parentId = dir :=
        List.filter_cons_of_neg (by simpa using hp)
      rw [if_neg hp, hdrop]
      rfl

theorem fsListDirectory_short (hd : dir < maxFiles) (ht : (fs.files dir).type = .directory) :
    fsListDirectory fs dir false = .ok ((fs.names dir).flatMap shortRow) := by
  have hloop : listLoop fs dir false (List.range fs.fileCount) =
      .ok (((List.range fs.fileCount).filter fun i => (fs.files i).parentId = dir).flatMap
        fun i => shortRow (fs.files i).name.toCStr) :=
    listLoop_eq fun _ _ _ => listEntry_short
  rw [fsListDirectory, if_neg (Nat.not_le.2 hd), if_neg (not_not.2 ht), hloop, Filesystem.names,
    List.flatMap_map]
  rfl

theorem fsListDirectory_long {x : CStr → Option Node} (hi : SizeInv fs) (hd : dir < maxFiles)
    (ht : (fs.files dir).type = .directory)
    (hx : ∀ i ∈ fs.children dir, x (fs.files i).name.toCStr = some (fs.node i)) :
    fsListDirectory fs dir true =
      .ok (listHeader ++ (fs.names dir).flatMap fun n => nodeRow dir n (x n)) := by
  have hmax : maxFiles < 2 ^ 31 := by decide
  have hsmall : maxFileSize < 2 ^ 31 := by decide
  have hline : ∀ i ∈ List.range fs.fileCount, (fs.files i).parentId = dir →
      listEntry true (fs.files i) =
        .ok (nodeRow dir (fs.files i).name.toCStr (x (fs.files i).name.toCStr)) := by
    intro i hmem hp
    have hlive := List.mem_range.1 hmem
    have hsize := hi.small i hlive
    rw [listEntry_long (by omega) (by omega), hx i (mem_children.2 ⟨hlive, hp⟩), hp,
      Filesystem.node]
    cases hty : (fs.files i).type with
    | regular =>
      have hlen : (fs.content i).length = (fs.files i).size := ByteMemory.slice_length
      simp only [nodeRow, hlen]
      rfl
    | directory =>
      rw [hi.zero i hlive (by rw [hty]; decide)]
      rfl
    | device =>
      rw [hi.zero i hlive (by rw [hty]; decide)]
      rfl
  rw [fsListDirectory, if_neg (Nat.not_le.2 hd), if_neg (not_not.2 ht), listLoop_eq hline,
    Filesystem.names, List.flatMap_map]
  rfl

theorem Represents.mem_names (hr : Represents fs v) (hp : fs.IsPath p dir) :
    n ∈ fs.names dir ↔ v.node (p ++ [n]) ≠ none ∨ p = [] ∧ n = slash := by
  have hroot : ∀ {i}, i < fs.fileCount ∧ (fs.files i).parentId = dir → i = 0 → p = [] := by
    rintro i hi rfl
    have hdir : dir = 0 := hi.2.symm.trans hr.tree.tree.root_parent
    have hnil : fs.IsPath [] dir := hdir ▸ .nil
    exact hp.unique hnil
  rw [Filesystem.names, List.mem_map, hr.node]
  constructor
  · rintro ⟨i, hi, rfl⟩
    by_cases hz : i = 0
    · exact .inr ⟨hroot (mem_children.1 hi) hz, hz ▸ hr.tree.root_name⟩
    · obtain ⟨hlive, hparent⟩ := mem_children.1 hi
      subst hparent
      have hpath : fs.IsPath (p ++ [(fs.files i).name.toCStr]) i := .snoc hlive hz hp
      rw [hr.tree.tree.at_path hpath]
      exact .inl (Option.some_ne_none _)
  · rintro (hn | ⟨rfl, rfl⟩)
    · by_contra hnot
      apply hn
      apply at_none
      intro i hi
      obtain ⟨hlive, _, hname, hparent⟩ := isPath_concat hi
      exact hnot ⟨i, mem_children.2 ⟨hlive, hr.tree.tree.path_inj hparent hp⟩, hname⟩
    · have hdir : dir = 0 := hr.tree.tree.path_inj hp .nil
      refine ⟨0, mem_children.2 ⟨hr.tree.tree.root_live, ?_⟩, hr.tree.root_name⟩
      exact hdir ▸ hr.tree.tree.root_parent

theorem Represents.mem_here (hr : Represents fs v) :
    n ∈ fs.names fs.currentDir ↔ v.lookup n ≠ none := by
  rw [ChipOS.mem_names, hr.lookup]
  cases findFileInDir fs fs.currentDir n with
  | none => exact iff_of_false (by decide) (not_not.2 rfl)
  | some i => exact iff_of_true rfl (Option.some_ne_none _)

theorem Represents.lists (hr : Represents fs v) (hp : fs.IsPath p dir)
    (hdir : (fs.files dir).type = .directory) (longListing : Bool) :
    ∃ out, fsListDirectory fs dir longListing = .ok out ∧ v.Lists p longListing out := by
  have hlt : dir < maxFiles := Nat.lt_of_lt_of_le (hp.live hr.tree.tree) fs.count_le
  have hmem : ∀ n, n ∈ fs.names dir ↔ ({ v with here := p } : Volume).lookup n ≠ none := by
    intro n
    rw [ChipOS.mem_names, hr.lookup_in hp]
    cases findFileInDir fs dir n with
    | none => exact iff_of_false (by decide) (not_not.2 rfl)
    | some i => exact iff_of_true rfl (Option.some_ne_none _)
  cases longListing with
  | false => exact ⟨_, fsListDirectory_short hlt hdir, fs.names dir, dir, names_nodup hr.tree.tree, hmem, rfl⟩
  | true =>
    have hall : ∀ i ∈ fs.children dir, ({ v with here := p } : Volume).lookup
        (fs.files i).name.toCStr = some (fs.node i) := by
      intro i hchild
      obtain ⟨hlive, hparent⟩ := mem_children.1 hchild
      rw [hr.lookup_in hp, (find_iff hr.tree.tree).2 ⟨hlive, hparent, rfl⟩, Option.map_some]
    exact ⟨_, fsListDirectory_long hr.sizes hlt hdir hall, fs.names dir, dir, names_nodup hr.tree.tree,
      hmem, rfl⟩

theorem fsResolvePath_short (hne : path.bytes ≠ []) (he : fsResolvePath fs path = .ok r) :
    path.bytes.length < maxPath - 1 := by
  by_contra hlong
  rw [fsResolvePath, if_neg hne, strncpy_long (Nat.le_of_not_lt hlong) (by decide)] at he
  cases he

theorem Represents.listing (hr : Represents fs v) (he : cmdLs fs argv = .ok out) :
    v.Listing argv.tail out := by
  rw [cmdLs] at he
  rw [Volume.Listing]
  generalize lsArguments argv.tail = args at he
  obtain ⟨longListing, path⟩ := args
  cases path with
  | none =>
    obtain ⟨out', hlist, hlists⟩ := hr.lists hr.here hr.tree.current_directory longListing
    cases hlist.symm.trans he
    exact hlists
  | some path =>
    obtain ⟨found, hfound, he⟩ := bind_eq_ok.1 he
    dsimp only
    by_cases hne : path.bytes = []
    · rw [fsResolvePath, if_pos hne] at hfound
      cases hfound
      cases he
      rw [if_neg fun h => h.1 hne]
    have hresolve := hr.resolve hne (fsResolvePath_short hne hfound)
    by_cases hdir : v.node (v.resolve path) = some .directory
    · rw [if_pos hdir] at hresolve
      rw [if_pos ⟨hne, hdir⟩]
      obtain ⟨d, hd, hp⟩ := hresolve
      cases hd.symm.trans hfound
      have htype := ((hr.resolve_iff hne (fsResolvePath_short hne hd)).1 hd).2
      obtain ⟨out', hlist, hlists⟩ := hr.lists hp htype longListing
      cases hlist.symm.trans he
      exact hlists
    · rw [if_neg hdir] at hresolve
      rw [if_neg fun h => hdir h.2]
      cases hresolve.symm.trans hfound
      cases he
      rfl

theorem Represents.ls (hr : Represents fs v) (cmd : CStr) :
    cmdLs fs [cmd] = .ok ((fs.names fs.currentDir).flatMap shortRow) :=
  fsListDirectory_short hr.paths.table.current hr.tree.current_directory

theorem Represents.lsLong (hr : Represents fs v) (cmd : CStr) :
    cmdLs fs [cmd, .ofString "-l"] = .ok (listHeader ++
      (fs.names fs.currentDir).flatMap fun n => nodeRow fs.currentDir n (v.lookup n)) := by
  have hargs : lsArguments [.ofString "-l"] = (true, none) := rfl
  have hall : ∀ i ∈ fs.children fs.currentDir,
      v.lookup (fs.files i).name.toCStr = some (fs.node i) := by
    intro i hmem
    obtain ⟨hlive, hparent⟩ := mem_children.1 hmem
    exact hr.lookup_some ((find_iff hr.tree.tree).2 ⟨hlive, hparent, rfl⟩)
  rw [cmdLs, List.tail_cons, hargs]
  exact fsListDirectory_long hr.sizes hr.paths.table.current hr.tree.current_directory hall

theorem Represents.lsPath (hr : Represents fs v) (cmd : CStr) (hopt : path ≠ .ofString "-l")
    (hne : path.bytes ≠ []) (hlen : path.bytes.length < maxPath - 1) :
    if v.node (v.resolve path) = some .directory then
      ∃ names : List CStr, names.Nodup ∧
        (∀ n, n ∈ names ↔ v.node (v.resolve path ++ [n]) ≠ none ∨
          v.resolve path = [] ∧ n = slash) ∧
        cmdLs fs [cmd, path] = .ok (names.flatMap shortRow)
    else cmdLs fs [cmd, path] = .ok (nameMessage "ls: cannot access '" path) := by
  have hargs : lsArguments [path] = (false, some path) := by
    rw [lsArguments, List.foldl_cons, if_neg (fun hc => hopt (strcmp_eq_zero.1 hc))]
    rfl
  have hres := hr.resolve hne hlen
  rw [cmdLs, List.tail_cons, hargs]
  simp only
  split
  · next hn =>
    rw [if_pos hn] at hres
    obtain ⟨d, he, hp⟩ := hres
    have hdir : (fs.files d).type = .directory := ((hr.resolve_iff hne hlen).1 he).2
    have hlt : d < maxFiles := Nat.lt_of_lt_of_le (hp.live hr.tree.tree) fs.count_le
    refine ⟨fs.names d, names_nodup hr.tree.tree, fun n => hr.mem_names hp, ?_⟩
    rw [he, ok_bind]
    exact fsListDirectory_short hlt hdir
  · next hn =>
    rw [if_neg hn] at hres
    rw [hres]
    rfl

end

/-- In the runs that follow the volume `ls` prints every name once: without a path the names one
can use in the current directory, with the kind and length of each under `-l`; with a path the
names behind it, if the volume has a directory there. -/
theorem ls_follows_volume (t : Nat) (ops : List FsOp)
    (hc : Each fsStep (fun fs op => ClearStep fs op ∧ DeletesLeaf fs op) (fsInit t) ops)
    (he : answers fsCall (fsInit t) ops = .ok (rs, fs)) (cmd : CStr) :
    ∃ v, Gives Volume.Calls .boot ops rs v ∧
      (∃ names : List CStr, names.Nodup ∧ (∀ n, n ∈ names ↔ v.lookup n ≠ none) ∧
        cmdLs fs [cmd] = .ok (names.flatMap shortRow) ∧
        cmdLs fs [cmd, .ofString "-l"] = .ok (listHeader ++
          names.flatMap fun n => nodeRow fs.currentDir n (v.lookup n))) ∧
      ∀ path : CStr, path ≠ .ofString "-l" → path.bytes ≠ [] → path.bytes.length < maxPath - 1 →
        if v.node (v.resolve path) = some .directory then
          ∃ names : List CStr, names.Nodup ∧
            (∀ n, n ∈ names ↔ v.node (v.resolve path ++ [n]) ≠ none ∨
              v.resolve path = [] ∧ n = slash) ∧
            cmdLs fs [cmd, path] = .ok (names.flatMap shortRow)
        else cmdLs fs [cmd, path] = .ok (nameMessage "ls: cannot access '" path) := by
  obtain ⟨v, hgives, hr⟩ := volume_of_run t ops hc he
  exact ⟨v, hgives, ⟨fs.names fs.currentDir, names_nodup hr.tree.tree, fun _ => hr.mem_here, hr.ls cmd,
    hr.lsLong cmd⟩, fun path hopt hne hlen => hr.lsPath cmd hopt hne hlen⟩

/-- `ls` after `mkdir a`. -/
theorem ls_follows_volume_made : ∃ rs fs v, ∃ names : List CStr,
    answers fsCall (fsInit 0) [.makeDirectory (.ofString "a")] = .ok (rs, fs) ∧
    Gives Volume.Calls .boot [.makeDirectory (.ofString "a")] rs v ∧
    (∀ n, n ∈ names ↔ v.lookup n ≠ none) ∧
    cmdLs fs [.ofString "ls"] = .ok (names.flatMap shortRow) := by
  have hclear : ClearStep (fsInit 0) (.makeDirectory (.ofString "a")) := by
    intro c hc
    cases hc
  obtain ⟨v, hgives, ⟨names, _, hmem, hls, _⟩, _⟩ := ls_follows_volume 0
    [.makeDirectory (.ofString "a")] ⟨⟨hclear, trivial⟩, fun _ _ => trivial⟩ rfl (.ofString "ls")
  exact ⟨_, _, v, names, rfl, hgives, hmem, hls⟩

end ChipOS
