import ChipOS.Fs.ExactPath
import ChipOS.Fs.Isolation

namespace ChipOS
open ByteMemory NameTree Run
set_option autoImplicit true

/-- What a path leads to. -/
inductive Node where
  | directory
  | file (data : List UInt8)
  | device
deriving DecidableEq

def Node.new : FileType → Node
  | .directory => .directory
  | .regular => .file []
  | .device => .device

/-- The file system as its users see it: what each absolute path leads to, the path of the
directory they are in, and how many directories have been made. -/
structure Volume where
  node : List CStr → Option Node
  here : List CStr
  made : Nat

namespace Volume

/-- The path of a name. In the root the name `/` is that of the root itself. -/
def child (v : Volume) (name : CStr) : List CStr :=
  if v.here = [] ∧ name = slash then [] else v.here ++ [name]

def lookup (v : Volume) (name : CStr) : Option Node := v.node (v.child name)

def put (v : Volume) (name : CStr) (x : Node) : Volume :=
  { v with node := Function.update v.node (v.child name) (some x) }

def remove (v : Volume) (name : CStr) : Volume :=
  { v with node := Function.update v.node (v.child name) none }

noncomputable def entries (v : Volume) : Nat := Set.ncard {p | v.node p ≠ none}

/-- There is no room for a new entry. Directories that are removed still count for `mkdir`. -/
noncomputable def full (v : Volume) : FsOp → Bool
  | .makeDirectory _ => v.entries ≥ maxFiles ∨ v.made ≥ maxFiles
  | _ => v.entries ≥ maxFiles

/-- The directory is not empty. The root is its own child. -/
def Busy (v : Volume) (p : List CStr) : Prop := p = [] ∨ ∃ s, v.node (p ++ [s]) ≠ none

def read (v : Volume) (name : CStr) (size : Nat) : Int × List UInt8 :=
  match v.lookup name with
  | some (.file data) => ((data.take size).length, data.take size)
  | _ => (fsErrorInvalidPath, [])

def write (v : Volume) (full : Bool) (name : CStr) (data : List UInt8) : Int × Volume :=
  match v.lookup name with
  | some (.file _) => (fsSuccess, v.put name (.file (data.take maxFileSize)))
  | some _ => (fsErrorInvalidPath, v)
  | none => if full then (fsErrorNoSpace, v) else (fsSuccess, v.put name (.file (data.take maxFileSize)))

open Classical in
/-- The answer to a call and the volume after it, given whether there is room for a new entry. -/
noncomputable def call (v : Volume) (full : Bool) : FsOp → Int × Volume
  | .createFile name type =>
    if full then (fsErrorNoSpace, v)
    else match v.lookup name with
      | some _ => (fsErrorAlreadyExists, v)
      | none => (fsSuccess, v.put name (.new type))
  | .writeFile name data size => v.write full name (data.take size)
  | .touchFile name =>
    match v.lookup name with
    | some _ => (fsSuccess, v)
    | none => if full then (fsErrorNoSpace, v) else (fsSuccess, v.put name (.file []))
  | .makeDirectory name =>
    if name.bytes.length = 0 ∨ name.bytes.length ≥ maxFilename then (fsErrorInvalidName, v)
    else match v.lookup name with
      | some _ => (fsErrorAlreadyExists, v)
      | none =>
        if full then (fsErrorNoSpace, v)
        else (fsSuccess, { v.put name .directory with made := v.made + 1 })
  | .deleteFile name =>
    match v.lookup name with
    | some _ => (fsSuccess, v.remove name)
    | none => (fsErrorNotFound, v)
  | .removeDirectory name =>
    match v.lookup name with
    | some .directory =>
      if v.Busy (v.child name) then (fsErrorNotEmpty, v) else (fsSuccess, v.remove name)
    | some _ => (fsErrorNotDirectory, v)
    | none => (fsErrorNotFound, v)
  | .copyFile src dest =>
    match v.lookup src with
    | some (.file data) => v.write full dest data
    | _ => (fsErrorInvalidPath, v)
  | .moveFile src dest =>
    match v.lookup src, v.lookup dest with
    | none, _ => (fsErrorNotFound, v)
    | some _, some _ => (fsErrorAlreadyExists, v)
    | some x, none =>
      if full then (fsErrorNoSpace, v)
      else match x with
        | .file data => (fsSuccess, (v.put dest (.file data)).remove src)
        | _ => (fsErrorPermissionDenied, v)
  | .changeDirectory path =>
    if path.bytes.length = 0 then (fsErrorInvalidPath, v)
    else if path = .ofString "." then (fsSuccess, v)
    else if path = .ofString ".." then (fsSuccess, { v with here := v.here.dropLast })
    else match v.lookup path with
      | some .directory => (fsSuccess, { v with here := v.child path })
      | some _ => (fsErrorNotDirectory, v)
      | none => (fsErrorNotFound, v)

def boot : Volume :=
  let root : Volume := { node p := if p = [] then some .directory else none, here := [], made := 4 }
  ((root.put (.ofString "home") .directory).put (.ofString "bin") .directory).put (.ofString "etc")
    .directory

/-- The path of the directory one is in, as `fs_get_current_path` writes it. -/
def pathName (v : Volume) : CStr := exactPath (lastNames v.here)

def Calls (v : Volume) (op : FsOp) (r : Int) (v' : Volume) : Prop :=
  v.call (v.full op) op = (r, v')

end Volume

def Filesystem.node (fs : Filesystem) (i : Nat) : Node :=
  match (fs.files i).type with
  | .regular => .file (fs.content i)
  | .directory => .directory
  | .device => .device

def Filesystem.full (fs : Filesystem) : FsOp → Bool
  | .makeDirectory _ => fs.fileCount ≥ maxFiles ∨ fs.nextFileId ≥ maxFiles
  | _ => fs.fileCount ≥ maxFiles

/-- The tables hold the volume. -/
structure Represents (fs : Filesystem) (v : Volume) : Prop where
  paths : PathInv fs fs.currentPath.toCStr
  storage : StorageInv fs
  sizes : SizeInv fs
  made : fs.nextFileId = v.made
  node : v.node = fs.links.at 0 fs.node
  here : fs.IsPath v.here fs.currentDir

section
variable {fs fs' : Filesystem} {v : Volume} {h : fs.fileCount < maxFiles}

theorem Represents.tree (hr : Represents fs v) : TreeInv fs := hr.paths.tree

theorem node_regular (ht : (fs.files i).type = .regular) : fs.node i = .file (fs.content i) := by
  rw [Filesystem.node, ht]

theorem node_file (hn : fs.node i = .file data) : (fs.files i).type = .regular := by
  rw [Filesystem.node] at hn
  cases ht : (fs.files i).type with
  | regular => rfl
  | directory =>
    rw [ht] at hn
    cases hn
  | device =>
    rw [ht] at hn
    cases hn

theorem node_directory : fs.node i = .directory ↔ (fs.files i).type = .directory := by
  rw [Filesystem.node]
  cases (fs.files i).type <;> simp

theorem node_congr (ht : (fs'.files j).type = (fs.files i).type)
    (hc : (fs.files i).type = .regular → fs'.content j = fs.content i) :
    fs'.node j = fs.node i := by
  rw [Filesystem.node, Filesystem.node, ht]
  cases htype : (fs.files i).type with
  | regular => rw [hc htype]
  | directory => rfl
  | device => rfl

theorem PathInv.relinked (hi : PathInv fs path) (hl : fs'.links = fs.links) (ht : InTable fs')
    (hc : fs'.currentDir = fs.currentDir) : PathInv fs' path := by
  refine ⟨hi.tree.congr hl hc, ht, ?_⟩
  rw [hi.current, Filesystem.pathString, Filesystem.pathString, hl, hc, ht.root, hi.table.root]

theorem Represents.entries_eq (hr : Represents fs v) : v.entries = fs.fileCount := by
  have hlive : {i | fs.links.live i} = (Finset.range fs.fileCount : Set Nat) := by
    rw [Finset.coe_range]
    rfl
  rw [Volume.entries, hr.node, hr.tree.tree.ncard_at, hlive, Set.ncard_coe_finset,
    Finset.card_range]

theorem Represents.full_eq (hr : Represents fs v) (op : FsOp) : fs.full op = v.full op := by
  cases op <;> simp only [Filesystem.full, Volume.full, hr.entries_eq, hr.made]

theorem Represents.found_in (hr : Represents fs v) (hp : fs.IsPath p dir)
    (hf : findFileInDir fs dir name = some i) :
    fs.IsPath (({ v with here := p } : Volume).child name) i := by
  obtain ⟨hi, hparent, hname⟩ := findFileInDir_some hf
  have hroot : p = [] ∧ name = slash ↔ i = 0 := by
    constructor
    · rintro ⟨rfl, rfl⟩
      have hcur : dir = 0 := hr.tree.tree.path_inj hp .nil
      have hzero : (fs.files 0).parentId = 0 := hr.tree.tree.root_parent
      exact hr.tree.tree.name_inj i 0 hi hr.tree.tree.root_live
        (hparent.trans (hcur.trans hzero.symm)) (hname.trans hr.tree.root_name.symm)
    · rintro rfl
      have hcur : dir = 0 := hparent.symm.trans hr.tree.tree.root_parent
      have hnil : fs.IsPath [] dir := hcur ▸ .nil
      exact ⟨hp.unique hnil, hname.symm.trans hr.tree.root_name⟩
  rw [Volume.child]
  by_cases hz : i = 0
  · rw [if_pos (hroot.2 hz), hz]
    exact .nil
  · rw [if_neg (fun hc => hz (hroot.1 hc))]
    exact isPath_found hf hz hp

theorem Represents.found (hr : Represents fs v)
    (hf : findFileInDir fs fs.currentDir name = some i) : fs.IsPath (v.child name) i :=
  hr.found_in hr.here hf

theorem isPath_concat (hp : fs.IsPath (p ++ [s]) i) :
    i < fs.fileCount ∧ i ≠ 0 ∧ (fs.files i).name.toCStr = s ∧ fs.IsPath p (fs.files i).parentId := by
  rw [Filesystem.IsPath] at hp
  generalize hq : p ++ [s] = q at hp
  cases hp with
  | nil => exact absurd hq (by simp)
  | @snoc _ p' hlive hne hp' =>
    obtain ⟨rfl, hname⟩ := List.append_inj' hq rfl
    exact ⟨hlive, hne, (List.singleton_inj.1 hname).symm, hp'⟩

theorem Represents.lookup_in (hr : Represents fs v) (hp : fs.IsPath p dir) (name : CStr) :
    ({ v with here := p } : Volume).lookup name = (findFileInDir fs dir name).map fs.node := by
  rw [Volume.lookup]
  dsimp only
  rw [hr.node]
  cases hf : findFileInDir fs dir name with
  | some i => exact hr.tree.tree.at_path (hr.found_in hp hf)
  | none =>
    apply at_none
    intro a ha
    rw [Volume.child] at ha
    split at ha
    · next hc =>
      -- the root is found in the root
      have hcur : dir = 0 := hr.tree.tree.path_inj (hc.1 ▸ hp) .nil
      have hzero : (fs.files 0).parentId = 0 := hr.tree.tree.root_parent
      exact findFileInDir_none hf hr.tree.tree.root_live (hzero.trans hcur.symm)
        (hr.tree.root_name.trans hc.2.symm)
    · obtain ⟨hlive, _, hname, hparent⟩ := isPath_concat ha
      exact findFileInDir_none hf hlive (hr.tree.tree.path_inj hparent hp) hname

theorem Represents.lookup (hr : Represents fs v) (name : CStr) :
    v.lookup name = (findFileInDir fs fs.currentDir name).map fs.node :=
  hr.lookup_in hr.here name

theorem Represents.lookup_some (hr : Represents fs v)
    (hf : findFileInDir fs fs.currentDir name = some i) : v.lookup name = some (fs.node i) := by
  rw [hr.lookup, hf, Option.map_some]

theorem Represents.lookup_none (hr : Represents fs v)
    (hf : findFileInDir fs fs.currentDir name = none) : v.lookup name = none := by
  rw [hr.lookup, hf, Option.map_none]

theorem Represents.busy (hr : Represents fs v) (hp : fs.IsPath p i) :
    v.Busy p ↔ ∃ j < fs.fileCount, (fs.files j).parentId = i := by
  constructor
  · rintro (rfl | ⟨s, hs⟩)
    · have hi : i = 0 := hr.tree.tree.path_inj hp .nil
      exact ⟨0, hr.tree.tree.root_live, hi ▸ hr.tree.tree.root_parent⟩
    · rw [hr.node] at hs
      by_contra hnone
      apply hs
      apply at_none
      intro a ha
      obtain ⟨hlive, _, _, hq⟩ := isPath_concat ha
      exact hnone ⟨a, hlive, hr.tree.tree.path_inj hq hp⟩
  · rintro ⟨j, hj, hparent⟩
    by_cases hz : j = 0
    · subst hz
      have hi : i = 0 := hparent.symm.trans hr.tree.tree.root_parent
      have hnil : fs.IsPath [] i := hi ▸ .nil
      exact .inl (hp.unique hnil)
    · subst hparent
      have hpath : fs.IsPath (p ++ [(fs.files j).name.toCStr]) j := .snoc hj hz hp
      refine .inr ⟨(fs.files j).name.toCStr, ?_⟩
      rw [hr.node, hr.tree.tree.at_path hpath]
      exact Option.some_ne_none _

theorem Represents.congr (hr : Represents fs v) (hs : SameLive fs fs')
    (hp : PathInv fs' fs'.currentPath.toCStr) (hi : StorageInv fs') : Represents fs' v := by
  have hrel : Relabels id fs.links fs'.links := by
    have hlive : ∀ i, fs'.links.live i ↔ fs.links.live i := by
      intro i
      change i < fs'.fileCount ↔ i < fs.fileCount
      rw [hs.fileCount]
    refine ⟨fun i hi => (hlive i).2 hi, fun i hi => ⟨i, (hlive i).1 hi, rfl⟩,
      fun _ _ _ _ he => he, fun i hi hty => ?_, fun i hi => ?_, fun i hi => ?_⟩
    · exact (congrArg FileEntry.type (hs.files i hi)).trans hty
    · exact congrArg FileEntry.parentId (hs.files i hi)
    · exact congrArg (fun entry : FileEntry => entry.name.toCStr) (hs.files i hi)
  have hsizes : SizeInv fs' := by
    refine ⟨fun i hlt => ?_, fun i hlt ht => ?_⟩
    · rw [hs.fileCount] at hlt
      rw [hs.files i hlt]
      exact hr.sizes.small i hlt
    · rw [hs.fileCount] at hlt
      rw [hs.files i hlt] at ht ⊢
      exact hr.sizes.zero i hlt ht
  refine ⟨hp, hi, hsizes, hs.nextFileId.trans hr.made, ?_, ?_⟩
  · rw [hr.node]
    symm
    apply hr.tree.tree.at_relabel hrel
    intro i hi
    exact node_congr (congrArg FileEntry.type (hs.files i hi)) fun _ => hs.content i hi
  · have hpath := PathTo.relabel hr.tree.tree hrel hr.here
    rw [Filesystem.IsPath, hs.currentDir]
    exact hpath

theorem child_of_none (hr : Represents fs v)
    (hf : findFileInDir fs fs.currentDir name = none) : v.child name = v.here ++ [name] := by
  rw [Volume.child]
  apply if_neg
  intro hc
  have hnone := hr.lookup_none hf
  have hnil : fs.IsPath [] 0 := .nil
  rw [Volume.lookup, Volume.child, if_pos hc, hr.node, hr.tree.tree.at_path hnil] at hnone
  cases hnone

theorem Represents.add (hr : Represents fs v) (hn : Fresh fs name type entry) :
    Represents (fs.addEntry entry h).tick (v.put name (.new type)) := by
  have hpaths : PathInv (fs.addEntry entry h).tick fs.currentPath.toCStr :=
    hr.paths.change (.add (n := fs.nextFileId) h hn)
  have hpath : (fs.addEntry entry h).tick.IsPath v.here fs.currentDir :=
    PathTo.insert addEntry_inserts hr.here
  have hnew : (fs.addEntry entry h).tick.IsPath (v.child name) fs.fileCount := by
    rw [child_of_none hr hn.absent]
    exact isPath_found hn.find (Nat.ne_of_gt hr.tree.tree.root_live) hpath
  have hself : (fs.addEntry entry h).tick.node fs.fileCount = .new type := by
    have ht : ((fs.addEntry entry h).tick.files fs.fileCount).type = type := hn.added_type
    rw [Filesystem.node, ht]
    cases type with
    | regular =>
      simp only [Node.new, Filesystem.content, addEntry_files_self, hn.size]
      rfl
    | directory => rfl
    | device => rfl
  refine ⟨hpaths, storageInv_addEntry hr.storage hn, sizeInv_addEntry hr.sizes hn, hr.made, ?_, hpath⟩
  rw [Volume.put, hr.node, ← hself]
  symm
  apply hr.tree.tree.at_insert addEntry_inserts hpaths.tree.tree _ hnew
  intro i hi
  have hfile : (fs.addEntry entry h).tick.files i = fs.files i := addEntry_files_lt hi
  apply node_congr (congrArg FileEntry.type hfile)
  intro _
  rw [Filesystem.content, hfile]
  rfl

theorem node_storeData_self (ht : (fs.files i).type = .regular) (hn : n ≤ data.length) :
    (fs.storeData i data n).node i = .file (data.take n) := by
  have htype : ((fs.storeData i data n).files i).type = .regular := storeData_type.trans ht
  have hlen : (data.take n).length = n := List.length_take_of_le hn
  have hsame : slice (blit fs.dataStorage (fs.files i).dataOffset (data.take n))
    (fs.files i).dataOffset (data.take n).length = data.take n := slice_blit_same
  rw [node_regular htype, Filesystem.content, storeData_dataOffset, storeData_size_self]
  rw [hlen] at hsame
  exact congrArg Node.file hsame

theorem Represents.store (hr : Represents fs v)
    (hf : findFileInDir fs fs.currentDir name = some i) (ht : (fs.files i).type = .regular)
    (hs : (fs.files i).dataOffset + n ≤ storageSize) (hmax : n ≤ maxFileSize)
    (hn : n ≤ data.length) (hc : ClearOfOthers fs ⟨i, (fs.files i).dataOffset, n⟩) :
    Represents (fs.storeData i data n) (v.put name (.file (data.take n))) := by
  have hi := (findFileInDir_some hf).1
  have hfound := hr.found hf
  have hpaths : PathInv (fs.storeData i data n) fs.currentPath.toCStr :=
    hr.paths.relinked storeData_links (inTable_storeData hr.paths.table) rfl
  refine ⟨hpaths, storageInv_storeData hr.storage hs hmax, sizeInv_storeData hr.sizes ht hmax,
    hr.made, ?_, ?_⟩
  · rw [storeData_links]
    funext q
    by_cases hq : q = v.child name
    · subst hq
      rw [hr.tree.tree.at_path hfound, node_storeData_self ht hn]
      exact Function.update_self _ _ _
    · have hold : (v.put name (.file (data.take n))).node q = v.node q := Function.update_of_ne hq _ _
      rw [hold, hr.node]
      symm
      apply hr.tree.tree.at_congr hr.tree.tree
      · intro a ha
        have hne : a ≠ i := by
          rintro rfl
          exact hq (ha.unique hfound)
        have hlive : a < fs.fileCount := ha.live hr.tree.tree
        refine ⟨a, ha, node_congr storeData_type fun hreg => ?_⟩
        exact (unchanged_storeData hn hne (hc a hlive hreg hne)).content
      · exact fun a ha => ⟨a, ha⟩
  · rw [Filesystem.IsPath, storeData_links]
    exact hr.here

theorem Represents.stamp (hr : Represents fs v) : Represents (fs.stamp i) v := by
  have hfield : ∀ {β : Type} {f : FileEntry → β} {j : Nat},
      f { fs.files i with modifiedTime := fs.systemTime } = f (fs.files i) →
      f ((fs.stamp i).files j) = f (fs.files j) := fun he => update_field he
  have hpaths : PathInv (fs.stamp i) fs.currentPath.toCStr :=
    hr.paths.relinked stamp_links (inTable_stamp hr.paths.table) rfl
  refine ⟨hpaths, storageInv_stamp hr.storage, sizeInv_stamp hr.sizes, hr.made, ?_, ?_⟩
  · have hnode : (fs.stamp i).node = fs.node := by
      funext j
      apply node_congr (hfield (f := FileEntry.type) rfl)
      intro _
      rw [Filesystem.content, Filesystem.content, hfield (f := FileEntry.dataOffset) rfl,
        hfield (f := FileEntry.size) rfl]
      rfl
    rw [hr.node, stamp_links, hnode]
  · rw [Filesystem.IsPath, stamp_links]
    exact hr.here

theorem Represents.remove (hr : Represents fs v)
    (hf : findFileInDir fs fs.currentDir name = some i)
    (hleaf : ∀ j < fs.fileCount, (fs.files j).parentId ≠ i) :
    Represents (fs.removeEntry i) (v.remove name) := by
  have hi := (findFileInDir_some hf).1
  have hcur := found_ne_current hf hleaf
  have hchange : PlainChange fs (fs.removeEntry i) := .remove hf hleaf
  have hpaths := hr.paths.change hchange
  rw [← hchange.currentPath] at hpaths
  refine ⟨hpaths, storageInv_removeEntry hr.storage hi, sizeInv_removeEntry hr.sizes hi,
    removeEntry_nextFileId.trans hr.made, ?_, ?_⟩
  · rw [Volume.remove, hr.node]
    symm
    apply at_removeEntry hr.tree.tree hi hleaf (hr.found hf)
    intro j hj hne
    have hkept := removeEntry_kept hi hj hne
    have htype : ((fs.removeEntry i).files (fs.newSlot i j)).type = (fs.files j).type := by
      rw [hkept]
    apply node_congr htype
    intro _
    rw [Filesystem.content, hkept, removeEntry_dataStorage]
    rfl
  · rw [removeEntry_currentDir hi]
    exact isPath_removeEntry hr.tree.tree hi hleaf hr.here hcur

theorem Represents.enter (hr : Represents fs v) (hc : fsChangeDirectory fs name = .ok (r, fs'))
    (hd : cdTarget fs name = (r, some d)) (hp : fs.IsPath q d) :
    Represents fs' { v with here := q } := by
  have hpaths := hr.paths.changeDirectory hc
  by_cases hfits : (fs.pathString d).bytes.length < maxPathLength
  · cases (fsChangeDirectory_enter hr.paths.table hd hfits).symm.trans hc
    exact ⟨hpaths, ⟨hr.storage.usage, hr.storage.extent, hr.storage.size⟩,
      ⟨hr.sizes.small, hr.sizes.zero⟩, hr.made, hr.node, hp⟩
  · cases (fsChangeDirectory_overflow hr.paths.table hd hfits).symm.trans hc

end

end ChipOS
