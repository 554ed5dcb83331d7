import ChipOS.Fs.Resolve
import ChipOS.Lib.CharArray

namespace ChipOS
open CharArray (Chars Holds)
open CharArray Run Words
set_option autoImplicit true

/-- `strtok` on a buffer of `n` bytes, with pointers as indices into it and `none` for `NULL`:
the token, what is left of the buffer, and the static `next`. -/
def strtokAt (n : Nat) (delim : CStr) (buffer : Chars) (next str : Option Int) :
    Option (Option Int × Chars × Option Int) :=
  match str.or next with
  | none => some (none, buffer, none)
  | some next => do
    let next ← scan n (delim.bytes.contains ·) buffer n next
    let c ← get n buffer next
    if c = 0 then return (none, buffer, some next)
    let start := next
    let next ← scan n (!delim.bytes.contains ·) buffer n next
    let c ← get n buffer next
    if c ≠ 0 then
      let buffer ← set n buffer next 0
      return (some start, buffer, some (next + 1))
    else return (some start, buffer, none)

/-- The string at the index `i` of a buffer of `n` bytes, `none` if it has no NUL there. -/
def stringAt (n : Nat) (buffer : Chars) (i : Int) : Option CStr :=
  let room := n - i.toNat
  let s := text room fun k => buffer (i + k)
  if 0 ≤ i ∧ s.length < room then
    some ⟨s, fun hm => absurd (List.mem_takeWhile_imp (p := (· != (0 : UInt8))) hm) (by decide)⟩
  else none

/-- The loop of `fs_resolve_path` over the tokens in `temp_path`. -/
def resolveTokens (fs : Filesystem) :
    Nat → Nat → Option Int → Chars → Option Int → Except Fault (Option Nat × Option Int)
  | 0, _, _, _, _ => .error .outOfFuel
  | _ + 1, dir, none, _, next => .ok (some dir, next)
  | fuel + 1, dir, some token, tempPath, next => do
    let name ← checked .tempPath (stringAt maxPath tempPath token)
    match findFileInDir fs dir name with
    | none => return (none, next)
    | some id =>
      if (fs.files id).type ≠ .directory then return (none, next)
      let (token, tempPath, next) ← checked .tempPath (strtokAt maxPath slash tempPath next none)
      resolveTokens fs fuel id token tempPath next

/-- `fs_resolve_path` with the static `next` that earlier calls of `strtok` left, and with
what its uninitialised buffer holds: the result, and the new `next`. -/
def resolvePathIn (fs : Filesystem) (next : Option Int) (stack : Chars) (path : CStr) :
    Except Fault (Option Nat × Option Int) :=
  if path.bytes = [] then .ok (none, next)
  else
    let dir := if path.bytes.head? = some '/'.toUInt8 then fs.rootDir else fs.currentDir
    match strncpy maxPath path (maxPath - 1) with
    | none => .error (.outOfRange .tempPath)
    | some bytes => do
      let tempPath : Chars := fun i => if 0 ≤ i then bytes[i.toNat]?.getD (stack i) else stack i
      let tempPath ← checked .tempPath (set maxPath tempPath (maxPath - 1) 0)
      let (token, tempPath, next) ← checked .tempPath (strtokAt maxPath slash tempPath next (some 0))
      resolveTokens fs maxPath dir token tempPath next

/-- The part of the buffer that `strtok` has still to split. -/
inductive Cursor (n : Nat) (buffer : Chars) : Option Int → Option CStr → Prop
  | done : Cursor n buffer none none
  | left {i : Int} : 0 ≤ i → i + s.bytes.length < (n : Nat) → Holds buffer i s.bytes →
      Cursor n buffer (some i) (some s)

/-- The token in the buffer. -/
structure TokenAt (n : Nat) (buffer : Chars) (i : Int) (token : CStr) : Prop where
  low : 0 ≤ i
  high : i + token.bytes.length < n
  holds : Holds buffer i token.bytes

theorem TokenAt.stringAt (h : TokenAt n buffer i token) :
    ChipOS.stringAt n buffer i = some token := by
  have hlow := h.low
  have hhigh := h.high
  have hroom : token.bytes.length < n - i.toNat := by omega
  have htext : text (n - i.toNat) (fun k => buffer (i + k)) = token.bytes :=
    text_eq h.holds.shift hroom
  rw [ChipOS.stringAt]
  simp only [htext]
  exact if_pos ⟨hlow, hroom⟩

theorem strtokAt_eq (delim : CStr) (h : Cursor n buffer (str.or next) s) :
    match strtok delim s with
    | none => ∃ next', strtokAt n delim buffer next str = some (none, buffer, next')
    | some (token, s') => ∃ i buffer' next',
      strtokAt n delim buffer next str = some (some i, buffer', next') ∧
        TokenAt n buffer' i token ∧ Cursor n buffer' next' s' := by
  rw [strtokAt]
  generalize str.or next = cursor at h
  cases h with
  | done => exact ⟨none, rfl⟩
  | @left s i hlow hhigh hs =>
    let start := s.skip (delim.bytes.contains ·)
    let rest := start.skip (!delim.bytes.contains ·)
    let token := start.span (!delim.bytes.contains ·)
    have hlen : (s.bytes.takeWhile (delim.bytes.contains ·)).length + start.bytes.length =
        s.bytes.length := by
      rw [← List.length_append]
      exact congrArg List.length List.takeWhile_append_dropWhile
    have hlen' : token.bytes.length + rest.bytes.length = start.bytes.length := by
      rw [← List.length_append]
      exact congrArg List.length List.takeWhile_append_dropWhile
    obtain ⟨j, hj⟩ : ∃ j, i + (s.bytes.takeWhile (delim.bytes.contains ·)).length = j := ⟨_, rfl⟩
    obtain ⟨k, hk⟩ : ∃ k, j + token.bytes.length = k := ⟨_, rfl⟩
    have hscan : scan n (delim.bytes.contains ·) buffer n i = some j :=
      hj ▸ scan_eq hs hlow hhigh (by omega)
    have hstart : Holds buffer j start.bytes := hj ▸ hs.dropWhile
    have hscan' : scan n (!delim.bytes.contains ·) buffer n j = some k :=
      hk ▸ scan_eq hstart (by omega) (by omega) (by omega)
    have hrest : Holds buffer k rest.bytes := hk ▸ hstart.dropWhile
    have htoken : Holds (Function.update buffer k 0) j token.bytes := hk ▸ hstart.takeWhile
    have hgetj : get n buffer j = some (buffer j) := get_eq (by omega) (by omega)
    have hgetk : get n buffer k = some (buffer k) := get_eq (by omega) (by omega)
    have hset : set n buffer k 0 = some (Function.update buffer k 0) := set_eq (by omega) (by omega)
    simp only [hscan, hscan', hgetj, hgetk, hset, Option.bind_eq_bind, Option.bind_some, ne_eq,
      holds_head hstart, holds_head hrest]
    by_cases hnil : start.bytes = []
    · have htok : strtok delim (some s) = none := if_pos hnil
      rw [htok]
      exact ⟨some j, if_pos hnil⟩
    have htok : strtok delim (some s) = some (token, if rest.bytes = [] then none else some rest.next) :=
      if_neg hnil
    rw [htok, if_neg hnil]
    by_cases hend : rest.bytes = []
    · have hall : start.bytes = token.bytes := by
        rw [hend, List.length_nil] at hlen'
        exact ((List.takeWhile_prefix _).eq_of_length hlen').symm
      rw [if_pos hend, if_neg (not_not.2 hend)]
      exact ⟨j, buffer, none, rfl, ⟨by omega, by omega, hall ▸ hstart⟩, .done⟩
    · have hpos : 0 < rest.bytes.length := List.length_pos_iff.2 hend
      have hnext : rest.next.bytes.length = rest.bytes.length - 1 := List.length_tail
      have htail : Holds buffer (k + 1) rest.next.bytes := by
        have hdrop := hrest.drop (k := 1) hpos
        rwa [List.drop_one] at hdrop
      rw [if_neg hend, if_pos hend]
      exact ⟨j, _, _, rfl, ⟨by omega, by omega, htoken⟩,
        .left (by omega) (by omega) (htail.update_before (by omega))⟩

def Filesystem.lookup (fs : Filesystem) (dir : Nat) (name : CStr) : Option Nat :=
  (findFileInDir fs dir name).filter fun e => (fs.files e).type = .directory

section
variable {fs : Filesystem}

/-- The first live entry in table order with that parent and name. -/
structure Filesystem.IsFirst (fs : Filesystem) (dir : Nat) (name : CStr) (e : Nat) : Prop where
  live : e < fs.fileCount
  inDir : (fs.files e).parentId = dir
  named : (fs.files e).name.toCStr = name
  first : ∀ i < e, ¬((fs.files i).parentId = dir ∧ (fs.files i).name.toCStr = name)

theorem findFileInDir_iff : findFileInDir fs dir name = some e ↔ fs.IsFirst dir name e := by
  rw [findFileInDir, List.find?_range_eq_some]
  constructor
  · rintro ⟨he, hin, hfirst⟩
    obtain ⟨hparent, hname⟩ := isIn_iff.1 he
    refine ⟨List.mem_range.1 hin, hparent, hname, fun i hi h => ?_⟩
    have hnot := hfirst i hi
    rw [isIn_iff.2 h] at hnot
    cases hnot
  · rintro ⟨hlive, hparent, hname, hfirst⟩
    refine ⟨isIn_iff.2 ⟨hparent, hname⟩, List.mem_range.2 hlive, fun i hi => ?_⟩
    rw [Bool.not_eq_true', Bool.eq_false_iff]
    exact fun h => hfirst i hi (isIn_iff.1 h)

theorem lookup_iff : fs.lookup dir name = some e ↔
    fs.IsFirst dir name e ∧ (fs.files e).type = .directory := by
  rw [Filesystem.lookup, Option.filter_eq_some_iff, findFileInDir_iff, decide_eq_true_iff]

theorem lookup_eq (hf : findFileInDir fs dir name = some e) :
    fs.lookup dir name = if (fs.files e).type = .directory then some e else none := by
  rw [Filesystem.lookup, hf, Option.filter_some]
  exact if_congr decide_eq_true_iff rfl rfl

theorem lookup_none (hf : findFileInDir fs dir name = none) : fs.lookup dir name = none := by
  rw [Filesystem.lookup, hf]
  rfl

theorem resolveLoop_eq (hfuel : leftLength s < fuel) :
    resolveLoop fs fuel dir s = .ok ((leftComponents s).foldlM fs.lookup dir) := by
  induction fuel generalizing dir s with
  | zero => exact absurd hfuel (Nat.not_lt_zero _)
  | succ fuel ih =>
    rw [resolveLoop]
    rcases strtok_spec s with ⟨htok, hleft⟩ | ⟨token, s', htok, hleft, hlt⟩
    · rw [htok, hleft]
      rfl
    · rw [htok, hleft, List.foldlM_cons]
      simp only
      cases hf : findFileInDir fs dir token with
      | none =>
        rw [lookup_none hf]
        rfl
      | some e =>
        rw [lookup_eq hf]
        simp only
        by_cases ht : (fs.files e).type = .directory
        · rw [if_neg (not_not.2 ht), if_pos ht, ih (by omega)]
          rfl
        · rw [if_pos ht, if_neg ht]
          rfl

theorem resolveTokens_eq (fs : Filesystem) (dir : Nat) (hc : Cursor maxPath buffer (str.or next) s)
    (hfuel : leftLength s < fuel) : ∃ next', (do
      let (token, buffer, next) ← checked .tempPath (strtokAt maxPath slash buffer next str)
      resolveTokens fs fuel dir token buffer next) =
        .ok ((leftComponents s).foldlM fs.lookup dir, next') := by
  induction fuel generalizing dir buffer next str s with
  | zero => exact absurd hfuel (Nat.not_lt_zero _)
  | succ fuel ih =>
    have htake := strtokAt_eq slash hc
    rcases strtok_spec s with ⟨htok, hleft⟩ | ⟨token, s', htok, hleft, hlt⟩
    · rw [htok] at htake
      obtain ⟨next', hat⟩ := htake
      rw [hat, hleft]
      exact ⟨next', rfl⟩
    · rw [htok] at htake
      obtain ⟨i, buffer', next', hat, htoken, hnext⟩ := htake
      rw [hat, hleft, List.foldlM_cons]
      simp only [checked, resolveTokens, htoken.stringAt, ok_bind]
      cases hf : findFileInDir fs dir token with
      | none =>
        rw [lookup_none hf]
        exact ⟨next', rfl⟩
      | some e =>
        rw [lookup_eq hf]
        simp only
        by_cases ht : (fs.files e).type = .directory
        · have hcur : Cursor maxPath buffer' (none.or next') s' := hnext
          obtain ⟨next₂, hrest⟩ := ih e hcur (by omega)
          rw [if_neg (not_not.2 ht), if_pos ht]
          exact ⟨next₂, hrest⟩
        · rw [if_pos ht, if_neg ht]
          exact ⟨next', rfl⟩

theorem cursor_copy {path : CStr} (stack : Chars) (hlen : path.bytes.length < maxPath - 1) :
    let bytes := path.bytes ++ List.replicate (maxPath - 1 - path.bytes.length) 0
    let tempPath : Chars := fun i => if 0 ≤ i then bytes[i.toNat]?.getD (stack i) else stack i
    Cursor maxPath (Function.update tempPath (maxPath - 1) 0) (some 0) (some path) := by
  intro bytes tempPath
  have hmax : maxPath = 256 := rfl
  refine .left (Int.le_refl 0) (by omega) ⟨path.no_nul, fun k hk => ?_⟩
  rw [Int.zero_add, Function.update_of_ne (by omega)]
  have hget : bytes[k]? = some (path.bytes[k]?.getD 0) := by
    rcases Nat.lt_or_eq_of_le hk with hlt | rfl
    · rw [List.getElem?_append_left hlt, List.getElem?_eq_getElem hlt, Option.getD_some]
    · rw [List.getElem?_append_right (Nat.le_refl _), Nat.sub_self,
        List.getElem?_eq_none (Nat.le_refl _), List.getElem?_replicate_of_lt (by omega)]
      rfl
  exact (if_pos (Int.natCast_nonneg k)).trans (congrArg (Option.getD · (stack k)) hget)

/-- `fs_resolve_path` looks the components of the path up, one after another, whatever the
static `next` and the buffer hold. -/
theorem resolvePathIn_eq (hne : path.bytes ≠ []) (hlen : path.bytes.length < maxPath - 1) :
    ∃ next', resolvePathIn fs next stack path =
      .ok (path.components.foldlM fs.lookup (fs.pathStart path), next') := by
  have hset : set maxPath (fun i => if 0 ≤ i then (path.bytes ++
      List.replicate (maxPath - 1 - path.bytes.length) 0)[i.toNat]?.getD (stack i) else stack i)
      (maxPath - 1) 0 = some _ := set_eq (by decide) (by decide)
  have hmax : maxPath = 256 := rfl
  have hfuel : leftLength (some path) < maxPath := by
    rw [leftLength]
    omega
  have hcopy : Cursor maxPath _ ((some 0).or next) (some path) := cursor_copy stack hlen
  obtain ⟨next', htokens⟩ := resolveTokens_eq fs (fs.pathStart path) hcopy hfuel
  refine ⟨next', ?_⟩
  rw [resolvePathIn, if_neg hne, strncpy_short hlen (Nat.sub_le _ _)]
  simp only [hset, checked, ok_bind]
  exact htokens

theorem fsResolvePath_fold (hne : path.bytes ≠ []) (hlen : path.bytes.length < maxPath - 1) :
    fsResolvePath fs path = .ok (path.components.foldlM fs.lookup (fs.pathStart path)) := by
  have hcopy : (CBuf.ofBytes maxPath (by decide) (path.bytes ++
      List.replicate (maxPath - 1 - path.bytes.length) 0)).toCStr = path :=
    CBuf.ofBytes_pad (by decide) (Nat.lt_of_lt_of_le hlen (Nat.sub_le _ _))
  have hfuel : leftLength (some path) < path.bytes.length + 1 := Nat.lt_succ_self _
  rw [fsResolvePath, if_neg hne, strncpy_short hlen (Nat.sub_le _ _)]
  simp only [hcopy]
  exact resolveLoop_eq hfuel

/-- The static `next` and the buffer do not matter to the result of `fs_resolve_path`. -/
theorem resolvePathIn_result (hne : path.bytes ≠ []) (hlen : path.bytes.length < maxPath - 1) :
    (resolvePathIn fs next stack path).map Prod.fst = fsResolvePath fs path := by
  obtain ⟨next', hin⟩ : ∃ next', resolvePathIn fs next stack path = .ok (_, next') :=
    resolvePathIn_eq hne hlen
  rw [hin, fsResolvePath_fold hne hlen]
  rfl

end

inductive SlashStep : CStr → CStr → Prop
  | repeated : p.bytes = s ++ '/'.toUInt8 :: '/'.toUInt8 :: t → q.bytes = s ++ '/'.toUInt8 :: t →
      SlashStep p q
  | leading : p.bytes = '/'.toUInt8 :: q.bytes → SlashStep p q
  | trailing : p.bytes = q.bytes ++ ['/'.toUInt8] → SlashStep p q

theorem SlashStep.components (h : SlashStep p q) : p.components = q.components := by
  have hslash : isSlash '/'.toUInt8 = true := rfl
  apply components_eq
  rw [components_bytes]
  cases h with
  | repeated hp hq => rw [hp, hq, words_append hslash, words_append hslash, words_cons hslash]
  | leading hp => rw [hp, words_cons hslash]
  | trailing hp =>
    rw [hp, words_append hslash]
    exact (List.append_nil _).symm

theorem components_eqvGen (h : Relation.EqvGen SlashStep p q) : p.components = q.components := by
  induction h with
  | rel p q hstep => exact hstep.components
  | refl p => rfl
  | symm p q _ ih => exact ih.symm
  | trans p q r _ _ ihpq ihqr => exact ihpq.trans ihqr

/-- Path resolution folds the lookup over the components of the path. -/
theorem resolve_fold (fs : Filesystem) (next : Option Int) (stack : Chars) (path : CStr)
    (hne : path.bytes ≠ []) (hlen : path.bytes.length ≤ 254) :
    (∃ next', resolvePathIn fs next stack path =
      .ok (path.components.foldlM fs.lookup (fs.pathStart path), next')) ∧
    (∀ dir name e, fs.lookup dir name = some e ↔
      fs.IsFirst dir name e ∧ (fs.files e).type = .directory) ∧
    ∀ path' next₂ stack₂, Relation.EqvGen SlashStep path path' → fs.pathStart path' = fs.pathStart path →
      path'.bytes ≠ [] → path'.bytes.length ≤ 254 →
      (resolvePathIn fs next₂ stack₂ path').map Prod.fst = (resolvePathIn fs next stack path).map Prod.fst := by
  have hmax : maxPath = 256 := rfl
  have hlen : path.bytes.length < maxPath - 1 := by omega
  refine ⟨resolvePathIn_eq hne hlen, fun dir name e => lookup_iff,
    fun path' next₂ stack₂ hslash hstart hne' hlen' => ?_⟩
  have hlen' : path'.bytes.length < maxPath - 1 := by omega
  rw [resolvePathIn_result hne' hlen', resolvePathIn_result hne hlen, fsResolvePath_fold hne' hlen',
    fsResolvePath_fold hne hlen, hstart, components_eqvGen hslash]

theorem resolve_fold_home : ∃ next', resolvePathIn (fsInit 0) (some 7) (fun _ => 1) (.ofString "//home/") =
    .ok (some 1, next') :=
  (resolve_fold (fsInit 0) (some 7) (fun _ => 1) (.ofString "//home/")
    (by decide) (by decide)).1

end ChipOS
