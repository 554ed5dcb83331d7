import ChipOS.Shell.FileLines

namespace ChipOS
open Cuts Run
set_option autoImplicit true

def usageGrep : List Print :=
  [.text "Usage: grep <pattern> <file>\n", .text "Simple grep - searches for pattern in file\n"]

/-- `strstr(line, pattern) != NULL` -/
def hasPattern (pattern line : List UInt8) : Bool := (strstr line pattern).isSome

def grepMatch (lineNumber : Nat) (line : List UInt8) : List Print :=
  [.putHex (BitVec.ofNat 32 lineNumber), .text ": ", .puts line, .text "\n"]

/-- The loop of `cmd_grep` over the buffer and the NUL behind it: what it prints, and the number
of matches. -/
def grepLoop (pattern line : List UInt8) (lineNumber matchesFound : Nat) :
    List UInt8 → List Print × Nat
  | [] => ([], matchesFound)
  | c :: buffer =>
    if isLineEnd c then
      if hasPattern pattern line then
        let (out, matchesFound) := grepLoop pattern [] (lineNumber + 1) (matchesFound + 1) buffer
        (grepMatch lineNumber line ++ out, matchesFound)
      else grepLoop pattern [] (lineNumber + 1) matchesFound buffer
    else grepLoop pattern (push lineRoom line c) lineNumber matchesFound buffer

def noMatches (pattern filename : CStr) : List Print :=
  [.text "grep: no matches found for '", .puts pattern.bytes, .text "' in '", .puts filename.bytes,
    .text "'\n"]

def cmdGrep (fs : Filesystem) : List CStr → Except Fault (List Print)
  | _ :: pattern :: filename :: _ => do
    let (bytesRead, buffer) ← fsReadFile fs filename maxFileSize (maxFileSize - 1)
    if bytesRead < 0 then return nameMessage "grep: cannot read file '" filename
    let (out, matchesFound) := grepLoop pattern.bytes [] 1 0 (buffer ++ [0])
    if matchesFound = 0 then return out ++ noMatches pattern filename
    return out
  | _ => return usageGrep

/-- `fs_grep_file`: the result and what it prints. -/
def fsGrepFile (fs : Filesystem) (filename pattern : CStr) : Except Fault (Int × List Print) := do
  let (bytesRead, buffer) ← fsReadFile fs filename maxFileSize (maxFileSize - 1)
  if bytesRead < 0 then return (bytesRead, [])
  if hasPattern pattern.bytes (buffer.takeWhile (· != 0)) then
    return (1, [.text "Pattern found in ", .puts filename.bytes, .text "\n"])
  return (0, [])

def matchingLines (pattern data : List UInt8) : List Nat :=
  (data.splitOnP (· == '\n'.toUInt8)).findIdxs (fun line => pattern <:+: line) 1

def SaysNoMatch (out : List Print) : Prop := .text "grep: no matches found for '" ∈ out

section
variable {pattern line buffer data : List UInt8}

theorem hasPattern_iff : hasPattern pattern line = true ↔ pattern <:+: line := strstr_isSome

theorem shownNumbers_grepMatch (h : n < 2 ^ 32) :
    shownNumbers (grepMatch n line ++ out) = n :: shownNumbers out := by
  have hn : (BitVec.ofNat 32 n).toNat = n := by rw [BitVec.toNat_ofNat, Nat.mod_eq_of_lt h]
  exact congrArg (· :: shownNumbers out) hn

theorem not_saysNoMatch_grepMatch (h : ¬SaysNoMatch out) : ¬SaysNoMatch (grepMatch n line ++ out) := by
  intro hm
  rcases List.mem_append.1 hm with hm | hm
  · rw [grepMatch] at hm
    simp at hm
  · exact h hm

/-- What the loop prints, and counts, for the lines `ls` from the number `n` on. -/
structure Reports (pattern : List UInt8) (n m : Nat) (ls : List (List UInt8))
    (result : List Print × Nat) : Prop where
  numbers : shownNumbers result.1 = ls.findIdxs (hasPattern pattern) n
  no_message : ¬SaysNoMatch result.1
  count : result.2 = m + (shownNumbers result.1).length

theorem Reports.match_cons (h : Reports pattern (n + 1) (m + 1) ls (out, k)) (hn : n < 2 ^ 32)
    (hp : hasPattern pattern line = true) :
    Reports pattern n m (line :: ls) (grepMatch n line ++ out, k) := by
  refine ⟨?_, not_saysNoMatch_grepMatch h.no_message, ?_⟩
  · rw [shownNumbers_grepMatch hn, List.findIdxs_cons, if_pos hp, ← h.numbers]
  · have hcount : k = m + 1 + (shownNumbers out).length := h.count
    rw [shownNumbers_grepMatch hn, List.length_cons]
    omega

theorem Reports.other_cons (h : Reports pattern (n + 1) m ls result)
    (hp : ¬hasPattern pattern line = true) : Reports pattern n m (line :: ls) result :=
  ⟨by rw [h.numbers, List.findIdxs_cons, if_neg hp], h.no_message, h.count⟩

theorem Reports.nil : Reports pattern n m [] ([], m) := ⟨rfl, List.not_mem_nil, rfl⟩

theorem grepLoop_reports (hn : n + buffer.length < 2 ^ 32) :
    Reports pattern n m (pieces isLineEnd lineRoom line buffer)
      (grepLoop pattern line n m (buffer ++ [0])) := by
  induction buffer generalizing line n m with
  | nil =>
    rw [List.length_nil] at hn
    rw [List.nil_append, grepLoop, if_pos (show isLineEnd 0 = true from rfl), pieces]
    split
    · next hp => exact Reports.match_cons .nil (by omega) hp
    · next hp => exact Reports.other_cons .nil hp
  | cons c buffer ih =>
    rw [List.length_cons] at hn
    rw [List.cons_append, grepLoop, pieces]
    split
    · split
      · next hp => exact Reports.match_cons (ih (by omega)) (by omega) hp
      · next hp => exact Reports.other_cons (ih (by omega)) hp
    · exact ih (by omega)

/-- The line `k` is in the part of the file that `cmd_grep` looks at, as far as `part`. -/
def Seen (data : List UInt8) (k : Nat) (part : List UInt8) : Prop :=
  ∃ l, ((readPart data).splitOnP (· == '\n'.toUInt8))[k]? = some l ∧ part = l.take lineRoom

/-- What `cmd_grep` sees of a line is its start. -/
theorem Seen.start {k : Nat} (h : Seen data k part) :
    ∃ line, (data.splitOnP (· == '\n'.toUInt8))[k]? = some line ∧ part <+: line := by
  obtain ⟨l, hl, rfl⟩ := h
  obtain ⟨line, hline, hstart⟩ := readPart_line hl
  exact ⟨line, hline, (List.take_prefix lineRoom l).trans hstart⟩

theorem seen_iff {k : Nat} (h : 0 ∉ data) :
    (pieces isLineEnd lineRoom [] (readPart data))[k]? = some part ↔ Seen data k part := by
  rw [cut_isLineEnd h, List.getElem?_map, Option.map_eq_some_iff, Seen]
  simp only [eq_comm]

end

section
variable {fs : Filesystem} {cmd pattern filename : CStr} {rest : List CStr} {data : List UInt8}

theorem shownNumbers_noMatches (out : List Print) :
    shownNumbers (out ++ noMatches pattern filename) = shownNumbers out :=
  List.filterMap_append.trans (List.append_nil _)

theorem infix_readPart (hnul : 0 ∉ data) (hline : '\n'.toUInt8 ∉ pattern.bytes)
    (hseen : ∀ (k : Nat) line, (data.splitOnP (· == '\n'.toUInt8))[k]? = some line →
      pattern.bytes <:+: line → ∃ part, Seen data k part ∧ pattern.bytes <:+: part) :
    (∃ part ∈ pieces isLineEnd lineRoom [] (readPart data), hasPattern pattern.bytes part = true) ↔
      pattern.bytes <:+: readPart data := by
  rw [infix_iff_splitOnP (ne_newline hline)]
  constructor
  · rintro ⟨part, hpart, hp⟩
    rw [cut_isLineEnd hnul] at hpart
    obtain ⟨l, hl, rfl⟩ := List.mem_map.1 hpart
    exact ⟨l, hl, (hasPattern_iff.1 hp).trans (List.take_prefix lineRoom l).isInfix⟩
  · rintro ⟨l, hl, hin⟩
    obtain ⟨k, hk⟩ := List.mem_iff_getElem?.1 hl
    obtain ⟨line, hline, hpre⟩ := readPart_line hk
    obtain ⟨part, hpart, hp⟩ := hseen k line hline (hin.trans hpre.isInfix)
    exact ⟨part, List.mem_of_getElem? ((seen_iff hnul).2 hpart), hasPattern_iff.2 hp⟩

theorem cmdGrep_eq (cmd pattern : CStr) (rest : List CStr) (h : FileHas fs filename data) :
    ∃ out, cmdGrep fs (cmd :: pattern :: filename :: rest) = .ok out ∧
      shownNumbers out = (pieces isLineEnd lineRoom [] (readPart data)).findIdxs
        (hasPattern pattern.bytes) 1 ∧
      (SaysNoMatch out ↔ shownNumbers out = []) := by
  have hlen : (readPart data).length ≤ 4095 := List.length_take_le _ data
  obtain ⟨result, hresult⟩ : ∃ r, grepLoop pattern.bytes [] 1 0 (readPart data ++ [0]) = r := ⟨_, rfl⟩
  have hreports : Reports pattern.bytes 1 0 (pieces isLineEnd lineRoom [] (readPart data)) result :=
    hresult ▸ grepLoop_reports (by omega)
  have hcount : result.2 = (shownNumbers result.1).length := by rw [hreports.count, Nat.zero_add]
  rw [cmdGrep, h.readPart, ok_bind]
  simp only
  rw [if_neg (by omega), hresult]
  by_cases hzero : result.2 = 0
  · have hnone : shownNumbers result.1 = [] := List.eq_nil_of_length_eq_zero (hcount ▸ hzero)
    refine ⟨_, if_pos hzero, ?_, ?_⟩
    · rw [shownNumbers_noMatches, hreports.numbers]
    · rw [shownNumbers_noMatches]
      exact iff_of_true (List.mem_append_right _ List.mem_cons_self) hnone
  · refine ⟨_, if_neg hzero, hreports.numbers, iff_of_false hreports.no_message fun hnil => ?_⟩
    rw [hcount, hnil] at hzero
    exact hzero rfl

theorem fsGrepFile_eq (pattern : CStr) (h : FileHas fs filename data) (hnul : 0 ∉ data) :
    ∃ r out, fsGrepFile fs filename pattern = .ok (r, out) ∧
      (r = 1 ↔ pattern.bytes <:+: readPart data) := by
  rw [fsGrepFile, h.readPart, ok_bind]
  simp only
  rw [if_neg (by omega), takeWhile_readPart hnul, ← hasPattern_iff]
  by_cases hp : hasPattern pattern.bytes (readPart data) = true
  · exact ⟨_, _, if_pos hp, iff_of_true rfl hp⟩
  · exact ⟨_, _, if_neg hp, iff_of_false (by decide) hp⟩

/-- `cmd_grep` reports exactly the lines with the pattern in them, and agrees with `fs_grep_file`,
as long as every such line shows the pattern in its first 255 characters and in the first 4095
bytes of the file. -/
theorem grep_exact (h : FileHas fs filename data) (hnul : 0 ∉ data)
    (hline : '\n'.toUInt8 ∉ pattern.bytes) :
    ∃ out r out', cmdGrep fs (cmd :: pattern :: filename :: rest) = .ok out ∧
      fsGrepFile fs filename pattern = .ok (r, out') ∧
      ((shownNumbers out = matchingLines pattern.bytes data ∧
          (SaysNoMatch out ↔ matchingLines pattern.bytes data = []) ∧
          (shownNumbers out ≠ [] ↔ r = 1)) ↔
        ∀ (k : Nat) line, (data.splitOnP (· == '\n'.toUInt8))[k]? = some line →
          pattern.bytes <:+: line → ∃ part, Seen data k part ∧ pattern.bytes <:+: part) := by
  obtain ⟨out, hout, hnumbers, hnone⟩ := cmdGrep_eq cmd pattern rest h
  obtain ⟨r, out', hgrep, hr⟩ := fsGrepFile_eq pattern h hnul
  refine ⟨out, r, out', hout, hgrep, ?_⟩
  have hstart : ∀ (k : Nat) part, (pieces isLineEnd lineRoom [] (readPart data))[k]? = some part →
      hasPattern pattern.bytes part = true → ∃ line,
        (data.splitOnP (· == '\n'.toUInt8))[k]? = some line ∧
          decide (pattern.bytes <:+: line) = true := by
    intro k part hpart hp
    obtain ⟨line, hl, hpre⟩ := ((seen_iff hnul).1 hpart).start
    exact ⟨line, hl, decide_eq_true ((hasPattern_iff.1 hp).trans hpre.isInfix)⟩
  have hagree := findIdxs_eq_iff 1 hstart
  simp only [← hnumbers, seen_iff hnul, hasPattern_iff, decide_eq_true_iff] at hagree
  rw [matchingLines]
  refine ⟨fun hall => hagree.1 hall.1, fun hseen => ⟨hagree.2 hseen, ?_, ?_⟩⟩
  · rw [hnone, hagree.2 hseen]
  · rw [hr, hnumbers, findIdxs_ne_nil]
    exact infix_readPart hnul hline hseen

theorem grep_exact_two : ∃ fs, FileHas fs (.ofString "f.c") [97, 10, 98] ∧
    ∃ out r out', cmdGrep fs [.ofString "grep", .ofString "b", .ofString "f.c"] = .ok out ∧
      fsGrepFile fs (.ofString "f.c") (.ofString "b") = .ok (r, out') ∧
      ((shownNumbers out = matchingLines (CStr.ofString "b").bytes [97, 10, 98] ∧
          (SaysNoMatch out ↔ matchingLines (CStr.ofString "b").bytes [97, 10, 98] = []) ∧
          (shownNumbers out ≠ [] ↔ r = 1)) ↔
        ∀ (k : Nat) line, ([97, 10, 98].splitOnP (· == '\n'.toUInt8))[k]? = some line →
          (CStr.ofString "b").bytes <:+: line →
          ∃ part, Seen [97, 10, 98] k part ∧ (CStr.ofString "b").bytes <:+: part) := by
  obtain ⟨fs, _, hfile⟩ := exists_fileHas [97, 10, 98] (by decide)
  exact ⟨fs, hfile, grep_exact hfile (by decide) (by decide)⟩

def longLine : List UInt8 := List.replicate 255 97 ++ [98]

/-- `grep b` does not find the `b` at the end of a long line, and `fs_grep_file` does. -/
theorem grep_misses_end : ∃ fs,
    fsWriteFile (fsInit 0) (.ofString "f.c") longLine longLine.length = .ok (fsSuccess, fs) ∧
    FileHas fs (.ofString "f.c") longLine ∧
    ∃ out r out', cmdGrep fs [.ofString "grep", .ofString "b", .ofString "f.c"] = .ok out ∧
      fsGrepFile fs (.ofString "f.c") (.ofString "b") = .ok (r, out') ∧
      shownNumbers out = [] ∧ SaysNoMatch out ∧ r = 1 ∧
      matchingLines (CStr.ofString "b").bytes longLine = [1] := by
  obtain ⟨fs, hw, hfile⟩ := exists_fileHas longLine (by decide +kernel)
  obtain ⟨out, hout, hnumbers, hnone⟩ := cmdGrep_eq (.ofString "grep") (.ofString "b") [] hfile
  obtain ⟨r, out', hgrep, hr⟩ := fsGrepFile_eq (.ofString "b") hfile (by decide +kernel)
  have hnil : shownNumbers out = [] := hnumbers.trans (by decide +kernel)
  exact ⟨fs, hw, hfile, out, r, out', hout, hgrep, hnil, hnone.2 hnil, hr.2 (by decide +kernel),
    by decide +kernel⟩

end

end ChipOS
