import ChipOS.Editor.LoadSave
import ChipOS.Fs.Contents
import Mathlib.Algebra.BigOperators.Group.List.Basic

namespace ChipOS
open CharArray Run
set_option autoImplicit true

def joinLines (ls : List (List UInt8)) : List UInt8 := ['\n'.toUInt8].intercalate ls

/-- A line that the editor can hold and a file can keep. -/
structure PlainLine (l : List UInt8) : Prop where
  short : l.length < maxLineLength
  no_newline : '\n'.toUInt8 ∉ l
  no_nul : 0 ∉ l

def closedSize (ls : List (List UInt8)) : Nat := (ls.map fun l => l.length + 1).sum

@[simp]
theorem joinLines_singleton (l : List UInt8) : joinLines [l] = l := List.intercalate_singleton

theorem joinLines_cons (l l' : List UInt8) (ls : List (List UInt8)) :
    joinLines (l :: l' :: ls) = l ++ '\n'.toUInt8 :: joinLines (l' :: ls) := by
  rw [joinLines, List.intercalate_cons_cons, List.append_assoc]
  rfl

theorem savedBytes_eq_join (h : pos + (joinLines ls).length < bufferSize - 1) :
    savedBytes pos ls = joinLines ls := by
  induction ls generalizing pos with
  | nil => rfl
  | cons l ls ih =>
    rw [savedBytes]
    cases ls with
    | nil =>
      rw [joinLines_singleton] at h ⊢
      rw [if_pos (by omega), if_pos (by omega), if_pos rfl]
    | cons l' ls =>
      rw [joinLines_cons] at h ⊢
      rw [List.length_append, List.length_cons] at h
      rw [if_pos (by omega), if_pos (by omega), if_neg (List.cons_ne_nil _ _), ih (by omega)]

theorem closedLines_append (hl : PlainLine l) (hlen : cur.length + l.length < maxLineLength) :
    closedLines cur (l ++ rest) = closedLines (cur ++ l) rest := by
  induction l generalizing cur with
  | nil => rw [List.nil_append, List.append_nil]
  | cons c l ih =>
    rw [List.length_cons] at hlen
    have htail : PlainLine l :=
      ⟨by omega, fun hm => hl.no_newline (List.mem_cons_of_mem _ hm),
        fun hm => hl.no_nul (List.mem_cons_of_mem _ hm)⟩
    have hc : ¬(c = '\n'.toUInt8 ∨ c = 0) := by
      rintro (rfl | rfl)
      · exact hl.no_newline List.mem_cons_self
      · exact hl.no_nul List.mem_cons_self
    rw [List.cons_append, closedLines, if_neg hc, if_pos (by omega),
      ih htail (by rw [List.length_append, List.length_singleton]; omega), List.append_assoc,
      List.singleton_append]

theorem closedLines_join (hls : ∀ l ∈ ls, PlainLine l) :
    closedLines [] (joinLines ls) = ls.dropLast := by
  induction ls with
  | nil => rfl
  | cons l ls ih =>
    have hl := hls l List.mem_cons_self
    cases ls with
    | nil =>
      rw [joinLines_singleton, ← List.append_nil l, closedLines_append hl (by rw [List.length_nil]; have := hl.short; omega)]
      rfl
    | cons l' ls =>
      rw [joinLines_cons, closedLines_append hl (by rw [List.length_nil]; have := hl.short; omega),
        List.nil_append, closedLines, if_pos (.inl rfl),
        ih fun x hx => hls x (List.mem_cons_of_mem _ hx), List.dropLast_cons_cons]

/-- Joined lines are loaded as they were only if there is one line and it is empty. -/
theorem loadedLines_join (hls : ∀ l ∈ ls, PlainLine l) (hpos : 1 ≤ ls.length)
    (hmax : ls.length < maxLines) : loadedLines (joinLines ls) = ls ↔ ls = [[]] := by
  have htake : (closedLines [] (joinLines ls)).take maxLines = ls.dropLast := by
    rw [closedLines_join hls]
    apply List.take_of_length_le
    rw [List.length_dropLast]
    omega
  rw [loadedLines, htake]
  constructor
  · intro he
    cases hd : ls.dropLast with
    | nil =>
      rw [hd] at he
      exact he.symm
    | cons l ls' =>
      rw [hd] at he
      have hls : l :: ls' = ls := he
      have hlen := congrArg List.length (hd.trans hls)
      rw [List.length_dropLast] at hlen
      omega
  · rintro rfl
    rfl

theorem closedSize_closedLines (cur data : List UInt8) :
    closedSize (closedLines cur data) ≤ cur.length + data.length := by
  induction data generalizing cur with
  | nil => exact Nat.zero_le _
  | cons c data ih =>
    rw [closedLines, List.length_cons]
    split
    · have hrec := ih []
      rw [closedSize, List.map_cons, List.sum_cons]
      rw [closedSize, List.length_nil] at hrec
      omega
    split
    · have hrec := ih (cur ++ [c])
      rw [List.length_append, List.length_singleton] at hrec
      omega
    · have hrec := ih cur
      omega

theorem closedSize_take (ls : List (List UInt8)) (n : Nat) :
    closedSize (ls.take n) ≤ closedSize ls := by
  have hsplit : closedSize ls = closedSize (ls.take n) + closedSize (ls.drop n) := by
    rw [closedSize, closedSize, closedSize, ← List.sum_append, ← List.map_append,
      List.take_append_drop]
  omega

theorem savedBytes_length (ls : List (List UInt8)) (pos : Nat) :
    (savedBytes pos ls).length ≤ closedSize ls - 1 := by
  induction ls generalizing pos with
  | nil => exact Nat.le_refl _
  | cons l ls ih =>
    have hsize : closedSize (l :: ls) = l.length + 1 + closedSize ls := by
      rw [closedSize, List.map_cons, List.sum_cons, closedSize]
    rw [savedBytes]
    split
    · split
      · split
        · omega
        next hne =>
        have hrec := ih (pos + l.length + 1)
        have hpos : 1 ≤ closedSize ls := by
          cases ls with
          | nil => exact absurd rfl hne
          | cons l' ls =>
            rw [closedSize, List.map_cons, List.sum_cons]
            omega
        rw [List.length_append, List.length_cons]
        omega
      · have hrec := ih pos
        omega
    · exact Nat.zero_le _

/-- What is saved after a file was loaded is shorter than the file. -/
theorem savedBytes_loadedLines (data : List UInt8) :
    (savedBytes 0 (loadedLines data)).length ≤ data.length - 1 := by
  rw [loadedLines]
  cases hcl : (closedLines [] data).take maxLines with
  | nil => exact Nat.zero_le _
  | cons l ls =>
    have hsaved := savedBytes_length (l :: ls) 0
    have htake := closedSize_take (closedLines [] data) maxLines
    have hclosed := closedSize_closedLines [] data
    rw [hcl] at htake
    rw [List.length_nil] at hclosed
    exact Nat.le_trans hsaved (by omega)

theorem FileHas.read (h : FileHas fs name data) (hlen : data.length < bufferSize - 1) :
    fsReadFile fs name bufferSize (bufferSize - 1) = .ok ((data.length : Int), data) := by
  have hread : fsReadFile fs name bufferSize (bufferSize - 1) =
      .ok (((data.take (bufferSize - 1)).length : Int), data.take (bufferSize - 1)) :=
    h.read_take (by decide) (by decide)
  rwa [List.take_of_length_le (Nat.le_of_lt hlen)] at hread

structure PlainBuffer (ed : EditorState) : Prop where
  count_pos : 1 ≤ ed.lineCount
  count_lt : ed.lineCount < maxLines
  lines : ∀ k : Nat, k < ed.lineCount → PlainLine (ed.text k)
  fits : (joinLines ed.buffer).length < bufferSize - 1

theorem PlainBuffer.load_saved (hp : PlainBuffer ed) (hs : editorSaveFile ed fs = .ok (0, ed', fs')) :
    ∃ ed'', editorLoadFile (editorZero ed.filename) fs' ed.filename.toCStr = .ok (0, ed'') ∧
      (ed''.lineCount = ed.lineCount ∧ ed''.buffer = ed.buffer ↔ ed.buffer = [[]]) := by
  obtain ⟨hpos, hlt, hlines, hfits⟩ := hp
  obtain ⟨n, hn⟩ : ∃ n : Nat, ed.lineCount = n := Int.eq_ofNat_of_zero_le (by omega)
  have hlen := buffer_length hn
  have hplain : ∀ l ∈ ed.buffer, PlainLine l := by
    intro l hl
    rw [buffer_of_count hn] at hl
    obtain ⟨k, hk, rfl⟩ := List.mem_map.1 hl
    have hk := List.mem_range.1 hk
    exact hlines k (by omega)
  have hdata : savedBytes 0 ed.buffer = joinLines ed.buffer := savedBytes_eq_join (by omega)
  rw [editorSaveFile_eq hn (by omega) (fun k hk => (hlines k (by omega)).short) hdata.symm] at hs
  obtain ⟨⟨result, fs₁⟩, hw, hs⟩ := bind_eq_ok.1 hs
  by_cases hr : result = fsSuccess
  swap
  · rw [if_neg hr] at hs
    cases hs
  rw [if_pos hr] at hs
  cases hs
  subst hr
  have hmax : bufferSize = maxFileSize := rfl
  have hfile := fileHas_written hw (by omega)
  have hread := hfile.read hfits
  have hzero : ∀ i, (editorZero ed.filename).lines i = fun _ => 0 := fun _ => rfl
  obtain ⟨ed'', hload, hl⟩ := editorLoadFile_loaded hzero hread
  refine ⟨ed'', hload, ?_⟩
  rw [hl.buffer, hl.count, loadedLines_join hplain (by omega) (by omega)]
  constructor
  · exact fun h => h.2
  · intro h
    refine ⟨?_, h⟩
    have hone : (loadedLines (joinLines ed.buffer)).length = ed.buffer.length := by
      rw [(loadedLines_join hplain (by omega) (by omega)).2 h]
    omega

theorem FileHas.save_loaded {name : CBuf 256} (h : FileHas fs name.toCStr data)
    (hlen : data.length < bufferSize - 1) :
    ∃ ed ed' fs', editorLoadFile (editorZero name) fs name.toCStr = .ok (0, ed) ∧
      editorSaveFile ed fs = .ok (0, ed', fs') ∧ (FileHas fs' name.toCStr data ↔ data = []) := by
  have hmax : bufferSize = maxFileSize := rfl
  have hread := h.read hlen
  have hzero : ∀ i, (editorZero name).lines i = fun _ => 0 := fun _ => rfl
  obtain ⟨ed, hload, hl⟩ := editorLoadFile_loaded hzero hread
  obtain ⟨lines, m, hframe⟩ := hl.frame
  have hname : ed.filename = name := congrArg EditorState.filename hframe
  have hle := hl.count_le
  have hsaved := savedBytes_loadedLines data
  have hshorter : (savedBytes 0 (loadedLines data)).length ≤ data.length := by omega
  obtain ⟨fs', hw⟩ := h.write (by omega) hshorter
  have hsave : editorSaveFile ed fs = .ok (0, { ed with modified := false }, fs') := by
    rw [editorSaveFile_eq hl.count hle (fun k hk => hl.terminated k (by omega) (by omega))
      (congrArg (savedBytes 0) hl.buffer.symm), hname, hw, ok_bind, if_pos rfl]
  refine ⟨ed, _, fs', hload, hsave, ?_⟩
  have hfile := fileHas_written hw (by omega)
  constructor
  · intro h'
    have he := congrArg List.length (h'.unique hfile)
    exact List.eq_nil_of_length_eq_zero (by omega)
  · rintro rfl
    exact hfile

/-- Saving and loading are inverse on the empty file and the buffer of one empty line alone:
the last line of a file is loaded only if it ends in a newline, and none is saved with it. -/
theorem save_load_inverse (ed : EditorState) (fs : Filesystem) (name : CBuf 256)
    (data : List UInt8) :
    (∀ ed' fs', PlainBuffer ed → editorSaveFile ed fs = .ok (0, ed', fs') →
      ∃ ed'', editorLoadFile (editorZero ed.filename) fs' ed.filename.toCStr = .ok (0, ed'') ∧
        (ed''.lineCount = ed.lineCount ∧ ed''.buffer = ed.buffer ↔ ed.buffer = [[]])) ∧
    (FileHas fs name.toCStr data → data.length < bufferSize - 1 →
      ∃ ed ed' fs', editorLoadFile (editorZero name) fs name.toCStr = .ok (0, ed) ∧
        editorSaveFile ed fs = .ok (0, ed', fs') ∧
        (FileHas fs' name.toCStr data ↔ data = [])) :=
  ⟨fun _ _ hp hs => hp.load_saved hs, fun h hlen => h.save_loaded hlen⟩

/-- The buffer with the one line `a` is saved as `a` and loaded as one empty line. -/
theorem save_load_loses_line : ∃ ed ed' fs',
    ((editorZero ⟨.ofString "f", by decide⟩).emptyBuffer >>= fun ed => editorInsertChar ed 97) =
      .ok ed ∧
    PlainBuffer ed ∧ ed.buffer = [[97]] ∧ editorSaveFile ed (fsInit 0) = .ok (0, ed', fs') ∧
    ∃ ed'', editorLoadFile (editorZero ed.filename) fs' ed.filename.toCStr = .ok (0, ed'') ∧
      ed''.buffer = [[]] := by
  refine ⟨_, _, _, rfl, ⟨by decide, by decide, fun k hk => ?_, by decide +kernel⟩,
    by decide +kernel, rfl, ?_⟩
  · have hone : (k : Int) < 1 := hk
    cases Nat.lt_one_iff.1 (Int.ofNat_lt.1 hone)
    exact ⟨by decide +kernel, by decide +kernel, by decide +kernel⟩
  · exact Exists.imp (fun _ h => ⟨h.1, h.2.buffer⟩) (editorLoadFile_loaded (fun _ => rfl)
      (show fsReadFile _ _ _ _ = .ok (1, [97]) from rfl))

end ChipOS
