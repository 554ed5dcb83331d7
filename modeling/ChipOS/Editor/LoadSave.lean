import ChipOS.Editor.Invariant
import ChipOS.Fs.ReadBack

namespace ChipOS
open CharArray Run
set_option autoImplicit true

def EditorState.buffer (ed : EditorState) : List (List UInt8) :=
  (List.range ed.lineCount.toNat).map fun (k : Nat) => ed.text k

/-- The lines that the loop of `editor_load_file` closes on its way through the bytes; `cur`
is the line it is in. -/
def closedLines : List UInt8 → List UInt8 → List (List UInt8)
  | _, [] => []
  | cur, c :: cs =>
    if c = '\n'.toUInt8 ∨ c = 0 then cur :: closedLines [] cs
    else if cur.length < maxLineLength - 1 then closedLines (cur ++ [c]) cs
    else closedLines cur cs

/-- The buffer after a file is loaded. A line that no newline closes is dropped. -/
def loadedLines (data : List UInt8) : List (List UInt8) :=
  match (closedLines [] data).take maxLines with
  | [] => [[]]
  | l :: ls => l :: ls

/-- The bytes that `editor_save_file` puts behind the first `pos`. A line that does not fit is
left out. -/
def savedBytes : Nat → List (List UInt8) → List UInt8
  | _, [] => []
  | pos, l :: ls =>
    if pos < bufferSize - 1 then
      if pos + l.length + 1 < bufferSize then
        if ls = [] then l else l ++ '\n'.toUInt8 :: savedBytes (pos + l.length + 1) ls
      else savedBytes pos ls
    else []

/-- What `editor_save_file` passes to `fs_write_file`. -/
def saveData (ed : EditorState) : Except Fault (List UInt8) := do
  let (pos, buffer) ← saveLoop ed ed.lineCount.toNat 0 0 fun _ => 0
  let buffer ← checked .saveBuffer (CharArray.set bufferSize buffer pos 0)
  return CharArray.bytes buffer pos.toNat

/-- The editor while a file is loaded: `n` lines are complete and the next one is `cur`. -/
structure Loading (ed : EditorState) (n : Nat) (cur : List UInt8) : Prop where
  count : ed.lineCount = n
  count_le : n ≤ maxLines
  short : cur.length < maxLineLength
  no_nul : 0 ∉ cur
  done : ∀ i : Int, 0 ≤ i → i < n → (ed.text i).length < maxLineLength
  current : ∀ k : Nat, n < maxLines → ed.lines n k = cur[k]?.getD 0
  blank : ∀ i : Int, n < i → ed.lines i = fun _ => 0

section
variable {ed ed' : EditorState}

theorem buffer_of_count (hn : ed.lineCount = (n : Nat)) :
    ed.buffer = (List.range n).map fun (k : Nat) => ed.text k := by
  rw [EditorState.buffer, hn, Int.toNat_natCast]

theorem buffer_congr (hn : ed.lineCount = (n : Nat)) (hn' : ed'.lineCount = n)
    (ht : ∀ k < n, ed'.text k = ed.text k) : ed'.buffer = ed.buffer := by
  rw [buffer_of_count hn, buffer_of_count hn']
  apply List.map_congr_left
  intro k hk
  exact ht k (List.mem_range.1 hk)

theorem buffer_succ (hn : ed.lineCount = (n : Nat)) (hn' : ed'.lineCount = (n + 1 : Nat))
    (ht : ∀ k < n, ed'.text k = ed.text k) : ed'.buffer = ed.buffer ++ [ed'.text n] := by
  rw [buffer_of_count hn, buffer_of_count hn', List.range_succ, List.map_append]
  congr 1
  apply List.map_congr_left
  intro k hk
  exact ht k (List.mem_range.1 hk)

theorem text_setRow_of_ne {i line : Int} (hi : i ≠ line) :
    (ed.setRow line row).text i = ed.text i := by
  rw [EditorState.text, setRow_of_ne hi, EditorState.text]

theorem text_nil {a : Chars} (hz : a 0 = 0) : text maxLineLength a = [] := by
  apply text_eq _ (by decide)
  refine ⟨List.not_mem_nil, fun k hk => ?_⟩
  cases Nat.le_zero.1 hk
  exact hz

theorem Loading.holds (hl : Loading ed n cur) (hn : n < maxLines) : Holds (ed.lines n) 0 cur := by
  refine ⟨hl.no_nul, fun k _ => ?_⟩
  rw [Int.zero_add]
  exact hl.current k hn

theorem Loading.terminated (hl : Loading ed n cur) {i : Int} (h₀ : 0 ≤ i) (h₁ : i < maxLines) :
    (ed.text i).length < maxLineLength := by
  rcases Int.lt_trichotomy i n with hlt | rfl | hgt
  · exact hl.done i h₀ hlt
  · rw [EditorState.text, text_eq (hl.holds (by omega)) hl.short]
    exact hl.short
  · rw [EditorState.text, hl.blank i hgt, text_nil rfl]
    decide

theorem Loading.close (hl : Loading ed n cur) (hn : n < maxLines) :
    ∃ ed', ed.putChar ed.lineCount cur.length 0 = .ok ed' ∧
      Loading { ed' with lineCount := ed'.lineCount + 1 } (n + 1) [] ∧
      ({ ed' with lineCount := ed'.lineCount + 1 } : EditorState).buffer = ed.buffer ++ [cur] ∧
      ∃ lines, ed' = { ed with lines } := by
  have hshort := hl.short
  have hput : ed.putChar n cur.length 0 = .ok (ed.setRow n
      (Function.update (ed.lines n) cur.length 0)) :=
    putChar_eq (by omega) (by omega) (by omega) (by omega)
  have hrow : Function.update (ed.lines n) cur.length 0 = ed.lines n := by
    apply Function.update_eq_self_iff.2
    rw [hl.current _ hn, List.getElem?_eq_none (Nat.le_refl _), Option.getD_none]
  have hsame : ed.setRow n (ed.lines n) = ed := by
    rw [EditorState.setRow, Function.update_eq_self]
  rw [hrow, hsame] at hput
  have hcur : ed.text n = cur := text_eq (hl.holds hn) hl.short
  refine ⟨ed, by rw [hl.count, hput], ⟨?_, hn, by decide, List.not_mem_nil, fun i h₀ h₁ => ?_,
    fun k _ => ?_, fun i hi => ?_⟩, ?_, ed.lines, rfl⟩
  · simp only [hl.count, Int.natCast_add, Int.cast_ofNat_Int]
  · exact hl.terminated h₀ (by omega)
  · change ed.lines ((n + 1 : Nat) : Int) k = _
    rw [hl.blank _ (by omega), List.getElem?_nil, Option.getD_none]
  · exact hl.blank i (by omega)
  · have hcount : ed.lineCount + 1 = (n + 1 : Nat) := by rw [hl.count, Int.natCast_succ]
    have hbuf : ({ ed with lineCount := ed.lineCount + 1 } : EditorState).buffer =
        ed.buffer ++ [ed.text n] := buffer_succ hl.count hcount fun _ _ => rfl
    rw [hbuf, hcur]

theorem Loading.append (hl : Loading ed n cur) (hn : n < maxLines) (hc : c ≠ 0)
    (hroom : cur.length < maxLineLength - 1) :
    ∃ ed', ed.putChar ed.lineCount cur.length c = .ok ed' ∧ Loading ed' n (cur ++ [c]) ∧
      ed'.buffer = ed.buffer ∧ ∃ lines, ed' = { ed with lines } := by
  have hsize : maxLineLength = 256 := rfl
  have hput : ed.putChar n cur.length c = .ok (ed.setRow n
      (Function.update (ed.lines n) cur.length c)) :=
    putChar_eq (by omega) (by omega) (by omega) (by omega)
  refine ⟨ed.setRow n (Function.update (ed.lines n) cur.length c), by rw [hl.count, hput],
    ⟨hl.count, hl.count_le, ?_, fun hm => ?_, fun i h₀ h₁ => ?_, fun k _ => ?_, fun i hi => ?_⟩,
    ?_, _, rfl⟩
  · rw [List.length_append, List.length_singleton]
    omega
  · rcases List.mem_append.1 hm with hm | hm
    · exact hl.no_nul hm
    · exact hc (List.mem_singleton.1 hm).symm
  · rw [text_setRow_of_ne (by omega)]
    exact hl.done i h₀ h₁
  · rw [setRow_self]
    by_cases hk : k = cur.length
    · rw [hk, Function.update_self, List.getElem?_append_right (Nat.le_refl _), Nat.sub_self]
      rfl
    · rw [Function.update_of_ne (by omega), hl.current k hn]
      rcases Nat.lt_or_gt_of_ne hk with hlt | hgt
      · rw [List.getElem?_append_left hlt]
      · rw [List.getElem?_eq_none (by omega), List.getElem?_eq_none (by
          rw [List.length_append, List.length_singleton]; omega)]
  · rw [setRow_of_ne (by omega)]
    exact hl.blank i hi
  · refine buffer_congr hl.count ?_ fun k hk => ?_
    · exact hl.count
    · exact text_setRow_of_ne (by omega)

theorem loadLoop_eq {i : Nat} {data : List UInt8} {buffer : Chars} (hl : Loading ed n cur)
    (hdata : ∀ k (h : k < data.length), buffer ((i : Int) + k) = data[k])
    (hfits : i + data.length ≤ bufferSize) :
    ∃ ed' m last, loadLoop buffer data.length i cur.length ed = .ok ed' ∧ Loading ed' m last ∧
      ed'.buffer = ed.buffer ++ (closedLines cur data).take (maxLines - n) ∧
      ∃ lines, ed' = { ed with lines, lineCount := m } := by
  induction data generalizing ed n cur i with
  | nil =>
    refine ⟨ed, n, cur, rfl, hl, ?_, ed.lines, ?_⟩
    · rw [closedLines, List.take_nil, List.append_nil]
    · rw [← hl.count]
  | cons c cs ih =>
    rw [List.length_cons] at hfits
    have hget : get bufferSize buffer i = some c := by
      have hc := hdata 0 (Nat.zero_lt_succ _)
      rw [Int.natCast_zero, Int.add_zero, List.getElem_cons_zero] at hc
      rw [get_eq (by omega) (by omega), hc]
    have hrest : ∀ k (h : k < cs.length), buffer (((i + 1 : Nat) : Int) + k) = cs[k] := by
      intro k hk
      have hc := hdata (k + 1) (Nat.succ_lt_succ hk)
      rw [List.getElem_cons_succ] at hc
      rw [← hc]
      exact congrArg buffer (by omega)
    rw [List.length_cons, loadLoop, closedLines]
    by_cases hn : n < maxLines
    swap
    · rw [if_neg (by rw [hl.count]; omega)]
      refine ⟨ed, n, cur, rfl, hl, ?_, ed.lines, by rw [← hl.count]⟩
      rw [Nat.sub_eq_zero_of_le (by omega), List.take_zero, List.append_nil]
    rw [if_pos (by rw [hl.count]; omega), hget]
    simp only [checked, ok_bind]
    by_cases hend : c = '\n'.toUInt8 ∨ c = 0
    · rw [if_pos hend, if_pos hend]
      obtain ⟨ed₁, hput, hl₁, hbuf₁, lines₁, hed₁⟩ := hl.close hn
      obtain ⟨ed', m, last, he, hl', hbuf, lines, hed⟩ := ih (i := i + 1) hl₁ hrest (by omega)
      refine ⟨ed', m, last, ?_, hl', ?_, lines, ?_⟩
      · rw [hput]
        exact he
      · have hleft : maxLines - n = maxLines - (n + 1) + 1 := by omega
        rw [hbuf, hbuf₁, hleft, List.take_succ_cons, List.append_assoc, List.singleton_append]
      · rw [hed, hed₁]
    rw [if_neg hend, if_neg hend]
    by_cases hroom : cur.length < maxLineLength - 1
    · rw [if_pos hroom, if_pos (by have : maxLineLength = 256 := rfl; omega)]
      obtain ⟨ed₁, hput, hl₁, hbuf₁, lines₁, hed₁⟩ := hl.append hn (fun hz => hend (.inr hz)) hroom
      obtain ⟨ed', m, last, he, hl', hbuf, lines, hed⟩ := ih (i := i + 1) hl₁ hrest (by omega)
      rw [List.length_append, List.length_singleton] at he
      refine ⟨ed', m, last, ?_, hl', ?_, lines, ?_⟩
      · rw [hput]
        exact he
      · rw [hbuf, hbuf₁]
      · rw [hed, hed₁]
    · rw [if_neg hroom, if_neg (by have : maxLineLength = 256 := rfl; omega)]
      exact ih (i := i + 1) hl hrest (by omega)

/-- `ed'` is `ed` with the lines `ls` in its buffer. -/
structure Loaded (ed ed' : EditorState) (ls : List (List UInt8)) : Prop where
  buffer : ed'.buffer = ls
  count : ed'.lineCount = ls.length
  count_pos : 1 ≤ ls.length
  count_le : ls.length ≤ maxLines
  terminated : ∀ i : Int, 0 ≤ i → i < maxLines → (ed'.text i).length < maxLineLength
  frame : ∃ lines n, ed' = { ed with lines, lineCount := n }

theorem emptyBuffer_loaded
    (ht : ∀ i : Int, 0 ≤ i → i < maxLines → (ed.text i).length < maxLineLength) :
    ∃ ed', ed.emptyBuffer = .ok ed' ∧ Loaded ed ed' [[]] := by
  have hput : ed.emptyBuffer = .ok (({ ed with lineCount := 1 } : EditorState).setRow 0
      (Function.update (ed.lines 0) 0 0)) := putChar_eq (by decide) (by decide) (by decide) (by decide)
  have hfirst : (({ ed with lineCount := 1 } : EditorState).setRow 0
      (Function.update (ed.lines 0) 0 0)).text 0 = [] := by
    rw [EditorState.text, setRow_self, text_nil (Function.update_self _ _ _)]
  refine ⟨_, hput, ?_, rfl, Nat.le_refl _, by decide, fun i h₀ h₁ => ?_, _, 1, rfl⟩
  · rw [buffer_of_count (n := 1) rfl]
    exact congrArg (fun l => [l]) hfirst
  · by_cases hi : i = 0
    · rw [hi, hfirst]
      decide
    · rw [text_setRow_of_ne hi]
      exact ht i h₀ h₁

theorem buffer_toNat : ed.buffer.length = ed.lineCount.toNat := by
  rw [EditorState.buffer, List.length_map, List.length_range]

theorem buffer_length (hn : ed.lineCount = (n : Nat)) : ed.buffer.length = n := by
  rw [buffer_toNat, hn, Int.toNat_natCast]

theorem buffer_getElem {k : Nat} (hk : k < ed.buffer.length) : ed.buffer[k] = ed.text k := by
  simp only [EditorState.buffer, List.getElem_map, List.getElem_range]

theorem editorLoadFile_loaded (hz : ∀ i, ed.lines i = fun _ => 0)
    (hr : fsReadFile fs filename bufferSize (bufferSize - 1) = .ok (r, data)) :
    ∃ ed', editorLoadFile ed fs filename = .ok (0, ed') ∧ Loaded ed ed' (loadedLines data) := by
  have hblank : ∀ {ed : EditorState}, (∀ i, ed.lines i = fun _ => 0) →
      ∀ i, ed.text i = [] := fun hz i => text_nil (congrFun (hz i) 0)
  rw [editorLoadFile, hr]
  simp only [ok_bind]
  rcases fsReadFile_data hr with ⟨hneg, rfl⟩ | ⟨rfl, hlen⟩
  · rw [if_pos hneg]
    have hshort : ∀ i : Int, 0 ≤ i → i < maxLines → (ed.text i).length < maxLineLength := by
      intro i _ _
      rw [hblank hz]
      decide
    obtain ⟨ed', he, hl⟩ := emptyBuffer_loaded hshort
    rw [he]
    exact ⟨ed', rfl, hl⟩
  have hsize : bufferSize = 4096 := rfl
  rw [if_neg (by omega), set_eq (by omega) (by omega)]
  simp only [checked, ok_bind, Int.toNat_natCast]
  have hload : Loading { ed with lineCount := 0 } 0 [] := by
    refine ⟨rfl, by decide, by decide, List.not_mem_nil, fun i h₀ h₁ => ?_, fun k _ => ?_,
      fun i _ => hz i⟩
    · omega
    · change ed.lines 0 k = _
      rw [hz, List.getElem?_nil, Option.getD_none]
  have hdata : ∀ k (h : k < data.length), Function.update (fun i : Int => data[i.toNat]?.getD 0)
      data.length 0 (((0 : Nat) : Int) + k) = data[k] := by
    intro k hk
    rw [Function.update_of_ne (by omega), List.getElem?_eq_getElem (by omega)]
    simp only [Int.natCast_zero, Int.zero_add, Int.toNat_natCast, Option.getD_some]
  obtain ⟨ed₁, m, last, he, hl, hbuf, lines, hed⟩ := loadLoop_eq hload hdata (by omega)
  have hstart : ({ ed with lineCount := 0 } : EditorState).buffer = [] := rfl
  rw [hstart, List.nil_append, Nat.sub_zero] at hbuf
  have hm : ((closedLines [] data).take maxLines).length = m := by
    rw [← hbuf, buffer_length hl.count]
  change loadLoop _ data.length 0 0 { ed with lineCount := 0 } = .ok ed₁ at he
  rw [he]
  simp only [ok_bind]
  by_cases hzero : m = 0
  · rw [if_pos (by rw [hl.count]; omega)]
    obtain ⟨ed', he', hl'⟩ := emptyBuffer_loaded fun i h₀ h₁ => hl.terminated h₀ h₁
    obtain ⟨lines', n, hed'⟩ := hl'.frame
    have hlines : loadedLines data = [[]] := by
      rw [loadedLines, List.eq_nil_of_length_eq_zero (hm.trans hzero)]
    rw [hlines]
    exact ⟨ed', by rw [he']; rfl, hl'.buffer, hl'.count, hl'.count_pos, hl'.count_le,
      hl'.terminated, lines', n, by rw [hed', hed]⟩
  · rw [if_neg (by rw [hl.count]; omega)]
    have hlines : loadedLines data = (closedLines [] data).take maxLines := by
      rw [loadedLines]
      cases hcl : (closedLines [] data).take maxLines with
      | nil =>
        rw [hcl] at hm
        exact absurd hm.symm hzero
      | cons l ls => rfl
    refine ⟨ed₁, rfl, hbuf.trans hlines.symm, ?_, ?_, ?_, fun i h₀ h₁ => hl.terminated h₀ h₁,
      lines, m, hed⟩
    · rw [hlines, hm, hl.count]
    · rw [hlines, hm]
      omega
    · rw [hlines, hm]
      exact hl.count_le

theorem saveLoop_eq {i pos : Nat} {ls : List (List UInt8)} {buffer : Chars}
    (hrows : ∀ k (h : k < ls.length), HasLine ed ((i : Int) + k) ls[k])
    (hcount : ed.lineCount = i + ls.length) (hpos : pos < bufferSize) :
    ∃ pos' buffer', saveLoop ed ls.length i pos buffer = .ok (((pos' : Nat) : Int), buffer') ∧
      pos' < bufferSize ∧ pos' = pos + (savedBytes pos ls).length ∧
      bytes buffer' pos' = bytes buffer pos ++ savedBytes pos ls := by
  induction ls generalizing i pos buffer with
  | nil => exact ⟨pos, buffer, rfl, hpos, rfl, (List.append_nil _).symm⟩
  | cons l ls ih =>
    rw [List.length_cons] at hcount
    have hrest : ∀ k (h : k < ls.length), HasLine ed (((i + 1 : Nat) : Int) + k) ls[k] := by
      intro k hk
      have hk' := hrows (k + 1) (Nat.succ_lt_succ hk)
      rw [List.getElem_cons_succ] at hk'
      have hnext : ((i + 1 : Nat) : Int) + k = i + (k + 1 : Nat) := by omega
      rwa [hnext]
    have hline : HasLine ed i l := by
      have hk := hrows 0 (Nat.zero_lt_succ _)
      rwa [Int.natCast_zero, Int.add_zero, List.getElem_cons_zero] at hk
    have hshort := hline.short
    rw [List.length_cons, saveLoop, savedBytes]
    by_cases hroom : pos < bufferSize - 1
    swap
    · rw [if_neg (by omega), if_neg hroom]
      exact ⟨pos, buffer, rfl, hpos, rfl, (List.append_nil _).symm⟩
    rw [if_pos (by omega), if_pos hroom, hline.lineLen, ok_bind]
    by_cases hfits : pos + l.length + 1 < bufferSize
    swap
    · rw [if_neg (by omega), if_neg hfits]
      exact ih (i := i + 1) hrest (by omega) hpos
    rw [if_pos (by omega), if_pos hfits, hline.row]
    have hstr : ∃ out, CharArray.strcpy bufferSize buffer pos maxLineLength (ed.lines i) 0 =
        some out ∧ Holds out pos l ∧ ∀ x : Int, x < pos ∨ pos + l.length < x → out x = buffer x :=
      strcpy_eq hline.holds (Int.le_refl 0) (by omega) (by omega) (by omega)
    obtain ⟨buffer₁, hcopy, hholds, hsame⟩ := hstr
    have hbytes : bytes buffer₁ (pos + l.length) = bytes buffer pos ++ l :=
      bytes_holds hholds fun x hx => hsame x (.inl hx)
    rw [ok_bind, hcopy, checked, ok_bind]
    by_cases hlast : ls = []
    · subst hlast
      rw [if_neg (by rw [hcount]; simp only [List.length_nil]; omega), if_pos rfl]
      exact ⟨pos + l.length, buffer₁, rfl, by omega, rfl, hbytes⟩
    · have hpos' := List.length_pos_iff.2 hlast
      rw [if_pos (by rw [hcount]; omega), if_neg hlast, set_eq (by omega) (by omega), checked,
        ok_bind]
      have hnext : pos + l.length + 1 < bufferSize := hfits
      obtain ⟨pos', buffer', he, hle, hlen, hb⟩ := ih hrest (by omega) hnext
      refine ⟨pos', buffer', he, hle, ?_, ?_⟩
      · rw [hlen, List.length_append, List.length_cons]
        omega
      · rw [← Int.natCast_add, bytes_update, hbytes] at hb
        rw [hb]
        simp only [List.append_assoc, List.singleton_append]

theorem editorSaveFile_data (ed : EditorState) (fs : Filesystem) :
    editorSaveFile ed fs = saveData ed >>= fun data =>
      fsWriteFile fs ed.filename.toCStr data data.length >>= fun p =>
        if p.1 = fsSuccess then .ok (0, { ed with modified := false }, p.2) else .ok (-1, ed, p.2) := by
  rw [editorSaveFile, saveData]
  cases saveLoop ed ed.lineCount.toNat 0 0 fun _ => 0 with
  | error e => rfl
  | ok p =>
    simp only [ok_bind]
    cases checked .saveBuffer (CharArray.set bufferSize p.2 p.1 0) with
    | error e => rfl
    | ok buffer =>
      simp only [ok_bind, pure_eq_ok, bytes_length]

theorem editorSaveFile_editor (hsave : editorSaveFile ed fs = .ok (result, ed', fs')) :
    result = 0 ∧ ed' = { ed with modified := false } ∨ result = -1 ∧ ed' = ed := by
  rw [editorSaveFile_data] at hsave
  obtain ⟨data, _, hsave⟩ := bind_eq_ok.1 hsave
  obtain ⟨p, _, hsave⟩ := bind_eq_ok.1 hsave
  split at hsave
  · cases hsave
    exact .inl ⟨rfl, rfl⟩
  · cases hsave
    exact .inr ⟨rfl, rfl⟩

theorem saveData_eq (hcount : ed.lineCount = (n : Nat)) (hn : n ≤ maxLines)
    (ht : ∀ k < n, (ed.text k).length < maxLineLength) :
    saveData ed = .ok (savedBytes 0 ed.buffer) := by
  have hlen := buffer_length hcount
  have hrows : ∀ k (h : k < ed.buffer.length), HasLine ed (((0 : Nat) : Int) + k) ed.buffer[k] := by
    intro k hk
    have hrow := ht k (by omega)
    rw [buffer_getElem, Int.natCast_zero, Int.zero_add]
    exact ⟨by omega, by omega, holds_text hrow, hrow⟩
  have hloop : ∃ pos' buffer', saveLoop ed ed.buffer.length 0 0 (fun _ => 0) =
      .ok (((pos' : Nat) : Int), buffer') ∧ pos' < bufferSize ∧
      pos' = 0 + (savedBytes 0 ed.buffer).length ∧
      bytes buffer' pos' = bytes (fun _ => 0) 0 ++ savedBytes 0 ed.buffer :=
    saveLoop_eq hrows (by rw [hcount, hlen, Int.natCast_zero, Int.zero_add]) (by decide)
  obtain ⟨pos, buffer, he, hle, hpos, hb⟩ := hloop
  have hempty : bytes (fun _ => 0) 0 = [] := rfl
  rw [hempty, List.nil_append] at hb
  have hbytes : bytes (Function.update buffer (pos : Int) 0) pos = savedBytes 0 ed.buffer := by
    rw [← hb]
    exact bytes_congr fun x hx => Function.update_of_ne (by omega) _ _
  rw [saveData, hcount, Int.toNat_natCast, ← hlen, he, ok_bind]
  simp only
  rw [set_eq (by omega) (by omega), checked, ok_bind, Int.toNat_natCast, hbytes]
  rfl

theorem EditorInv.saved (hi : EditorInv ed) : saveData ed = .ok (savedBytes 0 ed.buffer) := by
  have hpos := hi.count_pos
  have hle := hi.count_le
  obtain ⟨n, hn⟩ : ∃ n : Nat, ed.lineCount = n := Int.eq_ofNat_of_zero_le (by omega)
  exact saveData_eq hn (by omega) fun k hk => hi.terminated k (by omega) (by omega)

theorem editorSaveFile_eq (hcount : ed.lineCount = (n : Nat)) (hn : n ≤ maxLines)
    (ht : ∀ k < n, (ed.text k).length < maxLineLength) (hd : data = savedBytes 0 ed.buffer) :
    editorSaveFile ed fs = fsWriteFile fs ed.filename.toCStr data data.length >>= fun p =>
      if p.1 = fsSuccess then .ok (0, { ed with modified := false }, p.2) else .ok (-1, ed, p.2) := by
  rw [editorSaveFile_data, saveData_eq hcount hn ht, hd]
  rfl

end

/-- The editor on a file `f` of so many lines of so many times `a`. -/
def blockBuffer (lines chars : Nat) : EditorState :=
  { editorZero ⟨.ofString "f", by decide⟩ with
    lines := fun line i => if line < lines ∧ i < chars then 97 else 0
    lineCount := lines
    viewHeight := 20
    modified := true }

section
variable {lines chars : Nat}

theorem blockBuffer_text (hchars : chars < maxLineLength) (line : Int) :
    (blockBuffer lines chars).text line = if line < lines then List.replicate chars 97 else [] := by
  have hrow : (blockBuffer lines chars).lines line =
      fun i : Int => if line < lines ∧ i < chars then (97 : UInt8) else 0 := rfl
  split
  · next hline =>
    rw [EditorState.text, hrow]
    apply text_eq
    · refine ⟨fun hm => absurd (List.eq_of_mem_replicate hm) (by decide), fun k hk => ?_⟩
      rw [List.length_replicate] at hk
      rw [List.getElem?_replicate]
      by_cases hlast : k < chars
      · rw [if_pos ⟨hline, by omega⟩, if_pos hlast]
        rfl
      · rw [if_neg (by omega), if_neg hlast]
        rfl
    · rwa [List.length_replicate]
  · next hline => exact text_nil (if_neg fun h => hline h.1)

theorem blockBuffer_inv (hpos : 1 ≤ lines) (hle : lines ≤ maxLines) (hchars : chars < maxLineLength) :
    EditorInv (blockBuffer lines chars) := by
  have hcount : (blockBuffer lines chars).lineCount = lines := rfl
  have hcursor : (blockBuffer lines chars).cursorLine = 0 := rfl
  refine ⟨by omega, by omega, Int.le_refl 0, by omega, fun line _ _ => ?_, Int.le_refl 0,
    Int.natCast_nonneg _, Int.le_refl 0⟩
  rw [blockBuffer_text hchars]
  split
  · rwa [List.length_replicate]
  · exact Nat.lt_of_le_of_lt (Nat.zero_le _) hchars

theorem blockBuffer_buffer (hchars : chars < maxLineLength) :
    (blockBuffer lines chars).buffer = List.replicate lines (List.replicate chars 97) := by
  have hcount : (blockBuffer lines chars).lineCount = lines := rfl
  rw [buffer_of_count hcount, List.eq_replicate_iff, List.length_map, List.length_range]
  refine ⟨rfl, fun l hl => ?_⟩
  obtain ⟨k, hk, rfl⟩ := List.mem_map.1 hl
  have hlt := List.mem_range.1 hk
  rw [blockBuffer_text hchars, if_pos (by omega)]

end

end ChipOS
