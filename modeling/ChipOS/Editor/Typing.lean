import ChipOS.Editor.Escape
import ChipOS.Editor.RoundTrip
import ChipOS.Editor.TextEditor

namespace ChipOS
open Run
set_option autoImplicit true

/-- These keys, and then the rest. -/
def Keys.of (input : List UInt8) (rest : Keys) : Keys := input.foldr Keys.cons rest

/-- A key typed behind the last line: the lines before it, and the line itself. -/
def typeLast (p : List (List UInt8) × List UInt8) (c : UInt8) : List (List UInt8) × List UInt8 :=
  if c = '\n'.toUInt8 ∨ c = '\r'.toUInt8 then
    if p.1.length + 1 < maxLines - 1 then (p.1 ++ [p.2], []) else p
  else if c = 127 ∨ c = 8 then (p.1, p.2.dropLast)
  else if c ≥ 32 ∧ c ≤ 126 then
    if p.2.length < maxLineLength - 1 then (p.1, p.2 ++ [c]) else p
  else p

/-- The lines that are loaded of a file, for a text to be typed behind them: a new one if the last is
not empty and there is room for it. -/
def appendedLines (data : List UInt8) : List (List UInt8) × List UInt8 :=
  let p := ((loadedLines data).dropLast, (loadedLines data).getLast?.getD [])
  if p.2 = [] then p else typeLast p '\n'.toUInt8

/-- The lines that a text is typed behind: those that are loaded of a file that exists, so not a last
line that no newline ends, and none in a new file. -/
def openedLines (r : Int) (data : List UInt8) : List (List UInt8) × List UInt8 :=
  if r ≥ 0 then appendedLines data else ([], [])

def typedLines (p : List (List UInt8) × List UInt8) (input : List UInt8) : List (List UInt8) :=
  let q := input.foldl typeLast p
  q.1 ++ [q.2]

/-- The keys that come to the insert mode at the end of the text: `2` and one more where the file
exists, and `i` where it does not. -/
def appendKeys (r : Int) (k : UInt8) : List UInt8 :=
  if r ≥ 0 then ['2'.toUInt8, k] else ['i'.toUInt8]

/-- `ESC`, the key that it takes with it, and `:wq`. -/
def saveAndQuit (c : UInt8) : List UInt8 :=
  [27, c, ':'.toUInt8, 'w'.toUInt8, 'q'.toUInt8, '\n'.toUInt8]

theorem plainLine_nil : PlainLine [] := ⟨by decide, List.not_mem_nil, List.not_mem_nil⟩

theorem PlainLine.concat (hl : PlainLine l) (hroom : l.length < maxLineLength - 1)
    (hn : c ≠ '\n'.toUInt8) (hz : c ≠ 0) : PlainLine (l ++ [c]) := by
  refine ⟨?_, fun hm => ?_, fun hm => ?_⟩
  · rw [List.length_append, List.length_singleton]
    omega
  · rcases List.mem_append.1 hm with hm | hm
    · exact hl.no_newline hm
    · exact hn (List.mem_singleton.1 hm).symm
  · rcases List.mem_append.1 hm with hm | hm
    · exact hl.no_nul hm
    · exact hz (List.mem_singleton.1 hm).symm

def PlainLines (p : List (List UInt8) × List UInt8) : Prop := (∀ l ∈ p.1, PlainLine l) ∧ PlainLine p.2

theorem PlainLines.type (hp : PlainLines p) : PlainLines (typeLast p c) := by
  obtain ⟨hdone, hcur⟩ := hp
  rw [typeLast]
  split
  · split
    · refine ⟨fun l hl => ?_, plainLine_nil⟩
      rcases List.mem_append.1 hl with hl | hl
      · exact hdone l hl
      · exact List.mem_singleton.1 hl ▸ hcur
    · exact ⟨hdone, hcur⟩
  next henter =>
  split
  · have hsub : p.2.dropLast <+: p.2 := List.dropLast_prefix p.2
    exact ⟨hdone, Nat.lt_of_le_of_lt hsub.length_le hcur.short,
      fun hm => hcur.no_newline (hsub.subset hm), fun hm => hcur.no_nul (hsub.subset hm)⟩
  split
  · next hprint =>
    split
    · next hroom =>
      have hz : c ≠ 0 := by
        rintro rfl
        exact absurd hprint.1 (by decide)
      exact ⟨hdone, hcur.concat hroom (fun h => henter (.inl h)) hz⟩
    · exact ⟨hdone, hcur⟩
  · exact ⟨hdone, hcur⟩

theorem PlainLines.typed (hp : PlainLines p) (input : List UInt8) :
    ∀ l ∈ typedLines p input, PlainLine l := by
  have hall : PlainLines (input.foldl typeLast p) := by
    induction input generalizing p with
    | nil => exact hp
    | cons c input ih => exact ih hp.type
  intro l hl
  rcases List.mem_append.1 hl with hl | hl
  · exact hall.1 l hl
  · exact List.mem_singleton.1 hl ▸ hall.2

section
variable {e : TextEditor} {p : List (List UInt8) × List UInt8}

theorem type_atEnd (ht : e.text = .atEnd p.1 p.2) : ∃ u, e.type c =
    { e with text := .atEnd (typeLast p c).1 (typeLast p c).2, unsaved := u } := by
  obtain ⟨shown, name, inserting, unsaved, fs, keys, running⟩ := e
  dsimp only at ht
  subst ht
  rw [TextEditor.type, typeLast]
  split
  · have hlen : (TextBuffer.atEnd p.1 p.2).lines.length = p.1.length + 1 := List.length_append
    rw [TextEditor.newLine, TextEditor.edit]
    dsimp only
    rw [hlen]
    split
    · rw [TextBuffer.newLine_atEnd]
      exact ⟨true, rfl⟩
    · exact ⟨unsaved, rfl⟩
  split
  · rw [TextEditor.edit]
    dsimp only
    split
    · rw [TextBuffer.delete_atEnd]
      exact ⟨true, rfl⟩
    · next hstart =>
      have hnil : p.2 = [] := List.eq_nil_of_length_eq_zero (Nat.eq_zero_of_not_pos hstart)
      rw [hnil]
      exact ⟨unsaved, rfl⟩
  split
  · rw [TextEditor.edit]
    dsimp only
    rw [TextBuffer.current_atEnd]
    split
    · rw [TextBuffer.insert_atEnd]
      exact ⟨true, rfl⟩
    · exact ⟨unsaved, rfl⟩
  · exact ⟨unsaved, rfl⟩

theorem type_run {rest : Keys} (ht : e.text = .atEnd p.1 p.2) (hmode : e.inserting = true)
    (hrun : e.running = true) (hkeys : e.keys = Keys.of input rest) (hesc : 27 ∉ input) :
    ∃ u, exec TextEditor.step e (List.replicate input.length ()) =
      .ok { e with text := .atEnd (input.foldl typeLast p).1 (input.foldl typeLast p).2,
                   unsaved := u, keys := rest } := by
  induction input generalizing e p with
  | nil =>
    refine ⟨e.unsaved, ?_⟩
    have hsame : e = { e with text := .atEnd p.1 p.2, unsaved := e.unsaved, keys := rest } := by
      rw [← ht]
      have hrest : e.keys = rest := hkeys
      rw [← hrest]
    exact congrArg Except.ok hsame
  | cons c input ih =>
    have hc : ¬c = 27 := fun h => hesc (h ▸ List.mem_cons_self)
    have hstep : e.step () = .ok ((e.skip 1).type c) := by
      have hfirst : e.keys 0 = c := by rw [hkeys]; rfl
      have hmode' : (e.skip 1).inserting = true := hmode
      rw [TextEditor.step, if_pos hrun]
      dsimp only
      rw [hfirst, if_neg hc, if_pos hmode']
    obtain ⟨u, htype⟩ := type_atEnd (e := e.skip 1) (c := c) ht
    have hkeys' : (e.skip 1).keys = Keys.of input rest := by
      rw [TextEditor.skip, hkeys]
      rfl
    rw [List.length_cons, List.replicate_succ, exec, hstep, ok_bind, htype, List.foldl_cons]
    exact ih rfl hmode hrun hkeys' fun hm => hesc (List.mem_cons_of_mem _ hm)

theorem saves_and_quits (hmode : e.inserting = false) (hrun : e.running = true)
    (hkeys : e.keys = Keys.of [':'.toUInt8, 'w'.toUInt8, 'q'.toUInt8, '\n'.toUInt8] rest) :
    e.step () = { e with keys := rest }.save >>= fun q =>
      .ok (if q.1 then { q.2 with running := false } else q.2.skip 1) := by
  have hfirst : e.keys 0 = ':'.toUInt8 := by rw [hkeys]; rfl
  have hword : e.skip 1 =
      { e with keys := Keys.of ['w'.toUInt8, 'q'.toUInt8, '\n'.toUInt8] rest } := by
    rw [TextEditor.skip, hkeys]
    rfl
  have htyped : typedKeys 15 (Keys.of ['w'.toUInt8, 'q'.toUInt8, '\n'.toUInt8] rest) =
      (CStr.ofString "wq").bytes := rfl
  have hcommand : typedCommand (Keys.of ['w'.toUInt8, 'q'.toUInt8, '\n'.toUInt8] rest) =
      (CStr.ofString "wq").bytes := by
    rw [typedCommand, htyped]
    rfl
  have hkey : ∀ e : TextEditor, e.key ':'.toUInt8 = e.command := fun _ => rfl
  rw [TextEditor.step, if_pos hrun]
  dsimp only
  rw [hfirst, if_neg (by decide), hword]
  dsimp only
  rw [hmode, if_neg (by decide), hkey, TextEditor.command]
  dsimp only
  rw [hcommand, htyped, if_neg (by decide), if_neg (by decide), if_neg (by decide), if_pos rfl]
  rfl

theorem leaves_insert (hrun : e.running = true) (hc : c ≠ '['.toUInt8)
    (hkeys : e.keys = Keys.of (27 :: c :: input) rest) :
    e.step () = .ok { e with inserting := false, keys := Keys.of input rest } := by
  have hfirst : e.keys 0 = 27 := by rw [hkeys]; rfl
  have hnext : (e.skip 1).keys 0 = c := by rw [TextEditor.skip, hkeys]; rfl
  have hdrop : e.keys.drop 2 = Keys.of input rest := by
    rw [hkeys]
    rfl
  rw [TextEditor.step, if_pos hrun]
  dsimp only
  rw [hfirst, if_pos rfl, TextEditor.escape, hnext, if_neg hc, ← hdrop]
  rfl

theorem quits_insert (hrun : e.running = true) (hc : c ≠ '['.toUInt8)
    (hkeys : e.keys = Keys.of (saveAndQuit c) rest) :
    exec TextEditor.step e (List.replicate 2 ()) =
      { e with inserting := false, keys := rest }.save >>= fun q =>
        .ok (if q.1 then { q.2 with running := false } else q.2.skip 1) := by
  have hquit := saves_and_quits (e := { e with
    inserting := false, keys := Keys.of [':'.toUInt8, 'w'.toUInt8, 'q'.toUInt8, '\n'.toUInt8] rest })
    rfl hrun rfl
  dsimp only at hquit
  have htwo : List.replicate 2 () = [(), ()] := rfl
  rw [htwo, exec, leaves_insert hrun hc hkeys, ok_bind, exec, hquit]
  cases ({ e with inserting := false, keys := rest } : TextEditor).save with
  | error g => rfl
  | ok q => rfl

theorem types_and_saves {rest : Keys} (ht : e.text = .atEnd p.1 p.2) (hmode : e.inserting = true)
    (hrun : e.running = true) (hkeys : e.keys = Keys.of (input ++ saveAndQuit c) rest)
    (hesc : 27 ∉ input) (hc : c ≠ '['.toUInt8) :
    ∃ u, exec TextEditor.step e (List.replicate (input.length + 2) ()) =
      (⟨.atEnd (input.foldl typeLast p).1 (input.foldl typeLast p).2, e.name, false, u, e.fs, rest,
        true⟩ : TextEditor).save >>= fun q =>
          .ok (if q.1 then { q.2 with running := false } else q.2.skip 1) := by
  have hsplit : Keys.of (input ++ saveAndQuit c) rest = Keys.of input (Keys.of (saveAndQuit c) rest) :=
    List.foldr_append
  obtain ⟨u, he⟩ := type_run ht hmode hrun (hkeys.trans hsplit) hesc
  refine ⟨u, ?_⟩
  rw [hrun] at he
  rw [← List.replicate_append_replicate, exec_append, he, ok_bind]
  exact quits_insert rfl hc rfl

theorem opened_appends (data : List UInt8) : ∃ u, e.opened data '2'.toUInt8 =
    { e with
      text := .atEnd (appendedLines data).1 (appendedLines data).2, inserting := true, unsaved := u } := by
  have hne : loadedLines data ≠ [] := by
    rw [loadedLines]
    split
    · exact List.cons_ne_nil _ _
    · exact List.cons_ne_nil _ _
  have htext : (TextBuffer.start (loadedLines data)).bottom.toEnd =
      .atEnd (loadedLines data).dropLast ((loadedLines data).getLast?.getD []) := by
    rw [TextBuffer.toEnd_bottom hne, List.getLast?_eq_some_getLast hne]
    rfl
  rw [TextEditor.opened, if_pos rfl, appendedLines, htext]
  dsimp only
  rw [TextBuffer.current_atEnd]
  by_cases hlast : (loadedLines data).getLast?.getD [] = []
  · rw [if_pos hlast, hlast, if_neg (by decide)]
    exact ⟨e.unsaved, rfl⟩
  · rw [if_neg hlast, if_pos (List.length_pos_iff.2 hlast)]
    have hline : ∀ e : TextEditor, e.newLine = e.type '\n'.toUInt8 := fun _ => rfl
    rw [hline]
    obtain ⟨u, htype⟩ := type_atEnd (e := { e with
      text := .atEnd (loadedLines data).dropLast ((loadedLines data).getLast?.getD []) })
      (p := ((loadedLines data).dropLast, (loadedLines data).getLast?.getD [])) (c := '\n'.toUInt8) rfl
    rw [htype]
    exact ⟨u, rfl⟩

theorem append_starts (k : UInt8) (rest : Keys) (hlen : filename.bytes.length < 256)
    (hr : fsReadFile fs filename bufferSize (bufferSize - 1) = .ok (r, data)) :
    ∃ u, (TextEditor.start fs filename (Keys.of (appendKeys r k) rest) >>= fun e =>
        exec TextEditor.step e (List.replicate (if r ≥ 0 then 0 else 1) ())) =
      .ok ⟨.atEnd (openedLines r data).1 (openedLines r data).2, filename, true, u, fs, rest, true⟩ := by
  rw [TextEditor.start, if_pos hlen, hr, ok_bind, appendKeys, openedLines]
  dsimp only
  by_cases hexists : r ≥ 0
  · rw [if_pos hexists, if_pos hexists, if_pos hexists, if_pos hexists]
    obtain ⟨u, hopened⟩ := opened_appends (e := ⟨.start [], filename, false, false, fs, rest, true⟩) data
    exact ⟨u, congrArg Except.ok hopened⟩
  · rw [if_neg hexists, if_neg hexists, if_neg hexists, if_neg hexists]
    exact ⟨false, rfl⟩

end

/-- The run of a session up to its first `:wq`, for a text that is typed at the end of the file. -/
def typingSession (fs : Filesystem) (filename : CStr) (r : Int) (k : UInt8) (input : List UInt8)
    (c : UInt8) (rest : Keys) : Except Fault Session :=
  editorStart fs filename (Keys.of (appendKeys r k ++ (input ++ saveAndQuit c)) rest) >>= fun s =>
    exec editorStep s (List.replicate ((if r ≥ 0 then 0 else 1) + (input.length + 2)) ())

theorem typingSession_follows (k : UInt8) (rest : Keys) (hname : filename.bytes.length < 256)
    (hread : fsReadFile fs filename bufferSize (bufferSize - 1) = .ok (r, data))
    (hesc : 27 ∉ input) (hc : c ≠ '['.toUInt8) :
    ∃ u, SameEnd Follows (typingSession fs filename r k input c rest)
      ((⟨.atEnd (input.foldl typeLast (openedLines r data)).1
          (input.foldl typeLast (openedLines r data)).2, filename, false, u, fs, rest, true⟩ :
        TextEditor).save >>= fun q => .ok (if q.1 then { q.2 with running := false } else q.2.skip 1)) := by
  have hrun : SameEnd Follows (typingSession fs filename r k input c rest)
      (TextEditor.start fs filename (Keys.of (appendKeys r k ++ (input ++ saveAndQuit c)) rest) >>=
        fun e => exec TextEditor.step e
          (List.replicate ((if r ≥ 0 then 0 else 1) + (input.length + 2)) ())) :=
    (start_follows fs filename _).bind fun _ _ h => .exec (fun _ _ _ h => h.step) h _
  have hkeys : Keys.of (appendKeys r k ++ (input ++ saveAndQuit c)) rest =
      Keys.of (appendKeys r k) (Keys.of (input ++ saveAndQuit c) rest) := List.foldr_append
  obtain ⟨u₀, hstart⟩ := append_starts k (Keys.of (input ++ saveAndQuit c) rest) hname hread
  obtain ⟨u, htypes⟩ := types_and_saves (e := ⟨.atEnd (openedLines r data).1 (openedLines r data).2,
    filename, true, u₀, fs, Keys.of (input ++ saveAndQuit c) rest, true⟩) rfl rfl rfl rfl hesc hc
  have hsplit : ∀ {x : Except Fault TextEditor} {m n},
      (x >>= fun e => exec TextEditor.step e (List.replicate (m + n) ())) =
        (x >>= fun e => exec TextEditor.step e (List.replicate m ())) >>= fun e =>
          exec TextEditor.step e (List.replicate n ()) := by
    intro x m n
    rw [← List.replicate_append_replicate]
    cases x with
    | error g => rfl
    | ok e => exact exec_append
  refine ⟨u, ?_⟩
  rw [hkeys, hsplit, hstart, ok_bind, htypes] at hrun
  exact hrun

section
variable {fs fs' : Filesystem} {filename : CStr}

theorem typingSession_saves (k : UInt8) (rest : Keys) (hname : filename.bytes.length < 256)
    (hread : fsReadFile fs filename bufferSize (bufferSize - 1) = .ok (r, data))
    (hesc : 27 ∉ input) (hc : c ≠ '['.toUInt8)
    (hfits : (joinLines (typedLines (openedLines r data) input)).length < bufferSize - 1) :
    SameEnd (fun (s : Session) (p : Int × Filesystem) =>
        s.editor.buffer = typedLines (openedLines r data) input ∧ s.fs = p.2 ∧
          (s.running = false ↔ p.1 = fsSuccess))
      (typingSession fs filename r k input c rest)
      (fsWriteFile fs filename (joinLines (typedLines (openedLines r data) input))
        (joinLines (typedLines (openedLines r data) input)).length) := by
  obtain ⟨u, hrun⟩ := typingSession_follows k rest hname hread hesc hc
  have hdata : savedBytes 0 (typedLines (openedLines r data) input) =
      joinLines (typedLines (openedLines r data) input) := savedBytes_eq_join (by omega)
  have hsave : ∀ e : TextEditor, e.save = fsWriteFile e.fs e.name (savedBytes 0 e.text.lines)
      (savedBytes 0 e.text.lines).length >>= fun p =>
        .ok (decide (p.1 = fsSuccess), { e with
          fs := p.2, unsaved := e.unsaved && !decide (p.1 = fsSuccess) }) := fun _ => rfl
  have hlines : (TextBuffer.atEnd (input.foldl typeLast (openedLines r data)).1
      (input.foldl typeLast (openedLines r data)).2).lines =
        typedLines (openedLines r data) input := rfl
  rw [hsave, hlines, hdata] at hrun
  dsimp only at hrun
  generalize typingSession fs filename r k input c rest = x at hrun ⊢
  generalize fsWriteFile fs filename (joinLines (typedLines (openedLines r data) input))
    (joinLines (typedLines (openedLines r data) input)).length = w at hrun ⊢
  cases w with
  | error g =>
    cases hrun
    exact .error
  | ok p =>
    rw [ok_bind, ok_bind] at hrun
    dsimp only at hrun
    by_cases hr : p.1 = fsSuccess
    · rw [decide_eq_true hr, if_pos rfl] at hrun
      cases hrun with
      | ok hf =>
        obtain ⟨hbuffer, hfs, _, hstop, _⟩ := hf.seen
        exact .ok ⟨hbuffer.trans hlines, hfs, iff_of_true hstop hr⟩
    · rw [decide_eq_false hr, if_neg (by decide)] at hrun
      cases hrun with
      | ok hf =>
        obtain ⟨hbuffer, hfs, _, hstop, _⟩ := hf.seen
        exact .ok ⟨hbuffer.trans hlines, hfs,
          iff_of_false (fun h => Bool.false_ne_true (h.symm.trans hstop)) hr⟩

theorem joinLines_written (hfits : (joinLines ls).length < bufferSize - 1)
    (hw : fsWriteFile fs filename (joinLines ls) (joinLines ls).length = .ok (fsSuccess, fs')) :
    FileHas fs' filename (joinLines ls) := by
  have hsize : bufferSize = maxFileSize := rfl
  exact fileHas_written hw (by omega)

/-- A text typed at the end of a file, new or not, is in the file behind the lines that were loaded of
it once `:wq` has saved it. The session ends with the save, and goes on if the file system refuses
it. -/
theorem typed_text_saved (k : UInt8) (rest : Keys) (hname : filename.bytes.length < 256)
    (hread : fsReadFile fs filename bufferSize (bufferSize - 1) = .ok (r, data))
    (hesc : 27 ∉ input) (hc : c ≠ '['.toUInt8)
    (hfits : (joinLines (typedLines (openedLines r data) input)).length < bufferSize - 1) :
    let ls := typedLines (openedLines r data) input
    match fsWriteFile fs filename (joinLines ls) (joinLines ls).length with
    | .error e => typingSession fs filename r k input c rest = .error e
    | .ok (result, fs') => ∃ s, typingSession fs filename r k input c rest = .ok s ∧
      s.editor.buffer = ls ∧ s.fs = fs' ∧ (s.running = false ↔ result = fsSuccess) ∧
      (result = fsSuccess → FileHas fs' filename (joinLines ls)) := by
  have hend := typingSession_saves k rest hname hread hesc hc hfits
  dsimp only
  cases hw : fsWriteFile fs filename (joinLines (typedLines (openedLines r data) input))
      (joinLines (typedLines (openedLines r data) input)).length with
  | error e =>
    rw [hw] at hend
    generalize typingSession fs filename r k input c rest = x at hend ⊢
    cases hend
    rfl
  | ok p =>
    obtain ⟨result, fs'⟩ := p
    rw [hw] at hend
    dsimp only
    generalize typingSession fs filename r k input c rest = x at hend ⊢
    cases hend with
    | ok h =>
      obtain ⟨hbuffer, hfs, hstop⟩ := h
      refine ⟨_, rfl, hbuffer, hfs, hstop, ?_⟩
      rintro rfl
      exact joinLines_written hfits hw

end

/-- `hi` typed behind the lines `x` and `y`, the second of which no newline ends. -/
theorem typed_text_saved_behind : ∃ fs s fs', FileHas fs (.ofString "a") [0x78, 10, 0x79] ∧
    fsWriteFile fs (.ofString "a") [0x78, 10, 0x68, 0x69] 4 = .ok (fsSuccess, fs') ∧
    typingSession fs (.ofString "a") 3 0x20 [0x68, 0x69] 0x20 (fun _ => 0) = .ok s ∧
    s.running = false ∧ FileHas s.fs (.ofString "a") [0x78, 10, 0x68, 0x69] := by
  obtain ⟨fs, fs', hfirst, hw⟩ : ∃ fs fs',
      fsWriteFile (fsInit 0) (.ofString "a") [0x78, 10, 0x79] 3 = .ok (fsSuccess, fs) ∧
      fsWriteFile fs (.ofString "a") [0x78, 10, 0x68, 0x69] 4 = .ok (fsSuccess, fs') :=
    ⟨_, _, rfl, rfl⟩
  have hfile : FileHas fs (.ofString "a") [0x78, 10, 0x79] := fileHas_written hfirst (by decide)
  have hread : fsReadFile fs (.ofString "a") bufferSize (bufferSize - 1) =
    .ok (3, [0x78, 10, 0x79]) := hfile.read (by decide)
  have hesc : (27 : UInt8) ∉ [0x68, 0x69] := by decide
  have hc : (0x20 : UInt8) ≠ '['.toUInt8 := by decide
  have h := typed_text_saved 0x20 (fun _ => 0) (by decide) hread hesc hc (by decide)
  have hls : joinLines (typedLines (openedLines 3 [0x78, 10, 0x79]) [0x68, 0x69]) =
      [0x78, 10, 0x68, 0x69] := by decide
  dsimp only at h
  rw [hls] at h
  have hw' : fsWriteFile fs (.ofString "a") [0x78, 10, 0x68, 0x69] [(0x78 : UInt8), 10, 0x68, 0x69].length =
    .ok (fsSuccess, fs') := hw
  rw [hw'] at h
  obtain ⟨s, hs, _, hfs, hstop, hsaved⟩ := h
  exact ⟨fs, s, fs', hfile, hw, hs, hstop.2 rfl, hfs ▸ hsaved rfl⟩

end ChipOS
