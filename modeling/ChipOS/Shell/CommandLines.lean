import ChipOS.Shell.Arguments
import ChipOS.Shell.Draft
import ChipOS.Shell.Prompt

namespace ChipOS
open CharArray Run Words
set_option autoImplicit true

/-- How a line is entered: the arrow keys lead to an entered line or to none, and the other keys
change it. -/
structure Entry where
  arrows : List Arrow
  keys : List Key
  command : CommandInput
  recalls : .up ∈ arrows → depth historySize arrows ≠ 0
  drafts : ∀ k ∈ keys, Drafts k

/-- The line that is entered, over the lines entered before it. -/
def Entry.line (e : Entry) (lines : List (List UInt8)) : List UInt8 :=
  e.keys.foldl draftKey (recalled lines [] (depth historySize e.arrows))

def Entry.allKeys (e : Entry) : List Key := e.arrows.map Arrow.key ++ e.keys

def Entry.typing (e : Entry) : Typing :=
  ⟨e.allKeys.flatMap Key.bytes ++ ['\n'.toUInt8], e.command⟩

def CStr.ofBytes (bs : List UInt8) : CStr where
  bytes := bs.takeWhile (· != 0)
  no_nul := fun hm => absurd (List.mem_takeWhile_imp (p := (· != (0 : UInt8))) hm) (by decide)

/-- The arguments on a line: its first words. -/
def lineArguments (line : List UInt8) : List CStr :=
  ((words isBlank line).take maxArgs).map CStr.ofBytes

/-- The shell as its user knows it: the lines entered so far, the latest first, and the file
system. -/
structure WordShell where
  lines : List (List UInt8)
  fs : Filesystem

def WordShell.prompt (w : WordShell) : Print :=
  .puts (promptText w.fs.currentDir w.fs.currentPath.bytes)

/-- The lines after one more. The empty line is not kept. -/
def keepLine (line : List UInt8) (lines : List (List UInt8)) : List (List UInt8) :=
  if line = [] then lines else line :: lines

/-- A prompt, and the words of the line entered there. -/
def wordCall (heap : Heap) (w : WordShell) (e : Entry) : Except Stop (List Print × WordShell) := do
  let line := e.line w.lines
  let (out, fs) ← executeCommand heap w.fs e.command (lineArguments line)
  return (w.prompt :: out, ⟨keepLine line w.lines, fs⟩)

/-- The cursor stands behind the line. -/
structure AtLine (s : EditLine) (d : List UInt8) : Prop where
  pos : s.pos = d.length
  line : bytes s.buffer d.length = d
  no_nul : 0 ∉ d
  room : d.length < maxCommandLength

/-- The bytes of the shell hold what its user knows, and `n` more lines can be entered. -/
structure Tracks (t : Nat) (heap : Heap) (n : Nat) (s : Shell) (w : WordShell) : Prop where
  history : HistoryInv w.lines s.history
  buffer : w.lines ≠ [] → (text maxCommandLength s.inputBuffer).length < maxCommandLength
  room : (w.lines.length + n : Nat) ≤ intMax
  reach : Reach fsStep (fsInit t) w.fs
  heap_eq : s.heap = heap
  fs_eq : s.fs = w.fs

section
variable {s : EditLine} {h : History}

theorem atLine_fresh (buffer : Chars) : AtLine (freshLine buffer) [] :=
  ⟨rfl, rfl, List.not_mem_nil, by decide⟩

theorem HoldsLine.atLine (hl : HoldsLine s.buffer d) (hp : s.pos = d.length) : AtLine s d :=
  ⟨hp, hl.2.bytes_eq, hl.2.no_nul, hl.1⟩

theorem AtLine.key (ha : AtLine s d) (hk : Drafts k) :
    ∃ s', pressKey h maxCommandLength s k = .ok s' ∧ AtLine s' (draftKey d k) := by
  have hpos := ha.pos
  have hroom := ha.room
  have hsize : maxCommandLength = 256 := rfl
  cases k with
  | char c =>
    rw [draftKey_char]
    by_cases hlt : d.length < maxCommandLength - 1
    · rw [if_pos hlt]
      refine ⟨{ s with buffer := Function.update s.buffer s.pos c, pos := s.pos + 1 }, ?_, ?_, ?_,
        ?_, ?_⟩
      · rw [pressKey, if_pos (by omega), set_eq (by omega) (by omega)]
        rfl
      · dsimp only
        rw [hpos, List.length_append, List.length_singleton]
        rfl
      · dsimp only
        rw [hpos, List.length_append, List.length_singleton, bytes_update, ha.line]
      · intro hm
        rcases List.mem_append.1 hm with hm | hm
        · exact ha.no_nul hm
        · cases List.mem_singleton.1 hm
          exact absurd hk.1 (by decide)
      · rw [List.length_append, List.length_singleton]
        omega
    · rw [if_neg hlt]
      refine ⟨s, ?_, ha⟩
      rw [pressKey, if_neg (by omega)]
      rfl
  | backspace =>
    have hkey : draftKey d .backspace = d.dropLast := rfl
    rw [hkey]
    by_cases hne : d = []
    · subst hne
      refine ⟨s, ?_, ha⟩
      rw [pressKey, if_neg (by rw [hpos, List.length_nil]; omega)]
    · have hlen := List.length_pos_iff.2 hne
      have hlast : d.dropLast.length = d.length - 1 := List.length_dropLast
      refine ⟨{ s with pos := s.pos - 1 }, ?_, ?_, ?_, ?_, ?_⟩
      · rw [pressKey, if_pos (by omega)]
      · dsimp only
        omega
      · rw [hlast, ← bytes_dropLast, ha.line]
      · exact fun hm => ha.no_nul ((List.dropLast_sublist _).mem hm)
      · omega
  | up => exact hk.elim
  | down => exact hk.elim
  | ignored => exact hk.elim

theorem AtLine.exec (ha : AtLine s d) (hks : ∀ k ∈ ks, Drafts k) :
    ∃ s', Run.exec (pressKey h maxCommandLength) s ks = .ok s' ∧ AtLine s' (ks.foldl draftKey d) := by
  induction ks generalizing s d with
  | nil => exact ⟨s, rfl, ha⟩
  | cons k ks ih =>
    obtain ⟨hk, hrest⟩ := List.forall_mem_cons.1 hks
    obtain ⟨s₁, hs₁, ha₁⟩ := ha.key (h := h) hk
    obtain ⟨s', hs', ha'⟩ := ih ha₁ hrest
    refine ⟨s', ?_, ha'⟩
    rw [Run.exec, hs₁]
    exact hs'

/-- Without entered lines the arrows do nothing. -/
theorem exec_no_lines (hcount : ¬h.historyCount > 0) (hcur : s.currentHistory = -1)
    (arrows : List Arrow) :
    Run.exec (pressKey h n) s (arrows.map Arrow.key) = .ok s := by
  induction arrows with
  | nil => rfl
  | cons a arrows ih =>
    cases a with
    | up =>
      rw [List.map_cons, Arrow.key, Run.exec, pressKey, if_neg hcount]
      exact ih
    | down =>
      rw [List.map_cons, Arrow.key, Run.exec, pressKey_down_prompt hcur]
      exact ih

theorem recalled_nil (e : Nat) : recalled [] [] e = [] := by
  cases e with
  | zero => rfl
  | succ e => rfl

theorem exec_recall (hi : HistoryInv lines h)
    (hb : lines ≠ [] → (text maxCommandLength buffer).length < maxCommandLength)
    (hr : .up ∈ arrows → depth historySize arrows ≠ 0) :
    ∃ s, Run.exec (pressKey h maxCommandLength) (freshLine buffer) (arrows.map Arrow.key) = .ok s ∧
      AtLine s (recalled lines [] (depth historySize arrows)) := by
  by_cases hne : lines = []
  · subst hne
    have hcount : ¬h.historyCount > 0 := by
      rw [hi.count]
      decide
    rw [recalled_nil]
    exact ⟨_, exec_no_lines hcount rfl arrows, atLine_fresh buffer⟩
  have hbrowse : Browses lines (text maxCommandLength buffer) 0 (freshLine buffer) :=
    ⟨Nat.zero_le _, rfl, holdsLine_text (hb hne), fun hne => absurd rfl hne⟩
  obtain ⟨s, he, hs, hmoved⟩ := exec_arrows (n := maxCommandLength) hi hne hbrowse arrows
  refine ⟨s, he, ?_⟩
  by_cases hup : Arrow.up ∈ arrows
  · rw [if_pos hup] at hmoved
    have htext := hs.text
    have hsame : recalled lines (text maxCommandLength buffer) (depth historySize arrows) =
        recalled lines [] (depth historySize arrows) := recalled_succ (hr hup)
    rw [hsame] at htext hmoved
    exact htext.atLine hmoved
  · rw [if_neg hup] at hmoved
    rw [hmoved, depth_eq_zero hup]
    exact atLine_fresh buffer

theorem arrow_plain (a : Arrow) : a.key.Plain := by
  cases a <;> trivial

theorem Entry.plain (e : Entry) : ∀ k ∈ e.allKeys, Key.Plain k := by
  intro k hk
  rcases List.mem_append.1 hk with hk | hk
  · obtain ⟨a, _, rfl⟩ := List.mem_map.1 hk
    exact arrow_plain a
  · exact plain_of_drafts (e.drafts k hk)

theorem Entry.exec (e : Entry) (hi : HistoryInv lines h)
    (hb : lines ≠ [] → (text maxCommandLength buffer).length < maxCommandLength) :
    ∃ s, Run.exec (pressKey h maxCommandLength) (freshLine buffer) e.allKeys = .ok s ∧
      AtLine s (e.line lines) := by
  obtain ⟨s₁, he₁, ha₁⟩ := exec_recall hi hb e.recalls
  obtain ⟨s, he, ha⟩ := ha₁.exec (h := h) e.drafts
  refine ⟨s, ?_, ha⟩
  rw [Entry.allKeys, exec_append, he₁]
  exact he

theorem parseCommandFrom_le {k : Int} (hp : parseCommandFrom room input i = .ok (args, out))
    (hz : input k = 0) (hi : i ≤ k) : ∀ arg ∈ args, i ≤ arg ∧ arg ≤ k := by
  induction room generalizing input i args with
  | zero =>
    cases hp
    exact nofun
  | succ room ih =>
    obtain ⟨arg, harg, hp⟩ := bind_eq_ok.1 hp
    obtain ⟨harg₀, harg₁⟩ := scan_le (checked_eq_ok.1 harg) hz hi
    obtain ⟨c, _, hp⟩ := bind_eq_ok.1 hp
    split at hp
    · cases hp
      exact nofun
    obtain ⟨stop, hstop, hp⟩ := bind_eq_ok.1 hp
    obtain ⟨hstop₀, hstop₁⟩ := scan_le (checked_eq_ok.1 hstop) hz harg₁
    obtain ⟨c', hget, hp⟩ := bind_eq_ok.1 hp
    obtain ⟨_, rfl⟩ := get_eq_some.1 (checked_eq_ok.1 hget)
    split at hp
    · cases hp
      exact List.forall_mem_singleton.2 ⟨harg₀, harg₁⟩
    next hne =>
    have hlt : stop ≠ k := by
      rintro rfl
      exact hne hz
    obtain ⟨input', hset, hp⟩ := bind_eq_ok.1 hp
    obtain ⟨_, rfl⟩ := set_eq_some.1 (checked_eq_ok.1 hset)
    obtain ⟨⟨args', out'⟩, hrec, hp⟩ := bind_eq_ok.1 hp
    cases hp
    have hz' : Function.update input stop 0 k = 0 := by
      rw [Function.update_of_ne (Ne.symm hlt)]
      exact hz
    refine List.forall_mem_cons.2 ⟨⟨harg₀, harg₁⟩, fun a ha => ?_⟩
    have hbound := ih hrec hz' (by omega) a ha
    omega

theorem ofBytes_eq {w : List UInt8} (hw : 0 ∉ w) : (CStr.ofBytes w).bytes = w := by
  apply List.takeWhile_eq_self_iff.2
  intro b hb
  rw [bne_iff_ne]
  rintro rfl
  exact hw hb

theorem argStrings_eq {k : Nat} (hw : List.Forall₂ (Holds out) args ws)
    (hargs : ∀ arg ∈ args, 0 ≤ arg ∧ arg ≤ k) (hz : out k = 0) (hk : k < maxCommandLength) :
    argStrings out args = .ok (ws.map CStr.ofBytes) := by
  induction hw with
  | nil => rfl
  | @cons arg w args ws hfirst _ ih =>
    obtain ⟨⟨hlow, hhigh⟩, hrest⟩ := List.forall_mem_cons.1 hargs
    have hends := hfirst.ends_before hz hhigh
    have hbytes := ofBytes_eq hfirst.no_nul
    have htoken : TokenAt maxCommandLength out arg (CStr.ofBytes w) :=
      ⟨hlow, by rw [hbytes]; omega, by rw [hbytes]; exact hfirst⟩
    have hmore := ih hrest
    rw [argStrings] at hmore ⊢
    rw [List.mapM_cons, htoken.stringAt, hmore]
    rfl

end

section
variable {s : Shell} {lines : List (List UInt8)}

theorem readArguments_words {t : EditLine}
    (hgets : consoleGetsWithHistory s.history s.inputBuffer maxCommandLength line =
      .ok (some (h, t))) (hl : HoldsLine t.buffer d) :
    ∃ b, readArguments s line = .ok (lineArguments d, { s with history := h, inputBuffer := b }) ∧
      (text maxCommandLength b).length < maxCommandLength := by
  obtain ⟨hroom, hholds⟩ := hl
  have hlen : CharArray.strlen maxCommandLength t.buffer = some (d.length : Int) :=
    strlen_eq hholds hroom
  have hnul : t.buffer d.length = 0 := by
    have hnul := hholds.nul
    rwa [Int.zero_add] at hnul
  rw [readArguments, hgets]
  by_cases hne : d = []
  · subst hne
    refine ⟨t.buffer, ?_, text_lt_iff.2 ⟨0, hroom, hnul⟩⟩
    have hz : CharArray.strlen maxCommandLength t.buffer = some 0 := hlen
    simp only [awaits, stops, Except.mapError, ok_bind, Option.elim, hz, checked]
    rfl
  · have hpos := List.length_pos_iff.2 hne
    obtain ⟨args, out, hparse, hwords, _⟩ : ∃ args out,
        parseCommandIn maxCommandLength maxArgs t.buffer 0 = .ok (args, out) ∧
        List.Forall₂ (Holds out) args ((words isBlank d).take maxArgs) ∧ CutsAt t.buffer out 0 d :=
      parseCommandIn_eq hholds (Int.le_refl 0) (by omega)
    rw [← parseCommandFrom_eq] at hparse
    have hout : out d.length = 0 := parseCommandFrom_nul hparse hnul
    have hargs := argStrings_eq hwords
      (parseCommandFrom_le hparse hnul (Int.natCast_nonneg _)) hout hroom
    refine ⟨out, ?_, text_lt_iff.2 ⟨d.length, hroom, hout⟩⟩
    have hne' : ¬(d.length : Int) = 0 := by omega
    simp only [awaits, stops, Except.mapError, ok_bind, Option.elim, hlen, checked, if_neg hne',
      parseCommand, hparse, hargs]
    rfl

theorem readArguments_line (e : Entry) (hi : HistoryInv lines s.history)
    (hb : lines ≠ [] → (text maxCommandLength s.inputBuffer).length < maxCommandLength)
    (hroom : s.history.historyCount < intMax) :
    ∃ h b, readArguments s e.typing.line = .ok (lineArguments (e.line lines),
        { s with history := h, inputBuffer := b }) ∧
      HistoryInv (keepLine (e.line lines) lines) h ∧
      (text maxCommandLength b).length < maxCommandLength := by
  obtain ⟨t, hexec, ha⟩ := e.exec hi hb
  generalize e.line lines = d at ha ⊢
  obtain ⟨h, t', henter, htext⟩ := enterLine_line hi hroom ha.pos
    (by rw [EditLine.line, ha.pos]; exact ha.line) ha.no_nul ha.room
  obtain ⟨hlt, _, hkept⟩ := enterLine_ok henter
  have hgets : consoleGetsWithHistory s.history s.inputBuffer maxCommandLength e.typing.line =
      .ok (some (h, t')) := by
    rw [consoleGetsWithHistory, Entry.typing, readKeys_bytes e.plain]
    dsimp only
    rw [hexec, ok_bind, if_pos rfl, henter]
    rfl
  have hholds : HoldsLine t'.buffer d := htext ▸ holdsLine_text hlt
  have hhist : HistoryInv (keepLine d lines) h := by
    rw [ha.pos] at hkept
    rw [keepLine]
    by_cases hne : d = []
    · rw [if_pos hne]
      rw [hne, if_neg (by decide)] at hkept
      exact hkept ▸ hi
    · have hpos := List.length_pos_iff.2 hne
      rw [if_pos (by omega), htext] at hkept
      obtain ⟨line, hl, rfl⟩ := hkept
      rw [if_neg hne]
      exact hi.push hl
  obtain ⟨b, hread, hb⟩ := readArguments_words hgets hholds
  exact ⟨h, b, hread, hhist, hb⟩

theorem keepLine_length (line : List UInt8) (lines : List (List UInt8)) :
    (keepLine line lines).length ≤ lines.length + 1 := by
  rw [keepLine]
  split
  · exact Nat.le_succ _
  · exact Nat.le_refl _

theorem Tracks.next {w : WordShell} (hr : Tracks t heap (n + 1) s w)
    (hi : HistoryInv (keepLine line w.lines) h)
    (hb : (text maxCommandLength b).length < maxCommandLength)
    (he : executeCommand heap w.fs input argv = .ok (out, fs)) :
    Tracks t heap n ⟨h, b, heap, fs⟩ ⟨keepLine line w.lines, fs⟩ := by
  obtain ⟨ops, hexec, _⟩ := executeCommand_performs he
  have hlen := keepLine_length line w.lines
  have hroom := hr.room
  exact ⟨hi, fun _ => hb, by dsimp only; omega, hr.reach.exec hexec, rfl, rfl⟩

theorem Tracks.call {w : WordShell} (hr : Tracks t heap (n + 1) s w) (e : Entry) :
    SameAnswer (Tracks t heap n) (shellCall s e.typing) (wordCall heap w e) := by
  have htable := inTable_reach hr.reach
  have hroom := hr.room
  have hprompt : shellPrompt s.fs = .ok (promptText w.fs.currentDir w.fs.currentPath.bytes) := by
    rw [hr.fs_eq]
    exact shellPrompt_eq htable.current
  obtain ⟨h, b, hread, hi, hb⟩ := readArguments_line e hr.history hr.buffer
    (by rw [hr.history.count]; omega)
  rw [shellCall, hprompt, ok_bind, hread, ok_bind, wordCall]
  dsimp only
  rw [hr.heap_eq, hr.fs_eq]
  by_cases hpos : (lineArguments (e.line w.lines)).length > 0
  · rw [if_pos hpos]
    have hcommand : e.typing.command = e.command := rfl
    rw [hcommand]
    cases hexec : executeCommand heap w.fs e.command (lineArguments (e.line w.lines)) with
    | error stop => exact .error
    | ok p => exact .ok (hr.next hi hb hexec)
  · rw [if_neg hpos]
    have hnil := List.eq_nil_of_length_eq_zero (Nat.eq_zero_of_not_pos hpos)
    have hexec : executeCommand heap w.fs e.command (lineArguments (e.line w.lines)) =
        .ok ([], w.fs) := by
      rw [hnil]
      rfl
    rw [hexec]
    exact .ok (hr.next hi hb hexec)

end

theorem boot_lockstep (t : Nat) (heap : Heap) (stack : Chars) (es : List Entry)
    (hlen : (es.length : Int) ≤ intMax) : SameAnswer (Tracks t heap 0)
      (answers shellCall (bootShell t heap stack) (es.map Entry.typing))
      (answers (wordCall heap) ⟨[], fsInit t⟩ es) := by
  have hboot : Tracks t heap es.length (bootShell t heap stack) ⟨[], fsInit t⟩ :=
    ⟨.empty, fun hne => absurd rfl hne, by rw [List.length_nil, Nat.zero_add]; exact hlen, .refl,
      rfl, rfl⟩
  exact answers_lockstep (R := Tracks t heap) (fun _ _ _ e hr => hr.call e) hboot

/-- The shell executes the words of the lines that are entered, typed or recalled from the lines
before: in every series of entries it prints the same and leaves the same file system as the
shell that is given the lines themselves, and it stops where that shell stops. -/
theorem shell_follows_words (t : Nat) (heap : Heap) (stack : Chars) (es : List Entry)
    (hlen : (es.length : Int) ≤ intMax) :
    (answers shellCall (bootShell t heap stack) (es.map Entry.typing)).map
        (fun p => (p.1, p.2.fs)) =
      (answers (wordCall heap) ⟨[], fsInit t⟩ es).map fun p => (p.1, p.2.fs) := by
  have hsame := boot_lockstep t heap stack es hlen
  exact hsame.map fun _ _ hr => hr.fs_eq

/-- The line `mkdir a`. -/
theorem shell_follows_words_mkdir :
    let e : Entry := ⟨[], (CStr.ofString "mkdir a").bytes.map .char, ⟨[], fun _ => 0, 0⟩,
      fun h => absurd h List.not_mem_nil,
      List.forall_mem_map.2 (show ∀ b ∈ (CStr.ofString "mkdir a").bytes, 32 ≤ b ∧ b ≤ 126 by
        decide +kernel)⟩
    (answers shellCall (bootShell 0 zeroHeap fun _ => 0) ([e].map Entry.typing)).map
        (fun p => (p.1, p.2.fs)) =
      (answers (wordCall zeroHeap) ⟨[], fsInit 0⟩ [e]).map fun p => (p.1, p.2.fs) :=
  shell_follows_words 0 zeroHeap (fun _ => 0) _ (by decide)

end ChipOS
