import ChipOS.Drivers.Echo
import ChipOS.Shell.Draft
import ChipOS.Shell.Prompt

namespace ChipOS
open CharArray Run Terminal
set_option autoImplicit true

/-- The loop that clears the line, and the line that is recalled. -/
def showRecalled (s s' : EditLine) : List UInt8 :=
  List.replicate s.pos.toNat 8 ++ text maxCommandLength s'.buffer

/-- What one iteration of the loop prints on its way from `s` to `s'`. -/
def editEcho (h : History) (maxLen : Int) (s s' : EditLine) : Key → List UInt8
  | .up => if h.historyCount > 0 then showRecalled s s' else []
  | .down => if s.currentHistory ≠ -1 then showRecalled s s' else []
  | .backspace => if s.pos > 0 then rubout else []
  | .char c => if s.pos < maxLen - 1 then [c] else []
  | .ignored => []

/-- One iteration of the loop and what it prints. -/
def echoedKey (h : History) (maxLen : Int) (s : EditLine) (k : Key) :
    Except Fault (List UInt8 × EditLine) := do
  let s' ← pressKey h maxLen s k
  return (editEcho h maxLen s s' k, s')

def Printable (c : UInt8) : Prop := 32 ≤ c ∧ c ≤ 126

/-- A key that is no control character of its own. -/
def Key.Legible : Key → Prop
  | .char c => Printable c
  | _ => True

/-- There are only printable characters and NULs in the array. -/
def Legible (a : Chars) : Prop := ∀ i : Int, 0 ≤ i → i < maxCommandLength → a i = 0 ∨ Printable (a i)

/-- What the shell keeps of the lines entered before is legible. -/
structure LegibleShell (s : Shell) : Prop where
  history : ∀ i : Int, 0 ≤ i → i < historySize → Legible (s.history.commandHistory i)
  buffer : Legible s.inputBuffer

/-- The row shows the line behind what stood there before the first key, which is `base`. -/
structure ShowsLine (base : List UInt8) (s : EditLine) (row : Row UInt8) : Prop where
  buffer : Legible s.buffer
  temp : Legible s.tempBuffer
  pos : 0 ≤ s.pos
  line : ∀ c ∈ s.line, Printable c
  shown : row.before = base ++ s.line

section
variable {a b : Chars} {s s' : EditLine} {h : History}

theorem not_printable_back : ¬Printable 8 := by
  rw [Printable]
  decide

theorem not_printable_nul : ¬Printable 0 := by
  rw [Printable]
  decide

theorem back_not_mem {l : List UInt8} (hl : ∀ c ∈ l, Printable c) : 8 ∉ l :=
  fun hm => not_printable_back (hl 8 hm)

theorem Legible.set (ha : Legible a) (hc : c = 0 ∨ Printable c)
    (he : CharArray.set maxCommandLength a i c = some b) : Legible b := by
  obtain ⟨_, rfl⟩ := set_eq_some.1 he
  intro x h₀ hx
  by_cases hxi : x = i
  · rw [hxi, Function.update_self]
    exact hc
  · rw [Function.update_of_ne hxi]
    exact ha x h₀ hx

theorem Legible.strcpyFrom (hdst : Legible dst) (ha : Legible a)
    (he : CharArray.strcpyFrom maxCommandLength maxCommandLength a room dst i j = some b) :
    Legible b := by
  induction room generalizing dst i j with
  | zero => cases he
  | succ room ih =>
    obtain ⟨c, hc, he⟩ := Option.bind_eq_some_iff.1 he
    obtain ⟨dst', hset, he⟩ := Option.bind_eq_some_iff.1 he
    obtain ⟨⟨hj, hlt⟩, rfl⟩ := get_eq_some.1 hc
    have hdst' := hdst.set (ha j hj hlt) hset
    split at he
    · cases he
      exact hdst'
    · exact ih hdst' he

theorem Legible.text (ha : Legible a) : ∀ c ∈ text maxCommandLength a, Printable c := by
  intro c hc
  have hne : c ≠ 0 := bne_iff_ne.1 (List.mem_takeWhile_imp (p := (· != (0 : UInt8))) hc)
  obtain ⟨k, hk, rfl⟩ := List.mem_map.1 ((List.takeWhile_subset _) hc)
  have hk := List.mem_range.1 hk
  exact (ha k (by omega) (by omega)).resolve_left hne

theorem Legible.parse (ha : Legible a) (hp : parseCommandFrom room a i = .ok (args, b)) :
    Legible b := by
  induction room generalizing a i args with
  | zero =>
    cases hp
    exact ha
  | succ room ih =>
    obtain ⟨arg, _, hp⟩ := bind_eq_ok.1 hp
    obtain ⟨c, _, hp⟩ := bind_eq_ok.1 hp
    split at hp
    · cases hp
      exact ha
    obtain ⟨stop, _, hp⟩ := bind_eq_ok.1 hp
    obtain ⟨c, _, hp⟩ := bind_eq_ok.1 hp
    split at hp
    · cases hp
      exact ha
    obtain ⟨a', hset, hp⟩ := bind_eq_ok.1 hp
    obtain ⟨⟨args', b'⟩, hrec, hp⟩ := bind_eq_ok.1 hp
    cases hp
    exact ih (ha.set (.inl rfl) (checked_eq_ok.1 hset)) hrec

theorem legible_slot (hh : ∀ i : Int, 0 ≤ i → i < historySize → Legible (h.commandHistory i))
    (he : h.line i = .ok a) : Legible a := by
  obtain ⟨⟨h₀, hi⟩, hslot⟩ := Option.ite_none_right_eq_some.1 (checked_eq_ok.1 he)
  cases hslot
  exact hh i h₀ hi

theorem load_legible (he : s.load a = .ok s') (hs : Legible s.buffer) (ha : Legible a) :
    Legible s'.buffer ∧ s'.tempBuffer = s.tempBuffer ∧ 0 ≤ s'.pos ∧
      s'.line = text maxCommandLength s'.buffer := by
  obtain ⟨buffer, hcopy, he⟩ := bind_eq_ok.1 he
  obtain ⟨pos, hlen, he⟩ := bind_eq_ok.1 he
  cases he
  obtain ⟨hholds, _, rfl⟩ := holds_of_strlen (checked_eq_ok.1 hlen)
  refine ⟨hs.strcpyFrom ha (checked_eq_ok.1 hcopy), rfl, Int.natCast_nonneg _, ?_⟩
  rw [EditLine.line, Int.toNat_natCast]
  exact hholds.bytes_eq

theorem stepBack_legible (hs : Legible s.buffer) (ht : Legible s.tempBuffer)
    (he : s.stepBack h = .ok s') :
    s'.buffer = s.buffer ∧ s'.pos = s.pos ∧ Legible s'.tempBuffer := by
  rw [EditLine.stepBack] at he
  split at he
  · obtain ⟨temp, hcopy, he⟩ := bind_eq_ok.1 he
    cases he
    exact ⟨rfl, rfl, ht.strcpyFrom hs (checked_eq_ok.1 hcopy)⟩
  · split at he
    · cases he
      exact ⟨rfl, rfl, ht⟩
    · cases he
      exact ⟨rfl, rfl, ht⟩

theorem ShowsLine.recalled (hs : ShowsLine base s row) (hb : Legible s'.buffer)
    (ht : Legible s'.tempBuffer) (hp : 0 ≤ s'.pos)
    (hline : s'.line = text maxCommandLength s'.buffer) :
    ShowsLine base s' (row.print 8 (showRecalled s s')) := by
  have htext := hb.text
  have hlen : s.line.length = s.pos.toNat := bytes_length
  refine ⟨hb, ht, hp, hline ▸ htext, ?_⟩
  rw [showRecalled, ← hlen, print_append, before_text (back_not_mem htext), before_backs hs.shown, hline]

theorem line_backspace (hpos : 0 < s.pos) :
    EditLine.line { s with pos := s.pos - 1 } = s.line.dropLast := by
  have hidx : (s.pos - 1).toNat = s.pos.toNat - 1 := by omega
  rw [EditLine.line, EditLine.line, bytes_dropLast, hidx]

theorem line_char (hpos : 0 ≤ s.pos) :
    EditLine.line { s with buffer := Function.update s.buffer s.pos c, pos := s.pos + 1 } =
      s.line ++ [c] := by
  obtain ⟨p, hp⟩ := Int.eq_ofNat_of_zero_le hpos
  simp only [EditLine.line, hp]
  exact bytes_update

theorem ShowsLine.key (hs : ShowsLine base s row)
    (hh : ∀ i : Int, 0 ≤ i → i < historySize → Legible (h.commandHistory i)) (hk : k.Legible)
    (he : pressKey h n s k = .ok s') : ShowsLine base s' (row.print 8 (editEcho h n s s' k)) := by
  cases k with
  | up =>
    rw [pressKey] at he
    rw [editEcho]
    split at he
    · next hcount =>
      obtain ⟨s₁, hback, he⟩ := bind_eq_ok.1 he
      obtain ⟨src, hsrc, he⟩ := bind_eq_ok.1 he
      obtain ⟨hbuf, _, htemp⟩ := stepBack_legible hs.buffer hs.temp hback
      obtain ⟨hb, ht, hp, hline⟩ := load_legible he (hbuf ▸ hs.buffer) (legible_slot hh hsrc)
      rw [if_pos hcount]
      exact hs.recalled hb (ht ▸ htemp) hp hline
    · next hcount =>
      cases he
      rw [if_neg hcount]
      exact hs
  | down =>
    rw [pressKey] at he
    rw [editEcho]
    split at he
    · next hcur =>
      rw [if_pos hcur]
      dsimp only at he
      split at he
      · obtain ⟨s₁, hload, he⟩ := bind_eq_ok.1 he
        obtain ⟨hb, ht, hp, hline⟩ := load_legible hload hs.buffer hs.temp
        cases he
        exact hs.recalled hb (ht ▸ hs.temp) hp hline
      · obtain ⟨src, hsrc, he⟩ := bind_eq_ok.1 he
        obtain ⟨hb, ht, hp, hline⟩ := load_legible he hs.buffer (legible_slot hh hsrc)
        exact hs.recalled hb (ht ▸ hs.temp) hp hline
    · next hcur =>
      cases he
      rw [if_neg hcur]
      exact hs
  | backspace =>
    cases he
    rw [editEcho]
    split
    · next hpos =>
      have hne : s.line ≠ [] := by
        apply List.ne_nil_of_length_pos
        rw [EditLine.line, bytes_length]
        omega
      have hline : EditLine.line { s with pos := s.pos - 1 } = s.line.dropLast := line_backspace hpos
      refine ⟨hs.buffer, hs.temp, by dsimp only; omega, ?_, ?_⟩
      · rw [hline]
        exact fun c hc => hs.line c ((List.dropLast_sublist _).mem hc)
      · rw [rubout, before_rubout (by decide), hs.shown, List.dropLast_append_of_ne_nil hne, hline]
    · exact hs
  | char c =>
    rw [pressKey] at he
    rw [editEcho]
    split at he
    · next hlt =>
      obtain ⟨buffer, hset, he⟩ := bind_eq_ok.1 he
      cases he
      have hleg := hs.buffer.set (.inr hk) (checked_eq_ok.1 hset)
      obtain ⟨_, rfl⟩ := set_eq_some.1 (checked_eq_ok.1 hset)
      have hback : c ≠ 8 := by
        rintro rfl
        exact not_printable_back hk
      have hline := line_char (c := c) hs.pos
      have hpos := hs.pos
      refine ⟨hleg, hs.temp, by dsimp only; omega, ?_, ?_⟩
      · rw [hline]
        exact List.forall_mem_append.2 ⟨hs.line, List.forall_mem_singleton.2 hk⟩
      · have hprint : row.print 8 [c] = row.put 8 c := rfl
        rw [if_pos hlt, hprint, before_char hback, hs.shown, hline, List.append_assoc]
    · next hlt =>
      cases he
      rw [if_neg hlt]
      exact hs
  | ignored =>
    cases he
    exact hs

theorem ShowsLine.exec (hs : ShowsLine base s row)
    (hh : ∀ i : Int, 0 ≤ i → i < historySize → Legible (h.commandHistory i))
    (hk : ∀ k ∈ keys, Key.Legible k) (he : answers (echoedKey h n) s keys = .ok (outs, s')) :
    ShowsLine base s' (row.print 8 outs.flatten) := by
  induction keys generalizing s row outs with
  | nil =>
    cases he
    exact hs
  | cons k keys ih =>
    obtain ⟨hkey, hrest⟩ := List.forall_mem_cons.1 hk
    obtain ⟨⟨out, s₁⟩, hcall, he⟩ := bind_eq_ok.1 he
    obtain ⟨⟨outs', s₂⟩, hmore, he⟩ := bind_eq_ok.1 he
    cases he
    obtain ⟨t, hpress, hcall⟩ := bind_eq_ok.1 hcall
    cases hcall
    rw [List.flatten_cons, print_append]
    exact ih (hs.key hh hkey hpress) hrest hmore

theorem ShowsLine.blank (hs : ShowsLine base s row) (hk : Drafts k) (hb : row.Blank 32) :
    (row.print 8 (editEcho h n s s' k)).Blank 32 := by
  cases k with
  | char c =>
    rw [editEcho]
    split
    · apply hb.char
      rintro rfl
      exact absurd hk.1 (by decide)
    · exact hb
  | backspace =>
    rw [editEcho]
    split
    · have hcursor : 0 < row.cursor := by
        rw [← before_length, hs.shown, List.length_append, EditLine.line, bytes_length]
        omega
      exact hb.rubout (by decide) hcursor
    · exact hb
  | up => exact hk.elim
  | down => exact hk.elim
  | ignored => exact hk.elim

theorem legible_of_drafts (hk : Drafts k) : k.Legible := by
  cases k with
  | char c => exact hk
  | backspace => trivial
  | up => trivial
  | down => trivial
  | ignored => trivial

theorem ShowsLine.blank_exec (hs : ShowsLine base s row)
    (hh : ∀ i : Int, 0 ≤ i → i < historySize → Legible (h.commandHistory i))
    (hk : ∀ k ∈ keys, Drafts k) (he : answers (echoedKey h n) s keys = .ok (outs, s'))
    (hb : row.Blank 32) : (row.print 8 outs.flatten).Blank 32 := by
  induction keys generalizing s row outs with
  | nil =>
    cases he
    exact hb
  | cons k keys ih =>
    obtain ⟨hkey, hrest⟩ := List.forall_mem_cons.1 hk
    obtain ⟨⟨out, s₁⟩, hcall, he⟩ := bind_eq_ok.1 he
    obtain ⟨⟨outs', s₂⟩, hmore, he⟩ := bind_eq_ok.1 he
    cases he
    obtain ⟨t, hpress, hcall⟩ := bind_eq_ok.1 hcall
    cases hcall
    rw [List.flatten_cons, print_append]
    exact ih (hs.key hh (legible_of_drafts hkey) hpress) hrest hmore (hs.blank hkey hb)

theorem echoedKey_map : (echoedKey h n s k).map Prod.snd = pressKey h n s k := by
  rw [echoedKey]
  cases pressKey h n s k with
  | error e => rfl
  | ok s' => rfl

theorem shows_fresh (ha : Legible a) (row : Row UInt8) : ShowsLine row.before (freshLine a) row :=
  ⟨ha, fun _ _ _ => .inl rfl, Int.le_refl 0, fun _ hc => absurd hc List.not_mem_nil,
    (List.append_nil _).symm⟩

theorem ShowsLine.enter (hs : ShowsLine base s row)
    (hh : ∀ i : Int, 0 ≤ i → i < historySize → Legible (h.commandHistory i))
    (he : enterLine h s = .ok (h', s')) :
    (∀ i : Int, 0 ≤ i → i < historySize → Legible (h'.commandHistory i)) ∧ Legible s'.buffer ∧
      text maxCommandLength s'.buffer = s.line := by
  obtain ⟨buffer, hset, he⟩ := bind_eq_ok.1 he
  have hset := checked_eq_ok.1 hset
  have hbuf := hs.buffer.set (.inl rfl) hset
  have htext : text maxCommandLength buffer = s.line := by
    obtain ⟨⟨_, hlt⟩, rfl⟩ := set_eq_some.1 hset
    obtain ⟨p, hp⟩ := Int.eq_ofNat_of_zero_le hs.pos
    have hlen : s.line.length = p := by
      rw [EditLine.line, bytes_length, hp, Int.toNat_natCast]
    have hline : bytes s.buffer s.line.length = s.line := by
      rw [hlen, EditLine.line, hp, Int.toNat_natCast]
    rw [hp, ← hlen] at hlt ⊢
    apply text_eq (holds_of_bytes _ (fun hm => not_printable_nul (hs.line 0 hm)) _) (by omega)
    · rw [bytes_congr fun x hx => Function.update_of_ne (by omega) _ _]
      exact hline
    · exact Function.update_self _ _ _
  split at he
  · obtain ⟨old, hold, he⟩ := bind_eq_ok.1 he
    obtain ⟨line, hcopy, he⟩ := bind_eq_ok.1 he
    split at he
    · cases he
      refine ⟨fun i h₀ hi => ?_, hbuf, htext⟩
      dsimp only
      by_cases heq : i = h.historyCount.tmod historySize
      · rw [heq, Function.update_self]
        exact (legible_slot hh hold).strcpyFrom hbuf (checked_eq_ok.1 hcopy)
      · rw [Function.update_of_ne heq]
        exact hh i h₀ hi
    · cases he
  · cases he
    exact ⟨hh, hbuf, htext⟩

end

section
variable {s s' : Shell}

theorem legible_boot {stack : Chars} (hstack : Legible stack) : LegibleShell (bootShell t heap stack) :=
  ⟨fun _ _ _ _ _ _ => .inl rfl, hstack⟩

theorem LegibleShell.read (hs : LegibleShell s) (hk : ∀ k ∈ (readKeys line).1, Key.Legible k)
    (he : readArguments s line = .ok (argv, s')) : LegibleShell s' := by
  obtain ⟨⟨history, edit⟩, hgets, he⟩ := bind_eq_ok.1 he
  obtain ⟨len, _, he⟩ := bind_eq_ok.1 he
  obtain ⟨o, hgets, ho⟩ := bind_eq_ok.1 hgets
  cases o with
  | none => cases ho
  | some p =>
    cases ho
    obtain ⟨s₁, hexec, henter⟩ := consoleGets_ok (stops_eq_ok.1 hgets)
    have hmap : (fun edit k => (echoedKey s.history maxCommandLength edit k).map Prod.snd) =
        pressKey s.history maxCommandLength := by
      funext edit k
      exact echoedKey_map
    rw [← hmap] at hexec
    obtain ⟨outs, houts⟩ := exec_answers hexec
    have hshown := (shows_fresh hs.buffer ⟨fun _ => 32, 0⟩).exec hs.history hk houts
    obtain ⟨hh, hbuf, _⟩ := hshown.enter hs.history henter
    dsimp only at he
    split at he
    · cases he
      exact ⟨hh, hbuf⟩
    · obtain ⟨⟨args, inputBuffer⟩, hparse, he⟩ := bind_eq_ok.1 he
      obtain ⟨argv', _, he⟩ := bind_eq_ok.1 he
      cases he
      exact ⟨hh, hbuf.parse (stops_eq_ok.1 hparse)⟩

theorem LegibleShell.step (hs : LegibleShell s) (hk : ∀ k ∈ (readKeys t.line).1, Key.Legible k)
    (he : shellStep s t = .ok s') : LegibleShell s' := by
  obtain ⟨out, hcall⟩ := shellStep_eq_ok he
  obtain ⟨_, argv, s₁, _, _, hread, _, _, hs'⟩ := shellCall_cases hcall
  have h₁ := hs.read hk hread
  rw [hs']
  exact ⟨h₁.history, h₁.buffer⟩

theorem LegibleShell.exec (hs : LegibleShell s)
    (hk : ∀ t ∈ ts, ∀ k ∈ (readKeys (Typing.line t)).1, Key.Legible k)
    (he : Run.exec shellStep s ts = .ok s') : LegibleShell s' := by
  induction ts generalizing s with
  | nil =>
    cases he
    exact hs
  | cons t ts ih =>
    obtain ⟨hfirst, hrest⟩ := List.forall_mem_cons.1 hk
    obtain ⟨s₁, hstep, he⟩ := bind_eq_ok.1 he
    exact ih (hs.step hfirst hstep) hrest he

end

/-- At every prompt, while printable characters are typed and erased and lines are recalled, the row
of the terminal shows the edited line behind the prompt, up to the cursor. As long as no line is
recalled, nothing stands behind the cursor. `Enter` enters the line that is shown. -/
theorem edit_line_shown (t : Nat) (heap : Heap) (hstack : Legible stack)
    (hts : ∀ y ∈ ts, ∀ k ∈ (readKeys (Typing.line y)).1, Key.Legible k)
    (hs : Run.exec shellStep (bootShell t heap stack) ts = .ok s)
    (hk : ∀ k ∈ keys, Key.Legible k)
    (he : answers (echoedKey s.history maxCommandLength) (freshLine s.inputBuffer) keys =
      .ok (outs, edit)) (row : Row UInt8) :
    (row.print 8 outs.flatten).before = row.before ++ edit.line ∧
      ((∀ k ∈ keys, Drafts k) → row.Blank 32 → (row.print 8 outs.flatten).Blank 32) ∧
      ∀ h' edit', enterLine s.history edit = .ok (h', edit') →
        text maxCommandLength edit'.buffer = edit.line := by
  have hleg := (legible_boot hstack).exec hts hs
  have hfresh := shows_fresh hleg.buffer row
  have hshown := hfresh.exec hleg.history hk he
  exact ⟨hshown.shown, fun hd hb => hfresh.blank_exec hleg.history hd he hb,
    fun h' edit' henter => (hshown.enter hleg.history henter).2.2⟩

/-- The line `A` recalled at the second prompt, and `B` typed behind it. -/
theorem edit_line_shown_recalled : ∃ s outs edit,
    Run.exec shellStep (bootShell 0 zeroHeap fun _ => 0) [⟨[65, 10], ⟨[], fun _ => 0, 0⟩⟩] = .ok s ∧
    answers (echoedKey s.history maxCommandLength) (freshLine s.inputBuffer) [.up, .char 66] =
      .ok (outs, edit) ∧
    ∀ row : Row UInt8, (row.print 8 outs.flatten).before = row.before ++ [65, 66] := by
  obtain ⟨typing, htyping⟩ : ∃ typing : Typing, typing = ⟨[65, 10], ⟨[], fun _ => 0, 0⟩⟩ := ⟨_, rfl⟩
  have hend : (do
      let s ← Run.exec shellStep (bootShell 0 zeroHeap fun _ => 0) [typing]
      let r ← stops (answers (echoedKey s.history maxCommandLength) (freshLine s.inputBuffer)
        [.up, .char 66])
      return r.2.line : Except Stop (List UInt8)).toOption = some [65, 66] := by
    rw [htyping]
    decide +kernel
  have hkeys : (readKeys typing.line).1 = [.char 65] := by
    rw [htyping]
    decide
  have hts : ∀ y ∈ [typing], ∀ k ∈ (readKeys (Typing.line y)).1, Key.Legible k := by
    rw [List.forall_mem_singleton, hkeys, List.forall_mem_singleton]
    exact ⟨by decide, by decide⟩
  have hk : ∀ k ∈ [Key.up, .char 66], Key.Legible k :=
    List.forall_mem_cons.2 ⟨trivial, List.forall_mem_singleton.2 ⟨by decide, by decide⟩⟩
  rw [← htyping]
  cases hs : Run.exec shellStep (bootShell 0 zeroHeap fun _ => 0) [typing] with
  | error e =>
    rw [hs] at hend
    cases hend
  | ok s =>
    rw [hs] at hend
    cases he : answers (echoedKey s.history maxCommandLength) (freshLine s.inputBuffer)
        [.up, .char 66] with
    | error e =>
      rw [ok_bind, he] at hend
      cases hend
    | ok r =>
      rw [ok_bind, he] at hend
      have hline : r.2.line = [65, 66] := Option.some.inj hend
      refine ⟨s, r.1, r.2, rfl, he, fun row => ?_⟩
      rw [← hline]
      exact (edit_line_shown 0 zeroHeap (fun _ _ _ => .inl rfl) hts hs hk he row).1

end ChipOS
