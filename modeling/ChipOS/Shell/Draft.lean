import ChipOS.Shell.Recall

namespace ChipOS
open CharArray Run
set_option autoImplicit true

def Drafts : Key → Prop
  | .char c => 32 ≤ c ∧ c ≤ 126
  | .backspace => True
  | _ => False

/-- The line after one more key, as the user sees it. -/
def draftKey (d : List UInt8) : Key → List UInt8
  | .char c => if d.length < maxCommandLength - 1 then d ++ [c] else d
  | .backspace => d.dropLast
  | _ => d

def draft (ks : List Key) : List UInt8 := ks.foldl draftKey []

/-- The keys lead from a fresh prompt to the edit line `d`, and `Enter` then returns it. -/
def Restores (h : History) (buffer : Chars) (keys : List Key) (d : List UInt8) : Prop :=
  ∃ s, exec (pressKey h maxCommandLength) (freshLine buffer) keys = .ok s ∧ s.line = d ∧
    (h.historyCount < intMax → ∃ h' s',
      consoleGetsWithHistory h buffer maxCommandLength
        (keys.flatMap Key.bytes ++ ['\n'.toUInt8]) = .ok (some (h', s')) ∧
      text maxCommandLength s'.buffer = d)

/-- The locals after keys that only type a draft. The draft has had `m` characters at most; what
stands behind it are characters of the longer draft, and then the old contents. -/
structure Typed (buffer : Chars) (ks : List Key) (m : Nat) (s : EditLine) : Prop where
  pos : s.pos = (draft ks).length
  current : s.currentHistory = -1
  line : bytes s.buffer (draft ks).length = draft ks
  room : m < maxCommandLength
  le : (draft ks).length ≤ m
  stale : ∀ x : Nat, (draft ks).length ≤ x → x < m → s.buffer x ≠ 0
  rest : ∀ x : Nat, m ≤ x → s.buffer x = buffer x
  longest : ∀ bs, bs <+: ks → (draft bs).length ≤ m
  reached : ∃ bs, bs <+: ks ∧ (draft bs).length = m

section
variable {s : EditLine} {h : History}

theorem draftKey_char :
    draftKey d (.char c) = if d.length < maxCommandLength - 1 then d ++ [c] else d := rfl

theorem draft_concat : draft (ks ++ [k]) = draftKey (draft ks) k := by
  rw [draft, List.foldl_append]
  rfl

theorem draft_no_nul (ht : ∀ k ∈ ks, Drafts k) : 0 ∉ draft ks := by
  induction ks using List.reverseRecOn with
  | nil => exact List.not_mem_nil
  | append_singleton ks k ih =>
    obtain ⟨ht, hk⟩ := List.forall_mem_append.1 ht
    have hk := hk k List.mem_cons_self
    have ih := ih ht
    rw [draft_concat]
    cases k with
    | char c =>
      rw [draftKey_char]
      split
      · intro hm
        rcases List.mem_append.1 hm with hm | hm
        · exact ih hm
        · cases List.mem_singleton.1 hm
          exact absurd hk.1 (by decide)
      · exact ih
    | backspace => exact fun hm => ih ((List.dropLast_sublist _).mem hm)
    | up => exact hk.elim
    | down => exact hk.elim
    | ignored => exact hk.elim

theorem Typed.start (buffer : Chars) : Typed buffer [] 0 (freshLine buffer) where
  pos := rfl
  current := rfl
  line := rfl
  room := by decide
  le := Nat.le_refl 0
  stale := fun _ _ hx => absurd hx (Nat.not_lt_zero _)
  rest := fun _ _ => rfl
  longest := fun bs hp => by rw [List.prefix_nil.1 hp]; exact Nat.le_refl 0
  reached := ⟨[], List.prefix_refl _, rfl⟩

theorem Typed.same (hs : Typed buffer ks m s) (hd : draft (ks ++ [k]) = draft ks) :
    Typed buffer (ks ++ [k]) m s where
  pos := hd ▸ hs.pos
  current := hs.current
  line := hd ▸ hs.line
  room := hs.room
  le := hd ▸ hs.le
  stale := hd ▸ hs.stale
  rest := hs.rest
  longest := by
    intro bs hp
    rcases List.prefix_concat_iff.1 hp with rfl | hp
    · exact hd ▸ hs.le
    · exact hs.longest bs hp
  reached := by
    obtain ⟨bs, hp, hm⟩ := hs.reached
    exact ⟨bs, hp.trans (List.prefix_append _ _), hm⟩

theorem Typed.char (hs : Typed buffer ks m s)
    (hlt : (draft ks).length < maxCommandLength - 1) :
    Typed buffer (ks ++ [.char c]) (max m ((draft ks).length + 1))
      { s with buffer := Function.update s.buffer s.pos c, pos := s.pos + 1 } := by
  have hd : draft (ks ++ [.char c]) = draft ks ++ [c] := by
    rw [draft_concat, draftKey_char, if_pos hlt]
  have hlen : (draft (ks ++ [.char c])).length = (draft ks).length + 1 := by
    rw [hd, List.length_append, List.length_singleton]
  have hroom := hs.room
  have hle := hs.le
  have hsize : maxCommandLength = 256 := rfl
  refine ⟨?_, hs.current, ?_, by omega, by omega, ?_, ?_, ?_, ?_⟩
  · rw [hlen, hs.pos]
    rfl
  · rw [hlen, hs.pos, bytes_update, hs.line, hd]
  · intro x hx hx'
    dsimp only
    rw [hs.pos, Function.update_of_ne (by omega)]
    exact hs.stale x (by omega) (by omega)
  · intro x hx
    dsimp only
    rw [hs.pos, Function.update_of_ne (by omega)]
    exact hs.rest x (by omega)
  · intro bs hp
    rcases List.prefix_concat_iff.1 hp with rfl | hp
    · omega
    · have := hs.longest bs hp
      omega
  · by_cases hm : m ≤ (draft ks).length
    · exact ⟨_, List.prefix_refl _, by omega⟩
    · obtain ⟨bs, hp, hb⟩ := hs.reached
      exact ⟨bs, hp.trans (List.prefix_append _ _), by omega⟩

theorem Typed.backspace (hs : Typed buffer ks m s) (ht : 0 ∉ draft ks)
    (hpos : 0 < (draft ks).length) :
    Typed buffer (ks ++ [.backspace]) m { s with pos := s.pos - 1 } := by
  have hd : draft (ks ++ [.backspace]) = (draft ks).dropLast := draft_concat
  have hlen : (draft (ks ++ [.backspace])).length + 1 = (draft ks).length := by
    rw [hd, List.length_dropLast]
    omega
  have hle := hs.le
  have hget : ∀ x : Nat, x < (draft ks).length → some (s.buffer x) = (draft ks)[x]? := by
    intro x hx
    rw [← hs.line, bytes_getElem? hx]
  refine ⟨?_, hs.current, ?_, hs.room, by omega, ?_, hs.rest, ?_, ?_⟩
  · dsimp only
    rw [hs.pos]
    omega
  · rw [hd, List.dropLast_eq_take, ← hs.line, bytes_length, bytes_take (by omega), bytes_length]
  · intro x hx hx'
    rcases Nat.lt_or_eq_of_le hx with hlt | rfl
    · exact hs.stale x (by omega) hx'
    · intro hz
      have hx := hget _ (Nat.lt_of_succ_le (Nat.le_of_eq hlen))
      rw [hz] at hx
      exact ht (List.mem_of_getElem? hx.symm)
  · intro bs hp
    rcases List.prefix_concat_iff.1 hp with rfl | hp
    · omega
    · exact hs.longest bs hp
  · obtain ⟨bs, hp, hb⟩ := hs.reached
    exact ⟨bs, hp.trans (List.prefix_append _ _), hb⟩

theorem exec_typed (ht : ∀ k ∈ ks, Drafts k) :
    ∃ s m, exec (pressKey h maxCommandLength) (freshLine buffer) ks = .ok s ∧
      Typed buffer ks m s := by
  induction ks using List.reverseRecOn with
  | nil => exact ⟨_, 0, rfl, .start buffer⟩
  | append_singleton ks k ih =>
    obtain ⟨hbefore, hk⟩ := List.forall_mem_append.1 ht
    have hk := hk k List.mem_cons_self
    obtain ⟨s, m, he, hs⟩ := ih hbefore
    have hpos := hs.pos
    have hlast : ∀ s', pressKey h maxCommandLength s k = .ok s' →
        exec (pressKey h maxCommandLength) (freshLine buffer) (ks ++ [k]) = .ok s' := by
      intro s' hp
      rw [exec_append, he, ok_bind, exec, hp]
      rfl
    have hsize : maxCommandLength = 256 := rfl
    cases k with
    | char c =>
      by_cases hlt : (draft ks).length < maxCommandLength - 1
      · refine ⟨_, _, hlast _ ?_, hs.char hlt⟩
        rw [pressKey, if_pos (by omega), set_eq (by omega) (by omega)]
        rfl
      · refine ⟨s, m, hlast s ?_, hs.same ?_⟩
        · rw [pressKey, if_neg (by omega)]
          rfl
        · rw [draft_concat, draftKey_char, if_neg hlt]
    | backspace =>
      by_cases hpos' : 0 < (draft ks).length
      · refine ⟨_, _, hlast _ ?_, hs.backspace (draft_no_nul hbefore) hpos'⟩
        rw [pressKey, if_pos (by omega)]
      · refine ⟨s, m, hlast s ?_, hs.same ?_⟩
        · rw [pressKey, if_neg (by omega)]
        · rw [draft_concat, List.eq_nil_of_length_eq_zero (Nat.eq_zero_of_not_pos hpos')]
          rfl
    | up => exact hk.elim
    | down => exact hk.elim
    | ignored => exact hk.elim

/-- A NUL stands behind the draft exactly if the line was never longer and one stood there
before. -/
theorem Typed.nul_iff (hs : Typed buffer ks m s) :
    s.buffer (draft ks).length = 0 ↔
      (∀ bs, bs <+: ks → (draft bs).length ≤ (draft ks).length) ∧
        buffer (draft ks).length = 0 := by
  constructor
  · intro hz
    have hm : m = (draft ks).length := by
      apply Nat.le_antisymm _ hs.le
      apply Nat.le_of_not_lt
      intro hlt
      exact hs.stale _ (Nat.le_refl _) hlt hz
    rw [← hs.rest _ (Nat.le_of_eq hm)]
    exact ⟨fun bs hp => hm ▸ hs.longest bs hp, hz⟩
  · rintro ⟨hlongest, hz⟩
    obtain ⟨bs, hp, hm⟩ := hs.reached
    rw [hs.rest _ (hm ▸ hlongest bs hp)]
    exact hz

theorem Typed.text_iff (hs : Typed buffer ks m s) (ht : ∀ k ∈ ks, Drafts k) :
    text maxCommandLength s.buffer = draft ks ↔ s.buffer (draft ks).length = 0 :=
  text_eq_bytes_iff hs.line (draft_no_nul ht) (Nat.lt_of_le_of_lt hs.le hs.room)

theorem enterLine_line (hi : HistoryInv lines h) (hroom : h.historyCount < intMax)
    (hp : s.pos = d.length) (hl : s.line = d) (hd : 0 ∉ d) (hlt : d.length < maxCommandLength) :
    ∃ h' s', enterLine h s = .ok (h', s') ∧ text maxCommandLength s'.buffer = d := by
  have hm : 0 < historySize := by decide
  rw [EditLine.line, hp, Int.toNat_natCast] at hl
  have hholds : Holds (Function.update s.buffer d.length 0) 0 d := by
    apply holds_of_bytes _ hd (Function.update_self _ _ _)
    rw [bytes_congr fun x hx => Function.update_of_ne (by omega) _ _]
    exact hl
  have htext := text_eq hholds hlt
  rw [enterLine, hp, set_eq (by omega) (by omega)]
  simp only [checked, ok_bind]
  by_cases hpos : (d.length : Int) > 0
  · have hline : h.line (h.historyCount.tmod historySize) =
        .ok (h.commandHistory (h.historyCount.tmod historySize)) := by
      rw [hi.count, Ring.back_zero, History.line,
        if_pos ⟨Ring.back_nonneg hm, Ring.back_lt hm⟩]
      rfl
    obtain ⟨out, hcopy, _⟩ := HoldsLine.copy ⟨hlt, hholds⟩
      (h.commandHistory (h.historyCount.tmod historySize))
    rw [if_pos hpos, hline, ok_bind, hcopy]
    dsimp only
    rw [ok_bind, if_pos hroom]
    exact ⟨_, _, rfl, htext⟩
  · rw [if_neg hpos]
    exact ⟨_, _, rfl, htext⟩

theorem depth_up_down (hd : min ups cap ≤ downs) :
    depth cap (List.replicate ups .up ++ List.replicate downs .down) = 0 := by
  have hdown : ∀ j, depth cap (List.replicate ups .up ++ List.replicate j .down) =
      min ups cap - j := by
    intro j
    induction j with
    | zero => rw [List.replicate_zero, List.append_nil, depth_up, Nat.sub_zero]
    | succ j ih =>
      rw [List.replicate_succ', ← List.append_assoc, depth_concat, ih, depthStep]
      omega
  rw [hdown]
  omega

/-- Up and down again the edit line is the text of the whole buffer, if it has one. -/
theorem exec_up_down (hi : HistoryInv lines h) (hne : lines ≠ []) (hcur : s.currentHistory = -1)
    (hbuf : (text maxCommandLength s.buffer).length < maxCommandLength) (hups : 0 < ups)
    (hd : min ups historySize ≤ downs) :
    ∃ s', exec (pressKey h maxCommandLength) s
        (List.replicate ups .up ++ List.replicate downs .down) = .ok s' ∧
      s'.pos = (text maxCommandLength s.buffer).length ∧
      s'.line = text maxCommandLength s.buffer := by
  have hb : Browses lines (text maxCommandLength s.buffer) 0 s :=
    ⟨Nat.zero_le _, hcur, holdsLine_text hbuf, fun hne => absurd rfl hne⟩
  obtain ⟨s', he, hs, hmoved⟩ := exec_arrows (n := maxCommandLength) hi hne hb
    (List.replicate ups .up ++ List.replicate downs .down)
  rw [if_pos (List.mem_append_left _ (List.mem_replicate.2 ⟨by omega, rfl⟩)), depth_up_down hd]
    at hmoved
  rw [depth_up_down hd] at hs
  rw [List.map_append, List.map_replicate, List.map_replicate] at he
  exact ⟨s', he, hmoved, hs.text.line hmoved⟩

/-- The first `UP` needs a NUL in the buffer. -/
theorem text_lt_of_up (hcount : h.historyCount > 0) (hcur : s.currentHistory = -1)
    (hup : pressKey h maxLen s .up = .ok s') :
    (text maxCommandLength s.buffer).length < maxCommandLength := by
  rw [pressKey, if_pos hcount] at hup
  obtain ⟨t, hs, _⟩ := bind_eq_ok.1 hup
  rw [EditLine.stepBack, if_pos hcur] at hs
  obtain ⟨temp, hcopy, _⟩ := bind_eq_ok.1 hs
  obtain ⟨k, hk, hz⟩ := exists_nul_of_strcpyFrom (j := 0) (checked_eq_ok.1 hcopy)
  exact text_lt_iff.2 ⟨k, hk, hz⟩

theorem plain_of_drafts (ht : Drafts k) : k.Plain := by
  cases k with
  | char c =>
    obtain ⟨hlo, hhi⟩ := ht
    have hne : ∀ b : UInt8, b < 32 → c ≠ b := by
      rintro b hb rfl
      exact absurd hlo (UInt8.not_le.2 hb)
    refine ⟨hne _ (by decide), hne _ (by decide), hne _ (by decide), hne _ (by decide), ?_⟩
    rintro rfl
    exact absurd hhi (by decide)
  | up => trivial
  | down => trivial
  | backspace => trivial
  | ignored => trivial

theorem restores_of_exec (hi : HistoryInv lines h) (hk : ∀ k ∈ keys, Key.Plain k)
    (he : exec (pressKey h maxCommandLength) (freshLine buffer) keys = .ok s)
    (hp : s.pos = d.length) (hl : s.line = d) (hd : 0 ∉ d) (hlt : d.length < maxCommandLength) :
    Restores h buffer keys d := by
  refine ⟨s, he, hl, fun hroom => ?_⟩
  obtain ⟨h', s', henter, htext⟩ := enterLine_line hi hroom hp hl hd hlt
  refine ⟨h', s', ?_, htext⟩
  rw [consoleGetsWithHistory, readKeys_bytes hk]
  dsimp only
  rw [he, ok_bind, if_pos rfl, henter]
  rfl

theorem exec_down_prompt (hcur : s.currentHistory = -1) (downs : Nat) :
    exec (pressKey h maxLen) s (List.replicate downs .down) = .ok s := by
  induction downs with
  | zero => rfl
  | succ downs ih => rw [List.replicate_succ, exec, pressKey_down_prompt hcur, ok_bind, ih]

/-- Up into the history and down again restores the draft exactly if no line was looked at, or
the typed line was never longer than the draft and the buffer held a NUL behind it. -/
theorem draft_restored (hr : ShellRun lines h buffer₀) (hne : lines ≠ []) (buffer : Chars)
    (ht : ∀ k ∈ ks, Drafts k) (hd : min ups historySize ≤ downs) :
    Restores h buffer (ks ++ (List.replicate ups .up ++ List.replicate downs .down))
        (draft ks) ↔
      ups = 0 ∨ ((∀ bs, bs <+: ks → (draft bs).length ≤ (draft ks).length) ∧
        buffer (draft ks).length = 0) := by
  obtain ⟨hi, _⟩ := hr.inv
  have htyped : ∃ s m, exec (pressKey h maxCommandLength) (freshLine buffer) ks = .ok s ∧
      Typed buffer ks m s := exec_typed ht
  obtain ⟨s, m, he, hs⟩ := htyped
  have hno := draft_no_nul ht
  have hlt : (draft ks).length < maxCommandLength := Nat.lt_of_le_of_lt hs.le hs.room
  have hline : s.line = draft ks := by
    rw [EditLine.line, hs.pos]
    exact hs.line
  have hplain : ∀ k ∈ ks ++ (List.replicate ups .up ++ List.replicate downs .down),
      Key.Plain k := by
    intro k hk
    rcases List.mem_append.1 hk with hk | hk
    · exact plain_of_drafts (ht k hk)
    rcases List.mem_append.1 hk with hk | hk
    · rw [(List.mem_replicate.1 hk).2]
      trivial
    · rw [(List.mem_replicate.1 hk).2]
      trivial
  have happ : ∀ keys, exec (pressKey h maxCommandLength) (freshLine buffer) (ks ++ keys) =
      exec (pressKey h maxCommandLength) s keys := by
    intro keys
    rw [exec_append, he, ok_bind]
  rcases Nat.eq_zero_or_pos ups with rfl | hups
  · refine iff_of_true (restores_of_exec hi hplain ?_ hs.pos hline hno hlt) (.inl rfl)
    rw [happ, List.replicate_zero, List.nil_append, exec_down_prompt hs.current]
  rw [or_iff_right (Nat.ne_of_gt hups), ← hs.nul_iff, ← hs.text_iff ht]
  constructor
  · rintro ⟨s', he', hl, _⟩
    rw [happ] at he'
    have hbuf : (text maxCommandLength s.buffer).length < maxCommandLength := by
      obtain ⟨k, rfl⟩ := Nat.exists_eq_add_one_of_ne_zero (Nat.ne_of_gt hups)
      rw [List.replicate_succ, List.cons_append] at he'
      obtain ⟨t, hup, _⟩ := bind_eq_ok.1 he'
      refine text_lt_of_up ?_ hs.current hup
      have := List.length_pos_iff.2 hne
      rw [hi.count]
      omega
    obtain ⟨t, het, _, htl⟩ := exec_up_down hi hne hs.current hbuf hups hd
    cases he'.symm.trans het
    exact htl.symm.trans hl
  · intro htext
    obtain ⟨t, het, htp, htl⟩ := exec_up_down hi hne hs.current (htext ▸ hlt) hups hd
    rw [htext] at htp htl
    exact restores_of_exec hi hplain ((happ _).trans het) htp htl hno hlt

theorem draft_restored_first : ∃ h buffer, ShellRun [[97]] h buffer ∧
    Restores h (fun _ => 0) ([.char 98] ++ (List.replicate 1 .up ++ List.replicate 1 .down)) [98] := by
  obtain ⟨h, buffer, hr⟩ := shellRun_first
  have ht : ∀ k ∈ [Key.char 98], Drafts k := List.forall_mem_singleton.2 ⟨by decide, by decide⟩
  have hlongest : ∀ bs, bs <+: [Key.char 98] → (draft bs).length ≤ (draft [.char 98]).length := by
    intro bs hp
    rcases List.prefix_concat_iff.1 (show bs <+: [] ++ [Key.char 98] from hp) with rfl | hp
    · exact Nat.le_refl _
    · rw [List.prefix_nil.1 hp]
      exact Nat.zero_le _
  exact ⟨h, buffer, hr, (draft_restored hr (List.cons_ne_nil _ _) (fun _ => 0) ht (Nat.le_refl 1)).2
    (.inr ⟨hlongest, rfl⟩)⟩

theorem hello_typed_over : ∃ h buffer, ShellRun [[104, 101, 108, 108, 111]] h buffer ∧
    text maxCommandLength (Function.update (Function.update buffer 0 97) 1 98) =
      [97, 98, 108, 108, 111] :=
  ⟨_, _, .entered (.boot fun _ => 0)
    (show consoleGetsWithHistory .empty (fun _ => 0) maxCommandLength
      [104, 101, 108, 108, 111, 10] = _ from rfl) (by decide) rfl, by decide +kernel⟩

/-- The draft `ab` comes back as `abllo`. -/
theorem draft_overwritten : ∃ h buffer, ShellRun [[104, 101, 108, 108, 111]] h buffer ∧
    ¬Restores h buffer ([.char 97, .char 98] ++ (List.replicate 1 .up ++ List.replicate 1 .down))
      (draft [.char 97, .char 98]) := by
  obtain ⟨h, buffer, hr, htext⟩ := hello_typed_over
  refine ⟨h, buffer, hr, ?_⟩
  rintro ⟨s', he', hl, _⟩
  have hexec : ∃ t, exec (pressKey h maxCommandLength)
        ⟨Function.update (Function.update buffer 0 97) 1 98, 2, -1, fun _ => 0⟩
        (List.replicate 1 .up ++ List.replicate 1 .down) = .ok t ∧
      t.pos = _ ∧ t.line = _ :=
    exec_up_down hr.inv.1 (List.cons_ne_nil _ _) rfl (by rw [htext]; decide) Nat.one_pos
      (Nat.le_refl 1)
  obtain ⟨t, het, _, htl⟩ := hexec
  cases het.symm.trans he'
  rw [hl, htext] at htl
  exact absurd htl (by decide)

end

end ChipOS
