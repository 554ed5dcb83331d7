import ChipOS.Shell.History

namespace ChipOS
open CharArray Run Ring
set_option autoImplicit true

inductive Arrow where
  | up
  | down
deriving DecidableEq, Repr

def Arrow.key : Arrow → Key
  | .up => .up
  | .down => .down

/-- How many lines back a key leads from `e` lines back, where `cap` lines can be reached. -/
def depthStep (cap e : Nat) : Arrow → Nat
  | .up => min (e + 1) cap
  | .down => e - 1

def depth (cap : Nat) (arrows : List Arrow) : Nat := arrows.foldl (depthStep cap) 0

/-- What the prompt shows so many lines back: the draft, or an entered line. -/
def recalled (lines : List (List UInt8)) (draft : List UInt8) : Nat → List UInt8
  | 0 => draft
  | e + 1 => lines[e]?.getD []

/-- The keys lead from a fresh prompt to the line that is as many entered lines back as they say,
the oldest retained one at most, and to the empty line of the prompt with none. -/
def Recalls (lines : List (List UInt8)) (h : History) (buffer : Chars) (arrows : List Arrow) : Prop :=
  ∃ s, exec (pressKey h maxCommandLength) (freshLine buffer) (arrows.map Arrow.key) = .ok s ∧
    s.line = recalled lines [] (depth (min lines.length historySize) arrows)

/-- `UP` is not pressed at the oldest line of a history that is not full, and `DOWN` leads back to
the prompt only over a buffer that holds the empty string. -/
def Reversible (lines : List (List UInt8)) (buffer : Chars) (e : Nat) : Arrow → Prop
  | .up => historySize ≤ lines.length ∨ e < lines.length
  | .down => e = 1 → buffer 0 = 0

/-- A slot of the history, or a buffer, that holds a line. -/
def HoldsLine (a : Chars) (l : List UInt8) : Prop := l.length < maxCommandLength ∧ Holds a 0 l

structure HistoryInv (lines : List (List UInt8)) (h : History) : Prop where
  count : h.historyCount = lines.length
  keeps : Keeps HoldsLine historySize h.commandHistory lines []

/-- The locals while the prompt shows what is `e` lines back. -/
structure Browses (lines : List (List UInt8)) (draft : List UInt8) (e : Nat) (s : EditLine) :
    Prop where
  depth_le : e ≤ historySize
  current : s.currentHistory = if e = 0 then -1 else back historySize lines.length e
  text : HoldsLine s.buffer (recalled lines draft e)
  temp : e ≠ 0 → HoldsLine s.tempBuffer draft

section
variable {s : EditLine} {h : History}

theorem holdsLine_text (ha : (text maxCommandLength a).length < maxCommandLength) :
    HoldsLine a (text maxCommandLength a) :=
  ⟨ha, holds_text ha⟩

theorem HoldsLine.copy (hl : HoldsLine src l) (dst : Chars) :
    ∃ out, CharArray.strcpy maxCommandLength dst 0 maxCommandLength src 0 = some out ∧
      HoldsLine out l := by
  have hlt := hl.1
  have hroom : (0 : Int) + l.length < maxCommandLength := by omega
  have hcopy : ∃ out, CharArray.strcpy maxCommandLength dst 0 maxCommandLength src 0 = some out ∧
      Holds out 0 l ∧ ∀ x : Int, x < 0 ∨ 0 + l.length < x → out x = dst x :=
    strcpy_eq hl.2 (Int.le_refl 0) hroom (Int.le_refl 0) hroom
  obtain ⟨out, he, ho, _⟩ := hcopy
  exact ⟨out, he, hlt, ho⟩

theorem HoldsLine.line (hl : HoldsLine s.buffer l) (hp : s.pos = l.length) : s.line = l := by
  rw [EditLine.line, hp]
  exact hl.2.bytes_eq

theorem load_eq (hl : HoldsLine src l) : ∃ buffer, HoldsLine buffer l ∧
    s.load src = .ok { s with buffer := buffer, pos := (l.length : Int) } := by
  obtain ⟨buffer, he, hb⟩ := hl.copy s.buffer
  refine ⟨buffer, hb, ?_⟩
  rw [EditLine.load, he]
  simp only [checked, ok_bind, strlen_eq hb.2 hb.1, pure_eq_ok]

theorem HistoryInv.line (hi : HistoryInv lines h) (he : e < historySize) :
    ∃ src, h.line (back historySize lines.length (e + 1)) = .ok src ∧
      HoldsLine src (recalled lines d (e + 1)) := by
  have hm : 0 < historySize := by decide
  refine ⟨_, ?_, hi.keeps e he⟩
  rw [History.line, if_pos ⟨back_nonneg hm, back_lt hm⟩]
  rfl

theorem stepBack_prompt (hi : HistoryInv lines h) (hne : lines ≠ [])
    (hb : Browses lines draft 0 s) : ∃ temp, HoldsLine temp draft ∧
      s.stepBack h = .ok { s with tempBuffer := temp,
                                  currentHistory := back historySize lines.length 1 } := by
  obtain ⟨temp, he, ht⟩ := hb.text.copy s.tempBuffer
  refine ⟨temp, ht, ?_⟩
  have hcur : s.currentHistory = -1 := hb.current
  rw [EditLine.stepBack, if_pos hcur, he, hi.count, back_one (List.length_pos_iff.2 hne)]
  rfl

theorem stepBack_line (hi : HistoryInv lines h) (hb : Browses lines draft (e + 1) s) :
    s.stepBack h = .ok { s with
      currentHistory := back historySize lines.length (min (e + 2) historySize) } := by
  have hm : 0 < historySize := by decide
  have hle := hb.depth_le
  have hcur : s.currentHistory = back historySize lines.length (e + 1) := hb.current
  have hpos := back_nonneg (n := lines.length) (e := e + 1) hm
  rw [EditLine.stepBack, if_neg (by omega), hi.count, back_zero, hcur]
  rcases Nat.lt_or_eq_of_le hle with hlt | hlast
  · rw [if_pos (back_inj (by omega) (by omega)).symm, back_succ hm, Nat.min_eq_left hlt]
    rfl
  · rw [hlast] at hcur ⊢
    rw [if_neg (fun hne => hne back_turn), Nat.min_eq_right (by omega), ← hcur]
    rfl

theorem pressKey_up (hi : HistoryInv lines h) (hne : lines ≠ []) (hb : Browses lines draft e s) :
    ∃ s', pressKey h n s .up = .ok s' ∧
      Browses lines draft (depthStep historySize e .up) s' ∧
      s'.pos = (recalled lines draft (depthStep historySize e .up)).length := by
  have hcount : h.historyCount > 0 := by
    have := List.length_pos_iff.2 hne
    rw [hi.count]
    omega
  have hback : ∃ temp k, HoldsLine temp draft ∧ k < historySize ∧
      depthStep historySize e .up = k + 1 ∧
      s.stepBack h = .ok { s with tempBuffer := temp,
                                  currentHistory := back historySize lines.length (k + 1) } := by
    cases e with
    | zero =>
      obtain ⟨temp, ht, hs⟩ := stepBack_prompt hi hne hb
      exact ⟨temp, 0, ht, by decide, rfl, hs⟩
    | succ e =>
      have hle := hb.depth_le
      have hk : min (e + 2) historySize = min (e + 1) (historySize - 1) + 1 := by
        have : historySize = 20 := rfl
        omega
      refine ⟨s.tempBuffer, min (e + 1) (historySize - 1), hb.temp (Nat.succ_ne_zero e), ?_, hk, ?_⟩
      · have : historySize = 20 := rfl
        omega
      · rw [stepBack_line hi hb, hk]
  obtain ⟨temp, k, ht, hk, hd, hs⟩ := hback
  obtain ⟨src, hline, hsrc⟩ := hi.line (d := draft) hk
  obtain ⟨buffer, hbuf, hload⟩ := load_eq (s := { s with
    tempBuffer := temp, currentHistory := back historySize lines.length (k + 1) }) hsrc
  rw [hd]
  refine ⟨⟨buffer, (recalled lines draft (k + 1)).length, back historySize lines.length (k + 1),
    temp⟩, ?_, ⟨hk, (if_neg (Nat.succ_ne_zero k)).symm, hbuf, fun _ => ht⟩, rfl⟩
  rw [pressKey, if_pos hcount, hs, ok_bind]
  dsimp only
  rw [hline, ok_bind, hload]

theorem pressKey_down_prompt (hcur : s.currentHistory = -1) :
    pressKey h maxLen s .down = .ok s := by
  rw [pressKey, if_neg (fun hne => hne hcur)]
  rfl

theorem pressKey_down (hi : HistoryInv lines h) (hb : Browses lines draft (e + 1) s) :
    ∃ s', pressKey h n s .down = .ok s' ∧ Browses lines draft e s' ∧
      s'.pos = (recalled lines draft e).length := by
  have hm : 0 < historySize := by decide
  have hle := hb.depth_le
  have hcur : s.currentHistory = back historySize lines.length (e + 1) := hb.current
  have hpos := back_nonneg (n := lines.length) (e := e + 1) hm
  have ht := hb.temp (Nat.succ_ne_zero e)
  rw [pressKey, if_pos (by omega)]
  dsimp only
  rw [hcur, back_pred hm, hi.count, back_zero]
  cases e with
  | zero =>
    obtain ⟨buffer, hbuf, hload⟩ := load_eq (s := { s with
      currentHistory := back historySize lines.length 0 }) ht
    refine ⟨⟨buffer, draft.length, -1, s.tempBuffer⟩, ?_, ⟨Nat.zero_le _, rfl, hbuf, ?_⟩, rfl⟩
    · rw [if_pos rfl, hload]
      rfl
    · intro hne
      exact absurd rfl hne
  | succ e =>
    obtain ⟨src, hline, hsrc⟩ := hi.line (d := draft) (e := e) (by omega)
    obtain ⟨buffer, hbuf, hload⟩ := load_eq (s := { s with
      currentHistory := back historySize lines.length (e + 1) }) hsrc
    refine ⟨⟨buffer, (recalled lines draft (e + 1)).length, back historySize lines.length (e + 1),
      s.tempBuffer⟩, ?_, ⟨by omega, (if_neg (Nat.succ_ne_zero e)).symm, hbuf, fun _ => ht⟩, rfl⟩
    rw [if_neg (back_inj (by omega) (by omega)).symm, hline, ok_bind, hload]

theorem depth_concat : depth cap (arrows ++ [a]) = depthStep cap (depth cap arrows) a := by
  rw [depth, List.foldl_append]
  rfl

theorem depth_eq_zero (hup : Arrow.up ∉ arrows) : depth cap arrows = 0 := by
  induction arrows using List.reverseRecOn with
  | nil => rfl
  | append_singleton arrows a ih =>
    rw [List.mem_append, not_or] at hup
    rw [depth_concat, ih hup.1]
    cases a with
    | up => exact absurd List.mem_cons_self hup.2
    | down => rfl

theorem exec_arrows (hi : HistoryInv lines h) (hne : lines ≠ []) (hb : Browses lines draft 0 s)
    (arrows : List Arrow) :
    ∃ s', exec (pressKey h n) s (arrows.map Arrow.key) = .ok s' ∧
      Browses lines draft (depth historySize arrows) s' ∧
      if Arrow.up ∈ arrows then s'.pos = (recalled lines draft (depth historySize arrows)).length
      else s' = s := by
  induction arrows using List.reverseRecOn with
  | nil => exact ⟨s, rfl, hb, rfl⟩
  | append_singleton arrows a ih =>
    obtain ⟨t, he, ht, hmoved⟩ := ih
    rw [List.map_append, exec_append, he, ok_bind, depth_concat]
    cases a with
    | up =>
      obtain ⟨s', hs, hb', hp⟩ := pressKey_up (n := n) hi hne ht
      refine ⟨s', ?_, hb', ?_⟩
      · rw [List.map_singleton, exec, Arrow.key, hs]
        rfl
      · rw [if_pos (List.mem_append_right _ List.mem_cons_self)]
        exact hp
    | down =>
      have hmem : Arrow.up ∈ arrows ++ [.down] ↔ Arrow.up ∈ arrows := by
        simp only [List.mem_append, List.mem_singleton, reduceCtorEq, or_false]
      simp only [hmem]
      cases hd : depth historySize arrows with
      | zero =>
        rw [hd] at ht hmoved
        refine ⟨t, ?_, ht, hmoved⟩
        rw [List.map_singleton, exec, Arrow.key, pressKey_down_prompt ht.current]
        rfl
      | succ e =>
        rw [hd] at ht hmoved
        obtain ⟨s', hs, hb', hp⟩ := pressKey_down (n := n) hi ht
        refine ⟨s', ?_, hb', ?_⟩
        · rw [List.map_singleton, exec, Arrow.key, hs]
          rfl
        · split
          · exact hp
          · next hup => exact absurd hd (by rw [depth_eq_zero hup]; exact (Nat.succ_ne_zero e).symm)

theorem consoleGets_ok (he : consoleGetsWithHistory h buffer maxLen input = .ok (some (h', s'))) :
    ∃ s, exec (pressKey h maxLen) (freshLine buffer) (readKeys input).1 = .ok s ∧
      enterLine h s = .ok (h', s') := by
  obtain ⟨s, hs, he⟩ := bind_eq_ok.1 he
  split at he
  · obtain ⟨r, hr, he⟩ := bind_eq_ok.1 he
    cases he
    exact ⟨s, hs, hr⟩
  · cases he

theorem enterLine_ok (he : enterLine h s = .ok (h', s')) :
    (text maxCommandLength s'.buffer).length < maxCommandLength ∧ s'.pos = s.pos ∧
      if s.pos > 0 then ∃ line, HoldsLine line (text maxCommandLength s'.buffer) ∧
        h' = ⟨Function.update h.commandHistory (h.historyCount.tmod historySize) line,
          h.historyCount + 1⟩
      else h' = h := by
  obtain ⟨buffer, hset, he⟩ := bind_eq_ok.1 he
  obtain ⟨hpos, rfl⟩ := set_eq_some.1 (checked_eq_ok.1 hset)
  have hlt : (text maxCommandLength (Function.update s.buffer s.pos 0)).length <
      maxCommandLength := by
    rw [text_lt_iff]
    refine ⟨s.pos.toNat, by omega, ?_⟩
    rw [Int.toNat_of_nonneg hpos.1, Function.update_self]
  split at he
  · next hp =>
    obtain ⟨old, _, he⟩ := bind_eq_ok.1 he
    obtain ⟨line, hcopy, he⟩ := bind_eq_ok.1 he
    obtain ⟨out, hout, hl⟩ := (holdsLine_text hlt).copy old
    cases hout.symm.trans (checked_eq_ok.1 hcopy)
    split at he
    · cases he
      exact ⟨hlt, rfl, by rw [if_pos hp]; exact ⟨_, hl, rfl⟩⟩
    · cases he
  · next hp =>
    cases he
    exact ⟨hlt, rfl, by rw [if_neg hp]⟩

theorem HistoryInv.empty : HistoryInv [] .empty :=
  ⟨rfl, .nil fun _ => ⟨by decide, List.not_mem_nil, fun k hk => by rw [Nat.le_zero.1 hk]; rfl⟩⟩

theorem HistoryInv.push (hi : HistoryInv lines h) (hl : HoldsLine a l) :
    HistoryInv (l :: lines) ⟨Function.update h.commandHistory (h.historyCount.tmod historySize) a,
      h.historyCount + 1⟩ := by
  refine ⟨?_, ?_⟩
  · dsimp only
    rw [hi.count, List.length_cons]
    omega
  · rw [hi.count, back_zero]
    exact hi.keeps.push hl

theorem parseCommandFrom_nul {k : Nat} (hp : parseCommandFrom room a i = .ok (args, b))
    (hz : a k = 0) : b k = 0 := by
  induction room generalizing a i args with
  | zero =>
    cases hp
    exact hz
  | succ room ih =>
    obtain ⟨arg, _, hp⟩ := bind_eq_ok.1 hp
    obtain ⟨c, _, hp⟩ := bind_eq_ok.1 hp
    split at hp
    · cases hp
      exact hz
    obtain ⟨stop, _, hp⟩ := bind_eq_ok.1 hp
    obtain ⟨c, _, hp⟩ := bind_eq_ok.1 hp
    split at hp
    · cases hp
      exact hz
    obtain ⟨a', hset, hp⟩ := bind_eq_ok.1 hp
    obtain ⟨⟨args', b'⟩, hrec, hp⟩ := bind_eq_ok.1 hp
    cases hp
    apply ih hrec
    obtain ⟨_, rfl⟩ := set_eq_some.1 (checked_eq_ok.1 hset)
    rw [Function.update_apply, hz, ite_self]

/-- At every prompt the ring holds the lines entered last, and after the first one the buffer
holds a string. -/
theorem ShellRun.inv (hr : ShellRun lines h buffer) : HistoryInv lines h ∧
    (lines ≠ [] → (text maxCommandLength buffer).length < maxCommandLength) := by
  induction hr with
  | boot buffer => exact ⟨.empty, fun hne => absurd rfl hne⟩
  | blank _ he hp ih =>
    obtain ⟨s, hs, henter⟩ := consoleGets_ok he
    obtain ⟨hlt, hpos, hh⟩ := enterLine_ok henter
    rw [if_neg (by omega)] at hh
    exact ⟨hh ▸ ih.1, fun _ => hlt⟩
  | entered _ he hp hparse ih =>
    obtain ⟨s, hs, henter⟩ := consoleGets_ok he
    obtain ⟨hlt, hpos, hh⟩ := enterLine_ok henter
    rw [if_pos (by omega)] at hh
    obtain ⟨line, hl, rfl⟩ := hh
    refine ⟨ih.1.push hl, fun _ => ?_⟩
    obtain ⟨k, hk, hz⟩ := text_lt_iff.1 hlt
    exact text_lt_iff.2 ⟨k, hk, parseCommandFrom_nul hparse hz⟩

theorem recalled_succ (hd : e ≠ 0) : recalled lines draft e = recalled lines draft' e := by
  cases e with
  | zero => exact absurd rfl hd
  | succ e => rfl

theorem recalled_past (hlt : lines.length < e) : recalled lines draft e = [] := by
  cases e with
  | zero => cases hlt
  | succ e => rw [recalled, List.getElem?_eq_none (Nat.le_of_lt_succ hlt), Option.getD_none]

theorem recalled_ne_nil (hl : ∀ l ∈ lines, l ≠ []) (he : 0 < e) (hle : e ≤ lines.length) :
    recalled lines draft e ≠ [] := by
  cases e with
  | zero => cases he
  | succ e =>
    rw [recalled, List.getElem?_eq_getElem hle, Option.getD_some]
    exact hl _ (List.getElem_mem hle)

theorem recalls_iff (hi : HistoryInv lines h) (hne : lines ≠ [])
    (hbuf : (text maxCommandLength buffer).length < maxCommandLength) :
    Recalls lines h buffer arrows ↔
      (if Arrow.up ∈ arrows then
        recalled lines (text maxCommandLength buffer) (depth historySize arrows) else []) =
      recalled lines [] (depth (min lines.length historySize) arrows) := by
  have hb : Browses lines (text maxCommandLength buffer) 0 (freshLine buffer) :=
    ⟨Nat.zero_le _, rfl, holdsLine_text hbuf, fun hne => absurd rfl hne⟩
  obtain ⟨s, he, hs, hmoved⟩ := exec_arrows (n := maxCommandLength) hi hne hb arrows
  have hline : s.line = if Arrow.up ∈ arrows then
      recalled lines (text maxCommandLength buffer) (depth historySize arrows) else [] := by
    split
    · next hup =>
      rw [if_pos hup] at hmoved
      exact hs.text.line hmoved
    · next hup =>
      rw [if_neg hup] at hmoved
      rw [hmoved]
      rfl
  rw [← hline]
  constructor
  · rintro ⟨s', he', hl⟩
    cases he.symm.trans he'
    exact hl
  · intro hl
    exact ⟨s, he, hl⟩

theorem depth_le : depth cap arrows ≤ cap := by
  induction arrows using List.reverseRecOn with
  | nil => exact Nat.zero_le cap
  | append_singleton arrows a ih =>
    rw [depth_concat]
    cases a with
    | up => exact Nat.min_le_right _ _
    | down => exact Nat.le_trans (Nat.sub_le _ 1) ih

theorem agree_of_reversible (hne : lines ≠ [])
    (hrev : ∀ bs a, bs ++ [a] <+: arrows →
      Reversible lines buffer (depth (min lines.length historySize) bs) a) :
    depth historySize arrows = depth (min lines.length historySize) arrows ∧
      (Arrow.up ∈ arrows →
        recalled lines (text maxCommandLength buffer) (depth historySize arrows) =
          recalled lines [] (depth historySize arrows)) := by
  have hpos := List.length_pos_iff.2 hne
  have hsize : historySize = 20 := rfl
  induction arrows using List.reverseRecOn with
  | nil => exact ⟨rfl, fun hup => absurd hup List.not_mem_nil⟩
  | append_singleton arrows a ih =>
    obtain ⟨heq, hsame⟩ := ih fun bs b hp => hrev bs b (hp.trans (List.prefix_append _ _))
    have ha := hrev arrows a (List.prefix_refl _)
    have hle : depth (min lines.length historySize) arrows ≤ min lines.length historySize := depth_le
    rw [depth_concat, depth_concat, heq]
    rw [heq] at hsame
    cases a with
    | up =>
      simp only [Reversible, depthStep] at ha ⊢
      exact ⟨by omega, fun _ => recalled_succ (by omega)⟩
    | down =>
      refine ⟨rfl, fun hup => ?_⟩
      simp only [Reversible, depthStep] at ha ⊢
      rcases Nat.lt_trichotomy (depth (min lines.length historySize) arrows) 1 with hd | hd | hd
      · have hmem : Arrow.up ∈ arrows := by
          simpa only [List.mem_append, List.mem_singleton, reduceCtorEq, or_false] using hup
        have hz : depth (min lines.length historySize) arrows = 0 := by omega
        rw [hz] at hsame ⊢
        exact hsame hmem
      · rw [hd]
        exact (text_eq_nil_iff (by decide)).2 (ha hd)
      · exact recalled_succ (by omega)

theorem reversible_of_recalls (hi : HistoryInv lines h) (hne : lines ≠ []) (hl : ∀ l ∈ lines, l ≠ [])
    (hbuf : (text maxCommandLength buffer).length < maxCommandLength)
    (hrev : ∀ bs b, bs ++ [b] <+: arrows →
      Reversible lines buffer (depth (min lines.length historySize) bs) b)
    (hs : Recalls lines h buffer (arrows ++ [a])) :
    Reversible lines buffer (depth (min lines.length historySize) arrows) a := by
  have hpos := List.length_pos_iff.2 hne
  have hsize : historySize = 20 := rfl
  obtain ⟨heq, hsame⟩ := agree_of_reversible hne hrev
  have hle : depth (min lines.length historySize) arrows ≤ min lines.length historySize := depth_le
  rw [recalls_iff hi hne hbuf, depth_concat, depth_concat, heq] at hs
  cases a with
  | up =>
    by_contra hno
    simp only [Reversible, depthStep, not_or, Nat.not_le, Nat.not_lt] at hno hs
    have hd : depth (min lines.length historySize) arrows = lines.length := by omega
    rw [if_pos (List.mem_append_right _ List.mem_cons_self), hd, Nat.min_eq_left (by omega),
      Nat.min_eq_right (by omega), Nat.min_eq_left (by omega), recalled_past (Nat.lt_succ_self _)] at hs
    exact recalled_ne_nil hl hpos (Nat.le_refl _) hs.symm
  | down =>
    intro hd
    have hup : Arrow.up ∈ arrows := by
      by_contra hup
      rw [depth_eq_zero hup] at hd
      cases hd
    rw [if_pos (List.mem_append_left _ hup), depthStep, depthStep, hd] at hs
    exact (text_eq_nil_iff (by decide)).1 hs

theorem depth_up : depth cap (List.replicate k .up) = min k cap := by
  induction k with
  | zero => exact (Nat.zero_min cap).symm
  | succ k ih =>
    rw [List.replicate_succ', depth_concat, ih, depthStep]
    omega

theorem recalls_up (hi : HistoryInv lines h) (hne : lines ≠ []) (hl : ∀ l ∈ lines, l ≠ [])
    (hbuf : (text maxCommandLength buffer).length < maxCommandLength) (hk : 1 ≤ k) :
    Recalls lines h buffer (List.replicate k .up) ↔
      k ≤ lines.length ∨ historySize ≤ lines.length := by
  have hpos := List.length_pos_iff.2 hne
  have hsize : historySize = 20 := rfl
  rw [recalls_iff hi hne hbuf, if_pos (List.mem_replicate.2 ⟨by omega, rfl⟩), depth_up, depth_up]
  constructor
  · intro hs
    by_contra hno
    rw [recalled_past (by omega)] at hs
    exact recalled_ne_nil hl (by omega) (by omega) hs.symm
  · intro hk'
    have he : min k historySize = min k (min lines.length historySize) := by omega
    rw [he]
    exact recalled_succ (by omega)

/-- `k` times `UP` recalls the line that it should exactly if there are `k` lines or the history is
full. All along a row of arrows the right line is shown exactly if `UP` is not pressed at the
oldest line of a history that is not full, and `DOWN` leads back to the prompt only where the
buffer held the empty string. -/
theorem history_recall (hr : ShellRun lines h buffer) (hne : lines ≠ [])
    (hl : ∀ l ∈ lines, l ≠ []) :
    (∀ k, 1 ≤ k → (Recalls lines h buffer (List.replicate k .up) ↔
      k ≤ lines.length ∨ historySize ≤ lines.length)) ∧
    ∀ arrows, (∀ bs, bs <+: arrows → Recalls lines h buffer bs) ↔
      ∀ bs a, bs ++ [a] <+: arrows →
        Reversible lines buffer (depth (min lines.length historySize) bs) a := by
  obtain ⟨hi, hbuf⟩ := hr.inv
  refine ⟨fun k hk => recalls_up hi hne hl (hbuf hne) hk, fun arrows => ⟨fun hs => ?_, ?_⟩⟩
  · induction arrows using List.reverseRecOn with
    | nil =>
      intro bs a hp
      exact absurd (List.prefix_nil.1 hp) (List.append_ne_nil_of_right_ne_nil _ (List.cons_ne_nil a _))
    | append_singleton arrows b ih =>
      have hrev := ih fun bs hp => hs bs (hp.trans (List.prefix_append _ _))
      intro bs a hp
      rcases List.prefix_concat_iff.1 hp with heq | hp
      · obtain ⟨rfl, ha⟩ := List.append_inj' heq rfl
        cases ha
        exact reversible_of_recalls hi hne hl (hbuf hne) hrev (hs _ hp)
      · exact hrev bs a hp
  · intro hrev bs hp
    obtain ⟨heq, hsame⟩ := agree_of_reversible hne fun cs a hq => hrev cs a (hq.trans hp)
    rw [recalls_iff hi hne (hbuf hne), ← heq]
    split
    · next hup => exact hsame hup
    · next hup =>
      rw [depth_eq_zero hup]
      rfl

theorem shellRun_first : ∃ h buffer, ShellRun [[97]] h buffer :=
  ⟨_, _, .entered (.boot fun _ => 0)
    (show consoleGetsWithHistory .empty (fun _ => 0) maxCommandLength [97, 10] = _ from rfl)
    (by decide) rfl⟩

theorem history_recall_first : ∃ h buffer, ShellRun [[97]] h buffer ∧
    Recalls [[97]] h buffer (List.replicate 1 .up) := by
  obtain ⟨h, buffer, hr⟩ := shellRun_first
  refine ⟨h, buffer, hr, ?_⟩
  exact ((history_recall hr (List.cons_ne_nil _ _) (by decide)).1 1 (Nat.le_refl 1)).2
    (.inl (Nat.le_refl 1))

/-- With one line entered the second `UP` shows a slot that holds none. -/
theorem history_recall_blank : ∃ h buffer, ShellRun [[97]] h buffer ∧
    ¬Recalls [[97]] h buffer [.up, .up] := by
  obtain ⟨h, buffer, hr⟩ := shellRun_first
  obtain ⟨hi, hbuf⟩ := hr.inv
  refine ⟨h, buffer, hr, fun hs => ?_⟩
  have hk := (recalls_up hi (List.cons_ne_nil _ _) (by decide) (hbuf (List.cons_ne_nil _ _))
    (k := 2) (by decide)).1 hs
  exact absurd hk (by decide)

end

end ChipOS
