import ChipOS.Shell.CommandLines

namespace ChipOS
open CharArray Run Words
set_option autoImplicit true

def IsLine (a : Chars) : Prop := ∃ l, HoldsLine a l

structure HistoryLines (h : History) : Prop where
  count : 0 ≤ h.historyCount
  lines : ∀ i, IsLine (h.commandHistory i)

/-- The locals of `console_gets_with_history` stay in range. -/
structure EditInv (s : EditLine) : Prop where
  low : 0 ≤ s.pos
  high : s.pos < maxCommandLength
  current : s.currentHistory = -1 ∨ 0 ≤ s.currentHistory ∧ s.currentHistory < historySize
  temp : IsLine s.tempBuffer

/-- `UP` is about to save a draft that has no NUL behind it. -/
def OpenDraft (h : History) (s : EditLine) (k : Key) : Prop :=
  k = .up ∧ 0 < h.historyCount ∧ s.currentHistory = -1 ∧
    maxCommandLength ≤ (text maxCommandLength s.buffer).length

section
variable {s : EditLine} {h : History}

theorem HistoryLines.empty : HistoryLines .empty :=
  ⟨Int.le_refl 0, fun _ => ⟨[], by decide, List.not_mem_nil, fun k hk => by rw [Nat.le_zero.1 hk]; rfl⟩⟩

theorem EditInv.start (buffer : Chars) : EditInv (freshLine buffer) :=
  ⟨Int.le_refl 0, (by decide : (0 : Int) < maxCommandLength), .inl rfl, HistoryLines.empty.lines 0⟩

theorem slot_range (hx : 0 ≤ x) : 0 ≤ Int.tmod x historySize ∧ Int.tmod x historySize < historySize :=
  ⟨Int.tmod_nonneg _ hx, Int.tmod_lt_of_pos x (by decide)⟩

theorem history_line {i : Int} (h₀ : 0 ≤ i) (h₁ : i < historySize) :
    h.line i = .ok (h.commandHistory i) := by
  rw [History.line, if_pos ⟨h₀, h₁⟩]
  rfl

theorem EditInv.load (hi : EditInv s) (hl : IsLine src) :
    ∃ s', s.load src = .ok s' ∧ EditInv s' := by
  obtain ⟨l, hl⟩ := hl
  obtain ⟨buffer, hb, he⟩ := load_eq (s := s) hl
  have hlt := hl.1
  refine ⟨_, he, Int.natCast_nonneg _, ?_, hi.current, hi.temp⟩
  change (l.length : Int) < maxCommandLength
  omega

/-- A draft without a NUL is not copied. -/
theorem strcpy_open (hopen : maxCommandLength ≤ (text maxCommandLength src).length) :
    CharArray.strcpy maxCommandLength dst 0 maxCommandLength src 0 = none := by
  cases hcopy : CharArray.strcpy maxCommandLength dst 0 maxCommandLength src 0 with
  | none => rfl
  | some out =>
    obtain ⟨k, hk, hz⟩ := exists_nul_of_strcpyFrom (j := 0) hcopy
    exact absurd (text_lt_iff.2 ⟨k, by omega, hz⟩) (Nat.not_lt.2 hopen)

theorem EditInv.stepBack (hi : EditInv s) (hcount : 0 < h.historyCount) :
    Ends (fun s' => EditInv s' ∧ 0 ≤ s'.currentHistory ∧ s'.currentHistory < historySize)
      (fun e => e = .outOfRange .tempBuffer ∧ OpenDraft h s .up) (s.stepBack h) := by
  rw [EditLine.stepBack]
  split
  · next hcur =>
    obtain ⟨hlow, hhigh⟩ := slot_range (x := h.historyCount - 1) (by omega)
    by_cases hlt : (text maxCommandLength s.buffer).length < maxCommandLength
    · obtain ⟨temp, he, ht⟩ := (holdsLine_text hlt).copy s.tempBuffer
      rw [he]
      exact ⟨⟨hi.low, hi.high, .inr ⟨hlow, hhigh⟩, _, ht⟩, hlow, hhigh⟩
    · have hopen := Nat.le_of_not_lt hlt
      rw [strcpy_open hopen]
      exact ⟨rfl, rfl, hcount, hcur, hopen⟩
  next hcur =>
  have hrange := hi.current.resolve_left hcur
  split
  · obtain ⟨hlow, hhigh⟩ := slot_range (x := s.currentHistory - 1 + historySize) (by
      have hsize : historySize = 20 := rfl
      omega)
    exact ⟨⟨hi.low, hi.high, .inr ⟨hlow, hhigh⟩, hi.temp⟩, hlow, hhigh⟩
  · exact ⟨hi, hrange⟩

theorem EditInv.key (hh : HistoryLines h) (hi : EditInv s) (k : Key) :
    Ends EditInv (fun e => e = .outOfRange .tempBuffer ∧ OpenDraft h s k)
      (pressKey h maxCommandLength s k) := by
  have hlow := hi.low
  have hhigh := hi.high
  cases k with
  | up =>
    rw [pressKey]
    split
    swap
    · exact hi
    next hcount =>
    refine (hi.stepBack hcount).bind fun s₁ h₁ => ?_
    obtain ⟨hi₁, h₀, h₁⟩ := h₁
    obtain ⟨s₂, he, hi₂⟩ := hi₁.load (hh.lines s₁.currentHistory)
    rw [history_line h₀ h₁, ok_bind, he]
    exact hi₂
  | down =>
    rw [pressKey]
    split
    swap
    · exact hi
    next hcur =>
    have hrange := hi.current.resolve_left hcur
    obtain ⟨h₀, h₁⟩ := slot_range (x := s.currentHistory + 1) (by omega)
    have hi₁ : EditInv { s with currentHistory := (s.currentHistory + 1).tmod historySize } :=
      ⟨hlow, hhigh, .inr ⟨h₀, h₁⟩, hi.temp⟩
    dsimp only
    split
    · obtain ⟨s₂, he, hi₂⟩ := hi₁.load hi.temp
      rw [he]
      exact ⟨hi₂.low, hi₂.high, .inl rfl, hi₂.temp⟩
    · obtain ⟨s₂, he, hi₂⟩ := hi₁.load (hh.lines _)
      rw [history_line h₀ h₁, ok_bind, he]
      exact hi₂
  | backspace =>
    rw [pressKey]
    split
    · refine ⟨?_, ?_, hi.current, hi.temp⟩
      · change 0 ≤ s.pos - 1
        omega
      · change s.pos - 1 < maxCommandLength
        omega
    · exact hi
  | char c =>
    rw [pressKey]
    split
    · next hroom =>
      rw [set_eq hlow hhigh]
      refine ⟨?_, ?_, hi.current, hi.temp⟩
      · change 0 ≤ s.pos + 1
        omega
      · change s.pos + 1 < maxCommandLength
        omega
    · exact hi
  | ignored => exact hi

theorem EditInv.exec (hh : HistoryLines h) (hi : EditInv s)
    (he : exec (pressKey h maxCommandLength) s keys = .ok s') : EditInv s' := by
  refine (Reach.refl.exec he).invariant hi fun s₁ k s₂ hi₁ hk => ?_
  have hkey := hi₁.key hh k
  rw [hk] at hkey
  exact hkey

theorem EditInv.enter (hh : HistoryLines h) (hi : EditInv s) :
    Ends (fun p => HistoryLines p.1 ∧ IsLine p.2.buffer)
      (fun e => e = .intOverflow ∧ intMax ≤ h.historyCount) (enterLine h s) := by
  have hlow := hi.low
  have hhigh := hi.high
  have hlt : (text maxCommandLength (Function.update s.buffer s.pos 0)).length < maxCommandLength := by
    refine text_lt_iff.2 ⟨s.pos.toNat, by omega, ?_⟩
    rw [Int.toNat_of_nonneg hlow, Function.update_self]
  have hl := holdsLine_text hlt
  rw [enterLine, set_eq hlow hhigh]
  simp only [checked, ok_bind]
  split
  · obtain ⟨h₀, h₁⟩ := slot_range hh.count
    obtain ⟨out, hout, ho⟩ := hl.copy (h.commandHistory (h.historyCount.tmod historySize))
    rw [history_line h₀ h₁, ok_bind, hout]
    dsimp only
    split
    · have hcount := hh.count
      refine ⟨⟨?_, fun i => ?_⟩, _, hl⟩
      · change 0 ≤ h.historyCount + 1
        omega
      · dsimp only
        rw [Function.update_apply]
        split
        · exact ⟨_, ho⟩
        · exact hh.lines i
    · next hmax => exact ⟨rfl, by omega⟩
  · exact ⟨hh, _, hl⟩

end

section
variable {s s' : Shell}

end

end ChipOS
