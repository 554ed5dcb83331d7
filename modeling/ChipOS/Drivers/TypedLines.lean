import ChipOS.Drivers.Console

namespace ChipOS
set_option autoImplicit true

structure TypedLine where
  keys : List UInt8
  enter : UInt8
  no_enter : ∀ c ∈ keys, isEnter c = false
  is_enter : isEnter enter = true

def TypedLine.input (l : TypedLine) : List UInt8 := l.keys ++ [l.enter]

/-- The line that the keys leave, with no limit on its length. -/
def TypedLine.text (l : TypedLine) : List UInt8 := l.keys.foldl editKey []

/-- The text is never as long as the buffer while it is typed. -/
def TypedLine.Fits (maxLength : Nat) (l : TypedLine) : Prop :=
  ∀ pre, pre <+: l.keys → (pre.foldl editKey []).length < maxLength - 1

def typedInput (ls : List TypedLine) : List UInt8 := ls.flatMap TypedLine.input

section
variable {line keys input rest : List UInt8}

theorem getsLoop_fits (hkeys : ∀ c ∈ keys, isEnter c = false) (he : isEnter e = true)
    (hfits : ∀ pre, pre <+: keys → (pre.foldl editKey line).length < maxLength - 1) :
    getsLoop maxLength line (keys ++ e :: rest) = some (keys.foldl editKey line, rest) := by
  induction keys generalizing line with
  | nil =>
    have hroom : line.length < maxLength - 1 := hfits [] List.nil_prefix
    rw [List.nil_append, getsLoop, if_pos hroom, if_pos he]
    rfl
  | cons c keys ih =>
    have hroom : line.length < maxLength - 1 := hfits [] List.nil_prefix
    rw [List.cons_append, getsLoop, if_pos hroom,
      if_neg (by rw [hkeys c List.mem_cons_self]; decide)]
    apply ih fun b hb => hkeys b (List.mem_cons_of_mem c hb)
    intro pre hpre
    exact hfits (c :: pre) ((List.prefix_cons_inj c).2 hpre)

/-- A line that fills the buffer is returned without its Enter. -/
theorem getsLoop_full (rest : List UInt8) (hkeys : ∀ c ∈ keys, isEnter c = false)
    (hpre : pre <+: keys) (hfull : maxLength - 1 ≤ (pre.foldl editKey line).length) :
    ∃ line' post, getsLoop maxLength line (keys ++ rest) = some (line', post ++ rest) := by
  induction keys generalizing line pre with
  | nil =>
    cases List.prefix_nil.1 hpre
    refine ⟨line, [], ?_⟩
    have hroom : ¬line.length < maxLength - 1 := Nat.not_lt.2 hfull
    cases rest with
    | nil => exact if_neg hroom
    | cons c rest => exact if_neg hroom
  | cons c keys ih =>
    rw [List.cons_append, getsLoop]
    split
    · next hroom =>
      rw [if_neg (by rw [hkeys c List.mem_cons_self]; decide)]
      cases pre with
      | nil => exact absurd hroom (Nat.not_lt.2 hfull)
      | cons d pre =>
        obtain ⟨hd, htail⟩ := List.cons_prefix_cons.1 hpre
        subst hd
        exact ih (fun b hb => hkeys b (List.mem_cons_of_mem d hb)) htail hfull
    · exact ⟨line, c :: keys, rfl⟩

theorem countP_getsLoop (h : getsLoop maxLength line input = some (line', rest)) :
    input.countP isEnter ≤ rest.countP isEnter + 1 := by
  induction input generalizing line with
  | nil => exact Nat.zero_le _
  | cons c input ih =>
    rw [getsLoop] at h
    split at h
    · split at h
      · next he =>
        cases h
        rw [List.countP_cons_of_pos he]
      · next he =>
        rw [List.countP_cons_of_neg he]
        exact ih h
    · cases h
      exact Nat.le_add_right _ 1

theorem countP_getsCalls (maxLength calls : Nat) (input : List UInt8) :
    input.countP isEnter ≤ (getsCalls maxLength calls input).2.countP isEnter + calls := by
  induction calls generalizing input with
  | zero => exact Nat.le_refl _
  | succ calls ih =>
    rw [getsCalls]
    split
    · exact Nat.le_add_right _ _
    · next line rest hcall =>
      have hone := countP_getsLoop hcall
      have hrest := ih rest
      simp only
      omega

theorem TypedLine.countP_input (l : TypedLine) : l.input.countP isEnter = 1 := by
  have hkeys : l.keys.countP isEnter = 0 := by
    rw [List.countP_eq_zero]
    intro c hc
    rw [l.no_enter c hc]
    decide
  rw [TypedLine.input, List.countP_append, hkeys, List.countP_singleton, if_pos l.is_enter]

theorem countP_typedInput (ls : List TypedLine) : (typedInput ls).countP isEnter = ls.length := by
  induction ls with
  | nil => rfl
  | cons l ls ih =>
    rw [typedInput, List.flatMap_cons, List.countP_append, l.countP_input, List.length_cons, Nat.add_comm]
    exact congrArg (· + 1) ih

/-- The calls return the typed lines, each cut to what fits, and nothing is left over. -/
def ReadsLines (maxLength : Nat) (ls : List TypedLine) : Prop :=
  getsCalls maxLength ls.length (typedInput ls) =
    (ls.map fun l => l.text.take (maxLength - 1), [])

theorem TypedLine.Fits.length (h : TypedLine.Fits maxLength l) : l.text.length < maxLength - 1 :=
  h l.keys (List.prefix_refl _)

theorem consoleGets_fits (h : TypedLine.Fits maxLength l) :
    consoleGets maxLength (l.input ++ rest) = some (l.text.take (maxLength - 1), rest) := by
  rw [List.take_of_length_le (Nat.le_of_lt h.length), TypedLine.input, List.append_assoc]
  exact getsLoop_fits l.no_enter l.is_enter h

theorem readsLines_iff (maxLength : Nat) (ls : List TypedLine) :
    ReadsLines maxLength ls ↔ ∀ l ∈ ls, l.Fits maxLength := by
  induction ls with
  | nil => exact iff_of_true rfl fun _ hl => absurd hl List.not_mem_nil
  | cons l ls ih =>
    have htyped : typedInput (l :: ls) = l.input ++ typedInput ls := List.flatMap_cons
    rw [List.forall_mem_cons, ← ih, ReadsLines, htyped, List.length_cons, getsCalls]
    by_cases hl : l.Fits maxLength
    · rw [consoleGets_fits hl]
      simp only [List.map_cons, Prod.mk.injEq, List.cons.injEq, true_and]
      rw [and_iff_right hl, ReadsLines, ← Prod.mk.injEq]
    · refine iff_of_false (fun hreads => ?_) fun h => hl h.1
      -- the call leaves an Enter behind that no later call has room for
      rw [TypedLine.Fits] at hl
      push Not at hl
      obtain ⟨pre, hpre, hfull⟩ := hl
      obtain ⟨line', post, hcall⟩ :=
        getsLoop_full (l.enter :: typedInput ls) l.no_enter hpre hfull
      have hinput : l.input ++ typedInput ls = l.keys ++ l.enter :: typedInput ls := by
        rw [TypedLine.input, List.append_assoc, List.singleton_append]
      rw [hinput, consoleGets, hcall] at hreads
      have hleft := congrArg Prod.snd hreads
      have hcount := countP_getsCalls maxLength ls.length (post ++ l.enter :: typedInput ls)
      simp only at hleft
      rw [hleft, List.countP_append, List.countP_cons_of_pos l.is_enter, countP_typedInput,
        List.countP_nil] at hcount
      omega

end

end ChipOS
