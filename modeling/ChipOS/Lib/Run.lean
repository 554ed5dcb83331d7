import Mathlib.Tactic.Common

namespace Run
set_option autoImplicit true

theorem bind_eq_ok {x : Except ε α} {f : α → Except ε β} :
    (x >>= f) = .ok b ↔ ∃ a, x = .ok a ∧ f a = .ok b := by
  cases x with
  | error e =>
    constructor
    · intro h
      cases h
    · rintro ⟨_, h, _⟩
      cases h
  | ok a =>
    constructor
    · intro h
      exact ⟨a, rfl, h⟩
    · rintro ⟨_, h, h'⟩
      cases h
      exact h'

theorem bind_eq_error {x : Except ε α} {f : α → Except ε β} :
    (x >>= f) = .error e ↔ x = .error e ∨ ∃ a, x = .ok a ∧ f a = .error e := by
  cases x with
  | error e' =>
    constructor
    · intro h
      cases h
      exact .inl rfl
    · rintro (h | ⟨_, h, _⟩)
      · cases h
        rfl
      · cases h
  | ok a =>
    constructor
    · intro h
      exact .inr ⟨a, rfl, h⟩
    · rintro (h | ⟨_, h, h'⟩)
      · cases h
      · cases h
        exact h'

@[simp] theorem ok_bind {f : α → Except ε β} : (Except.ok a >>= f) = f a := rfl

@[simp] theorem pure_eq_ok : (pure a : Except ε α) = .ok a := rfl

/-- A computation ends in a value that satisfies `P` or in an error that satisfies `E`. -/
def Ends (P : α → Prop) (E : ε → Prop) : Except ε α → Prop
  | .ok a => P a
  | .error e => E e

theorem Ends.bind {x : Except ε α} {f : α → Except ε β} (hx : Ends P E x)
    (hf : ∀ a, P a → Ends Q E (f a)) : Ends Q E (x >>= f) := by
  cases x with
  | error e => exact hx
  | ok a => exact hf a hx

theorem Ends.imp_error {x : Except ε α} (hx : Ends P E x) (he : ∀ e, E e → E' e) :
    Ends P E' x := by
  cases x with
  | error e => exact he e hx
  | ok a => exact hx

theorem Ends.error {x : Except ε α} (hx : Ends P E x) (he : x = .error e) : E e := by
  subst he
  exact hx

section
variable (step : σ → α → Except ε σ)

/-- The states reached from `s₀` by actions that do not fault. -/
inductive Reach (s₀ : σ) : σ → Prop
  | refl : Reach s₀ s₀
  | step : Reach s₀ s → step s a = .ok s' → Reach s₀ s'

/-- Performs the actions in order, up to the first fault. -/
def exec : σ → List α → Except ε σ
  | s, [] => .ok s
  | s, a :: as => step s a >>= fun s' => exec s' as

/-- Every action performed on the way meets a condition on the state it is performed in. -/
def Each (c : σ → α → Prop) : σ → List α → Prop
  | _, [] => True
  | s, a :: as => c s a ∧ ∀ s', step s a = .ok s' → Each c s' as

/-- How many of the actions performed meet a condition on the state they are performed in. -/
def tally (c : σ → α → Bool) : σ → List α → Nat
  | _, [] => 0
  | s, a :: as =>
    (c s a).toNat + match step s a with
      | .ok s' => tally c s' as
      | .error _ => 0

/-- What the actions performed cost together, also one that faults. -/
def total (cost : σ → α → Nat) : σ → List α → Nat
  | _, [] => 0
  | s, a :: as =>
    cost s a + match step s a with
      | .ok s' => total cost s' as
      | .error _ => 0

variable {step}

theorem Reach.invariant {P : σ → Prop} (hr : Reach step s₀ s) (h₀ : P s₀)
    (hs : ∀ s a s', P s → step s a = .ok s' → P s') : P s := by
  induction hr with
  | refl => exact h₀
  | step _ ha ih => exact hs _ _ _ ih ha

theorem Reach.exec (hr : Reach step s₀ s) (he : exec step s as = .ok s') : Reach step s₀ s' := by
  induction as generalizing s with
  | nil => exact Except.ok.inj he ▸ hr
  | cons a as ih =>
    obtain ⟨t, ht, he⟩ := bind_eq_ok.1 he
    exact ih (hr.step ht) he

theorem exec_append : exec step s (as ++ bs) = exec step s as >>= fun s' => exec step s' bs := by
  induction as generalizing s with
  | nil => rfl
  | cons a as ih =>
    rw [List.cons_append, exec, exec]
    cases step s a with
    | error e => rfl
    | ok s' => exact ih

theorem Each.imp {c d : σ → α → Prop} (hc : Each step c s as) (h : ∀ s a, c s a → d s a) :
    Each step d s as := by
  induction as generalizing s with
  | nil => trivial
  | cons a as ih => exact ⟨h s a hc.1, fun s' hs => ih (hc.2 s' hs)⟩

theorem Each.and {c d : σ → α → Prop} (hc : Each step c s as) (hd : Each step d s as) :
    Each step (fun s a => c s a ∧ d s a) s as := by
  induction as generalizing s with
  | nil => trivial
  | cons a as ih => exact ⟨⟨hc.1, hd.1⟩, fun s' hs => ih (hc.2 s' hs) (hd.2 s' hs)⟩

/-- An invariant that steps preserve under a condition holds at the end of every run
whose steps all meet the condition. -/
theorem Each.invariant {P : σ → Prop} {c : σ → α → Prop} (hc : Each step c s as) (h₀ : P s)
    (hs : ∀ s a s', P s → c s a → step s a = .ok s' → P s') (he : exec step s as = .ok s') :
    P s' := by
  induction as generalizing s with
  | nil => exact Except.ok.inj he ▸ h₀
  | cons a as ih =>
    obtain ⟨t, ht, he⟩ := bind_eq_ok.1 he
    exact ih (hc.2 t ht) (hs s a t h₀ hc.1 ht) he

/-- In a run that keeps an invariant the steps also meet what follows from the invariant. -/
theorem Each.imp_invariant {P : σ → Prop} {c d : σ → α → Prop} (hc : Each step c s as) (h₀ : P s)
    (hs : ∀ s a s', P s → c s a → step s a = .ok s' → P s') (hd : ∀ s a, P s → c s a → d s a) :
    Each step d s as := by
  induction as generalizing s with
  | nil => trivial
  | cons a as ih =>
    exact ⟨hd s a h₀ hc.1, fun s' he => ih (hc.2 s' he) (hs s a s' h₀ hc.1 he)⟩

theorem Each.total {P : σ → Prop} {c : σ → α → Prop} (hc : Each step c s as) (h₀ : P s)
    (hs : ∀ s a, P s → c s a → ∃ s', step s a = .ok s' ∧ P s') :
    ∃ s', exec step s as = .ok s' ∧ P s' := by
  induction as generalizing s with
  | nil => exact ⟨s, rfl, h₀⟩
  | cons a as ih =>
    obtain ⟨t, ht, hp⟩ := hs s a h₀ hc.1
    rw [exec, ht, ok_bind]
    exact ih (hc.2 t ht) hp

theorem Each.fault {P : σ → Prop} {Q : ε → Prop} {c : σ → α → Prop} (hc : Each step c s as)
    (h₀ : P s) (hs : ∀ s a s', P s → c s a → step s a = .ok s' → P s')
    (hf : ∀ s a e, P s → c s a → step s a = .error e → Q e) (he : exec step s as = .error e) :
    Q e := by
  induction as generalizing s with
  | nil => cases he
  | cons a as ih =>
    rcases bind_eq_error.1 he with he | ⟨t, ht, he⟩
    · exact hf s a e h₀ hc.1 he
    · exact ih (hc.2 t ht) (hs s a t h₀ hc.1 ht) he

theorem tally_eq {c : σ → α → Bool} {f : σ → Nat}
    (hs : ∀ s a s', step s a = .ok s' → f s' = f s + (c s a).toNat)
    (he : exec step s as = .ok s') : f s' = f s + tally step c s as := by
  induction as generalizing s with
  | nil => exact congrArg f (Except.ok.inj he).symm
  | cons a as ih =>
    obtain ⟨t, ht, he⟩ := bind_eq_ok.1 he
    rw [ih he, hs s a t ht, tally, ht, Nat.add_assoc]

/-- A counter with a bound that the steps raise by what they cost: the run faults exactly when
its whole cost goes past the bound. -/
theorem exec_past_bound {P : σ → Prop} {f : σ → Nat} {cost : σ → α → Nat} (h₀ : P s)
    (hs : ∀ a ∈ as, ∀ s s', P s → step s a = .ok s' → P s' ∧ f s' = f s + cost s a)
    (hf : ∀ a ∈ as, ∀ s, P s → (step s a = .error e ↔ bound < f s + cost s a))
    (hb : f s ≤ bound) : exec step s as = .error e ↔ bound < f s + total step cost s as := by
  induction as generalizing s with
  | nil =>
    constructor
    · intro he
      cases he
    · intro hlt
      exact absurd hlt (Nat.not_lt.2 hb)
  | cons a as ih =>
    have hfault := hf a List.mem_cons_self s h₀
    rw [exec, total]
    cases ha : step s a with
    | error e' =>
      rw [ha] at hfault
      exact hfault
    | ok t =>
      obtain ⟨ht, hft⟩ := hs a List.mem_cons_self s t h₀ ha
      have hroom : f t ≤ bound := by
        by_contra hover
        rw [hft, Nat.not_le] at hover
        cases ha.symm.trans (hfault.2 hover)
      rw [ok_bind, ih ht (fun b hb => hs b (List.mem_cons_of_mem a hb))
        (fun b hb => hf b (List.mem_cons_of_mem a hb)) hroom, hft, Nat.add_assoc]

theorem exec_prefix_error (hp : bs <+: as) (he : exec step s bs = .error e) :
    exec step s as = .error e := by
  obtain ⟨cs, rfl⟩ := hp
  rw [exec_append, he]
  rfl

end

end Run
