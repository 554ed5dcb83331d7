import ChipOS.Lib.Run

namespace Run
set_option autoImplicit true

/-- The answers to a series of calls, and the state the calls leave. -/
def answers (call : σ → α → Except ε (β × σ)) : σ → List α → Except ε (List β × σ)
  | s, [] => .ok ([], s)
  | s, a :: as => do
    let (b, s) ← call s a
    let (bs, s) ← answers call s as
    return (b :: bs, s)

/-- A series of calls with answers that a specification gives. -/
inductive Gives (spec : τ → α → β → τ → Prop) : τ → List α → List β → τ → Prop
  | nil : Gives spec t [] [] t
  | cons : spec t a b t₁ → Gives spec t₁ as bs t₂ → Gives spec t (a :: as) (b :: bs) t₂

/-- Calls whose single steps follow a specification give the answers of the specification. -/
theorem Each.simulates {call : σ → α → Except ε (β × σ)} {spec : τ → α → β → τ → Prop}
    {R : σ → τ → Prop} {c : σ → α → Prop}
    (hc : Each (fun s a => (call s a).map Prod.snd) c s as) (hr : R s t)
    (hs : ∀ s a b s' t, R s t → c s a → call s a = .ok (b, s') → ∃ t', spec t a b t' ∧ R s' t')
    (he : answers call s as = .ok (bs, s')) : ∃ t', Gives spec t as bs t' ∧ R s' t' := by
  induction as generalizing s t bs with
  | nil =>
    cases he
    exact ⟨t, .nil, hr⟩
  | cons a as ih =>
    obtain ⟨⟨b, s₁⟩, hcall, he⟩ := bind_eq_ok.1 he
    obtain ⟨⟨bs', s₂⟩, hrest, he⟩ := bind_eq_ok.1 he
    cases he
    obtain ⟨t₁, hspec, hr₁⟩ := hs s a b s₁ t hr hc.1 hcall
    have hmap : (call s a).map Prod.snd = .ok s₁ := by rw [hcall]; rfl
    obtain ⟨t', hgives, hr'⟩ := ih (hc.2 s₁ hmap) hr₁ hrest
    exact ⟨t', .cons hspec hgives, hr'⟩

theorem answers_exec {call : σ → α → Except ε (β × σ)}
    (he : answers call s as = .ok (bs, s')) :
    exec (fun s a => (call s a).map Prod.snd) s as = .ok s' := by
  induction as generalizing s bs with
  | nil =>
    cases he
    rfl
  | cons a as ih =>
    obtain ⟨⟨b, s₁⟩, hcall, he⟩ := bind_eq_ok.1 he
    obtain ⟨⟨bs', s₂⟩, hrest, he⟩ := bind_eq_ok.1 he
    cases he
    have hmap : (call s a).map Prod.snd = .ok s₁ := by rw [hcall]; rfl
    rw [exec, hmap, ok_bind]
    exact ih hrest

theorem answers_cons {call : σ → α → Except ε (β × σ)} (hc : call s a = .ok (b, s₁))
    (he : answers call s₁ as = .ok (bs, s')) : answers call s (a :: as) = .ok (b :: bs, s') := by
  rw [answers, hc, ok_bind]
  dsimp only
  rw [he]
  rfl

theorem exec_answers {call : σ → α → Except ε (β × σ)}
    (he : exec (fun s a => (call s a).map Prod.snd) s as = .ok s') :
    ∃ bs, answers call s as = .ok (bs, s') := by
  induction as generalizing s with
  | nil =>
    cases he
    exact ⟨[], rfl⟩
  | cons a as ih =>
    obtain ⟨s₁, hstep, he⟩ := bind_eq_ok.1 he
    dsimp only at hstep
    cases hcall : call s a with
    | error e =>
      rw [hcall] at hstep
      cases hstep
    | ok p =>
      rw [hcall] at hstep
      cases hstep
      obtain ⟨bs, hbs⟩ := ih he
      exact ⟨p.1 :: bs, answers_cons hcall hbs⟩

theorem answers_concat {call : σ → α → Except ε (β × σ)} (he : answers call t as = .ok (bs, t'))
    (hc : call t' a = .ok (b, t'')) : answers call t (as ++ [a]) = .ok (bs ++ [b], t'') := by
  induction as generalizing t bs with
  | nil =>
    cases he
    exact answers_cons hc rfl
  | cons a' as ih =>
    obtain ⟨⟨b', t₁⟩, hcall, he⟩ := bind_eq_ok.1 he
    obtain ⟨⟨bs', t₂⟩, hrest, he⟩ := bind_eq_ok.1 he
    cases he
    exact answers_cons hcall (ih hrest)

theorem answers_last {call : σ → α → Except ε (β × σ)}
    (he : answers call t (as ++ [a]) = .ok (bs, t'')) :
    ∃ bs' t' b, answers call t as = .ok (bs', t') ∧ call t' a = .ok (b, t'') ∧ bs = bs' ++ [b] := by
  induction as generalizing t bs with
  | nil =>
    obtain ⟨⟨b, t₁⟩, hcall, he⟩ := bind_eq_ok.1 he
    cases he
    exact ⟨[], t, b, rfl, hcall, rfl⟩
  | cons a' as ih =>
    obtain ⟨⟨b', t₁⟩, hcall, he⟩ := bind_eq_ok.1 he
    obtain ⟨⟨bs₁, t₂⟩, hrest, he⟩ := bind_eq_ok.1 he
    cases he
    obtain ⟨bs', t', b, has, hlast, rfl⟩ := ih hrest
    exact ⟨b' :: bs', t', b, answers_cons hcall has, hlast, rfl⟩

/-- Two calls give the same answer, and states that `R` relates, or the same error. -/
inductive SameAnswer {ε β σ τ : Type*} (R : σ → τ → Prop) :
    Except ε (β × σ) → Except ε (β × τ) → Prop
  | ok : R s t → SameAnswer R (.ok (b, s)) (.ok (b, t))
  | error : SameAnswer R (.error e) (.error e)

theorem SameAnswer.map {R : σ → τ → Prop} {f : σ → υ} {g : τ → υ} {x : Except ε (β × σ)}
    {y : Except ε (β × τ)} (h : SameAnswer R x y) (hfg : ∀ s t, R s t → f s = g t) :
    x.map (fun p => (p.1, f p.2)) = y.map fun p => (p.1, g p.2) := by
  cases h with
  | ok hr => exact congrArg (fun u => Except.ok (_, u)) (hfg _ _ hr)
  | error => rfl

/-- Calls that give the same answers one by one, for as many calls as the relation says, give the
same answers in a series. -/
theorem answers_lockstep {call : σ → α → Except ε (β × σ)} {call' : τ → γ → Except ε (β × τ)}
    {R : Nat → σ → τ → Prop} {f : γ → α}
    (hs : ∀ n s t c, R (n + 1) s t → SameAnswer (R n) (call s (f c)) (call' t c))
    (hr : R cs.length s t) :
    SameAnswer (R 0) (answers call s (cs.map f)) (answers call' t cs) := by
  induction cs generalizing s t with
  | nil => exact .ok hr
  | cons c cs ih =>
    rw [List.map_cons, answers, answers]
    have hfirst := hs cs.length s t c hr
    generalize call s (f c) = x, call' t c = y at hfirst
    cases hfirst with
    | error => exact .error
    | @ok s₁ t₁ b hr' =>
      rw [ok_bind, ok_bind]
      dsimp only
      have hrest := ih hr'
      generalize answers call s₁ (cs.map f) = x, answers call' t₁ cs = y at hrest
      cases hrest with
      | error => exact .error
      | ok hend => exact .ok hend

/-- Two computations come to values that `R` relates, or to the same error. -/
inductive SameEnd {ε σ τ : Type*} (R : σ → τ → Prop) : Except ε σ → Except ε τ → Prop
  | ok : R s t → SameEnd R (.ok s) (.ok t)
  | error : SameEnd R (.error e) (.error e)

theorem SameEnd.bind {R : σ → τ → Prop} {Q : υ → φ → Prop} {x : Except ε σ} {y : Except ε τ}
    {f : σ → Except ε υ} {g : τ → Except ε φ} (h : SameEnd R x y)
    (hf : ∀ s t, R s t → SameEnd Q (f s) (g t)) : SameEnd Q (x >>= f) (y >>= g) := by
  cases h with
  | ok hr =>
    rw [ok_bind, ok_bind]
    exact hf _ _ hr
  | error => exact .error

/-- Steps that end alike make runs that end alike. -/
theorem SameEnd.exec {R : σ → τ → Prop} {step : σ → α → Except ε σ} {step' : τ → α → Except ε τ}
    (hs : ∀ s t a, R s t → SameEnd R (step s a) (step' t a)) (hr : R s t) (as : List α) :
    SameEnd R (exec step s as) (exec step' t as) := by
  induction as generalizing s t with
  | nil => exact .ok hr
  | cons a as ih => exact (hs s t a hr).bind fun _ _ hr' => ih hr'

end Run
