import ChipOS.Lib.Run

namespace Markup
open Run
set_option autoImplicit true

/-- A piece of output: text, or a mark that is no text. -/
inductive Item (α μ : Type) where
  | text (s : List α)
  | mark (m : μ)
deriving DecidableEq, Repr

def plain : List (Item α μ) → List α
  | [] => []
  | .text s :: out => s ++ plain out
  | .mark _ :: out => plain out

def marks : List (Item α μ) → List μ
  | [] => []
  | .text _ :: out => marks out
  | .mark m :: out => m :: marks out

/-- Prints a list by steps that each give some output and what is left of the list. -/
def print (step : List α → Except ε (List (Item α μ) × List α)) (stuck : ε) :
    Nat → List α → Except ε (List (Item α μ))
  | _, [] => .ok []
  | 0, _ :: _ => .error stuck
  | fuel + 1, a :: as => do
    let (out, rest) ← step (a :: as)
    let more ← print step stuck fuel rest
    return out ++ more

/-- The output shows what was taken off the list, and something was. Its marks satisfy `M`. -/
structure Shows (M : μ → Prop) (as : List α) (out : List (Item α μ)) (rest : List α) : Prop where
  text : plain out ++ rest = as
  shorter : rest.length < as.length
  marks : ∀ m ∈ marks out, M m

section
variable {as : List α} {out more : List (Item α μ)} {M : μ → Prop}

@[simp] theorem plain_nil : plain ([] : List (Item α μ)) = [] := rfl

@[simp] theorem plain_text : plain (.text s :: out) = s ++ plain out := rfl

@[simp] theorem plain_mark : plain (.mark m :: out) = plain out := rfl

@[simp] theorem marks_nil : marks ([] : List (Item α μ)) = [] := rfl

@[simp] theorem marks_text : marks (.text s :: out) = marks out := rfl

@[simp] theorem marks_mark : marks (.mark m :: out) = m :: marks out := rfl

@[simp]
theorem plain_append : plain (out ++ more) = plain out ++ plain more := by
  induction out with
  | nil => rfl
  | cons item out ih =>
    cases item with
    | text s => rw [List.cons_append, plain_text, plain_text, ih, List.append_assoc]
    | mark m => rw [List.cons_append, plain_mark, plain_mark, ih]

theorem plain_infix (h : out <:+: more) : plain out <:+: plain more := by
  obtain ⟨before, behind, rfl⟩ := h
  rw [plain_append, plain_append]
  exact List.infix_append _ _ _

theorem plain_suffix (h : out <:+ more) : plain out <:+ plain more := by
  obtain ⟨before, rfl⟩ := h
  rw [plain_append]
  exact List.suffix_append _ _

@[simp]
theorem marks_append : marks (out ++ more) = marks out ++ marks more := by
  induction out with
  | nil => rfl
  | cons item out ih =>
    cases item with
    | text s => rw [List.cons_append, marks_text, marks_text, ih]
    | mark m => rw [List.cons_append, marks_mark, marks_mark, ih, List.cons_append]

theorem Shows.of_text (h : plain out ++ rest = as) (hne : plain out ≠ [])
    (hm : ∀ m ∈ Markup.marks out, M m) : Shows M as out rest := by
  refine ⟨h, ?_, hm⟩
  have hpos := List.length_pos_iff.2 hne
  have hlen := congrArg List.length h
  rw [List.length_append] at hlen
  omega

theorem print_shows {step : List α → Except ε (List (Item α μ) × List α)} {n : Nat}
    (stuck : ε) (hstep : ∀ as, as ≠ [] → as.length ≤ n →
      ∃ out rest, step as = .ok (out, rest) ∧ Shows M as out rest)
    (hn : as.length ≤ n) (hfuel : as.length ≤ fuel) :
    ∃ out, print step stuck fuel as = .ok out ∧ plain out = as ∧ ∀ m ∈ marks out, M m := by
  induction fuel generalizing as with
  | zero =>
    cases List.eq_nil_of_length_eq_zero (Nat.le_zero.1 hfuel)
    exact ⟨[], rfl, rfl, fun m hm => absurd hm List.not_mem_nil⟩
  | succ fuel ih =>
    cases as with
    | nil => exact ⟨[], rfl, rfl, fun m hm => absurd hm List.not_mem_nil⟩
    | cons a as =>
      obtain ⟨out, rest, hs, htext, hlt, hmarks⟩ := hstep (a :: as) (List.cons_ne_nil a as) hn
      have hrest : ∃ more, print step stuck fuel rest = .ok more ∧ plain more = rest ∧
          ∀ m ∈ Markup.marks more, M m := ih (by omega) (by omega)
      obtain ⟨more, hp, hplain, hmore⟩ := hrest
      refine ⟨out ++ more, ?_, ?_, fun m hm => ?_⟩
      · simp only [print, hs, ok_bind, hp, pure_eq_ok]
      · rw [plain_append, hplain, htext]
      · rw [marks_append] at hm
        exact (List.mem_append.1 hm).elim (hmarks m) (hmore m)

end

end Markup
