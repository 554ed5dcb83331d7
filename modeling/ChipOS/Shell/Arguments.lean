import ChipOS.CString
import ChipOS.Lib.Words
import ChipOS.Shell.History
import Mathlib.Data.List.Forall2

namespace ChipOS
open CharArray Run Words
set_option autoImplicit true

/-- `parse_command` on a buffer of `n` bytes, from the index `token` on, with room for so many
arguments: where they start, and the buffer with a NUL behind each. -/
def parseCommandIn (n : Nat) : Nat → Chars → Int → Except Fault (List Int × Chars)
  | 0, input, _ => .ok ([], input)
  | room + 1, input, token => do
    let arg ← checked .inputBuffer (scan n isBlank input n token)
    let c ← checked .inputBuffer (CharArray.get n input arg)
    if c = 0 then return ([], input)
    let stop ← checked .inputBuffer (scan n (!isBlank ·) input n arg)
    let c ← checked .inputBuffer (CharArray.get n input stop)
    if c = 0 then return ([arg], input)
    let input ← checked .inputBuffer (CharArray.set n input stop 0)
    let (args, input) ← parseCommandIn n room input (stop + 1)
    return (arg :: args, input)

theorem parseCommandFrom_eq (room : Nat) (input : Chars) (token : Int) :
    parseCommandFrom room input token = parseCommandIn maxCommandLength room input token := by
  induction room generalizing input token with
  | zero => rfl
  | succ room ih =>
    rw [parseCommandFrom, parseCommandIn]
    simp only [ih]

section
variable {input out : Chars} {i : Int}

/-- The bytes that are not the same are separators of the string at the index `i`, and a NUL is in
their place. -/
def CutsAt (input out : Chars) (i : Int) (s : List UInt8) : Prop :=
  ∀ x, out x ≠ input x → out x = 0 ∧ ∃ k : Nat, x = i + k ∧ ∃ c, s[k]? = some c ∧ isBlank c = true

theorem CutsAt.refl : CutsAt input input i s := fun _ hx => absurd rfl hx

theorem CutsAt.cons {stop : Int} (h : CutsAt (Function.update input stop 0) out (stop + 1) tail)
    (hstop : i + pre.length = stop) (hsep : isBlank sep = true) :
    CutsAt input out i (pre ++ sep :: tail) := by
  intro x hx
  by_cases hat : x = stop
  · refine ⟨?_, pre.length, by omega, sep, ?_, hsep⟩
    · by_contra hne
      have hcut := h x (by rwa [hat, Function.update_self, ← hat])
      exact hne hcut.1
    · rw [List.getElem?_append_right (Nat.le_refl _), Nat.sub_self, List.getElem?_cons_zero]
  · obtain ⟨hz, k, hk, c, hc, hblank⟩ := h x (by rwa [Function.update_of_ne hat])
    refine ⟨hz, pre.length + (k + 1), by omega, c, ?_, hblank⟩
    rw [List.getElem?_append_right (Nat.le_add_right _ _), Nat.add_sub_cancel_left,
      List.getElem?_cons_succ, hc]

theorem CutsAt.before (h : CutsAt input out i s) {x : Int} (hx : x < i) : out x = input x := by
  by_contra hne
  obtain ⟨_, k, hk, _⟩ := h x hne
  omega

theorem parseCommandIn_eq (h : Holds input i s) (h₀ : 0 ≤ i) (hn : i + s.length < (n : Nat)) :
    ∃ args out, parseCommandIn n room input i = .ok (args, out) ∧
      List.Forall₂ (Holds out) args ((words isBlank s).take room) ∧ CutsAt input out i s := by
  induction room generalizing input i s with
  | zero => exact ⟨[], input, rfl, .nil, .refl⟩
  | succ room ih =>
    obtain ⟨arg, harg⟩ : ∃ arg, i + (s.takeWhile isBlank).length = arg := ⟨_, rfl⟩
    have hsplit : s.takeWhile isBlank ++ s.dropWhile isBlank = s := List.takeWhile_append_dropWhile
    have hlen := congrArg List.length hsplit
    rw [List.length_append] at hlen
    have hscan : scan n isBlank input n i = some arg := harg ▸ scan_eq h h₀ hn (by omega)
    have hstart : Holds input arg (s.dropWhile isBlank) := harg ▸ h.dropWhile
    have hget : get n input arg = some (input arg) := get_eq (by omega) (by omega)
    rw [parseCommandIn, ← words_dropWhile]
    simp only [hscan, hget, checked, ok_bind, holds_head hstart]
    cases hd : s.dropWhile isBlank with
    | nil => exact ⟨[], input, if_pos rfl, .nil, .refl⟩
    | cons b bs =>
      rw [hd] at hstart hlen
      rw [if_neg (List.cons_ne_nil b bs), words_first (dropWhile_head hd), List.take_succ_cons]
      obtain ⟨word, hword⟩ : ∃ word, (b :: bs).takeWhile (!isBlank ·) = word := ⟨_, rfl⟩
      obtain ⟨stop, hstop⟩ : ∃ stop, arg + word.length = stop := ⟨_, rfl⟩
      have hsplit' : word ++ (b :: bs).dropWhile (!isBlank ·) = b :: bs :=
        hword ▸ List.takeWhile_append_dropWhile
      have hlen' := congrArg List.length hsplit'
      rw [List.length_append] at hlen'
      have hscan' : scan n (!isBlank ·) input n arg = some stop := by
        rw [scan_eq hstart (by omega) (by omega) (by omega), hword, hstop]
      have hrest : Holds input stop ((b :: bs).dropWhile (!isBlank ·)) := by
        have hrest := hstart.dropWhile (p := (!isBlank ·))
        rwa [hword, hstop] at hrest
      have hget' : get n input stop = some (input stop) := get_eq (by omega) (by omega)
      have hset : set n input stop 0 = some (Function.update input stop 0) :=
        set_eq (by omega) (by omega)
      simp only [hscan', hget', hset, ok_bind, holds_head hrest, hword]
      cases hd' : (b :: bs).dropWhile (!isBlank ·) with
      | nil =>
        rw [hd', List.append_nil] at hsplit'
        have hnone : words isBlank ([] : List UInt8).tail = [] := rfl
        refine ⟨[arg], input, if_pos rfl, ?_, .refl⟩
        rw [hnone, List.take_nil, hsplit']
        exact .cons hstart .nil
      | cons sep tail =>
        rw [hd'] at hsplit' hlen' hrest
        rw [List.length_cons] at hlen'
        have hsep : isBlank sep = true := by simpa using dropWhile_head hd'
        have htail : Holds (Function.update input stop 0) (stop + 1) tail :=
          hrest.of_cons.2.update_before (Int.lt_succ stop)
        obtain ⟨args, out, he, hargs, hcuts⟩ := ih htail (by omega) (by omega)
        have hcut : Holds (Function.update input stop 0) arg word := by
          have hcut := hstart.takeWhile (p := (!isBlank ·))
          rwa [hword, hstop] at hcut
        have hout : Holds out arg word := hcut.congr fun x _ hx => hcuts.before (by omega)
        refine ⟨arg :: args, out, ?_, .cons hout hargs, ?_⟩
        · rw [if_neg (List.cons_ne_nil sep tail), he]
          rfl
        · have hs : s = (s.takeWhile isBlank ++ word) ++ sep :: tail := by
            rw [List.append_assoc, hsplit', ← hd, hsplit]
          have hpre : i + (s.takeWhile isBlank ++ word).length = stop := by
            rw [List.length_append]
            omega
          rw [hs]
          exact hcuts.cons hpre hsep

/-- `parse_command` returns the first `maxArgs` words of its input, and stores NULs on blanks of
the input only. -/
theorem arguments_words (h : Holds input 0 s) (hn : s.length < n) (maxArgs : Nat) :
    ∃ args out, parseCommandIn n maxArgs input 0 = .ok (args, out) ∧
      args.length = min maxArgs (words isBlank s).length ∧
      (∀ (k : Nat) arg, args[k]? = some arg → ∃ w, (words isBlank s)[k]? = some w ∧ Holds out arg w) ∧
      ∀ x, out x ≠ input x →
        out x = 0 ∧ ∃ k : Nat, x = k ∧ ∃ c, s[k]? = some c ∧ isBlank c = true := by
  have hparse : ∃ args out, parseCommandIn n maxArgs input 0 = .ok (args, out) ∧
      List.Forall₂ (Holds out) args ((words isBlank s).take maxArgs) ∧ CutsAt input out 0 s :=
    parseCommandIn_eq h (Int.le_refl 0) (by omega)
  obtain ⟨args, out, he, hargs, hcuts⟩ := hparse
  refine ⟨args, out, he, ?_, fun k arg hk => ?_, fun x hx => ?_⟩
  · rw [hargs.length_eq, List.length_take]
  · obtain ⟨hlt, rfl⟩ := List.getElem?_eq_some_iff.1 hk
    have htake := hargs.get hlt (hargs.length_eq ▸ hlt)
    rw [List.get_eq_getElem, List.get_eq_getElem, List.getElem_take] at htake
    exact ⟨_, List.getElem?_eq_getElem _, htake⟩
  · obtain ⟨hz, k, hk, hc⟩ := hcuts x hx
    exact ⟨hz, k, by omega, hc⟩

/-- Two words and three blanks. -/
theorem arguments_words_two : ∃ args out,
    parseCommandIn 8 10 (fun i => (CStr.ofString " ls  a").bytes[i.toNat]?.getD 0) 0 = .ok (args, out) ∧
      args.length = min 10 (words isBlank (CStr.ofString " ls  a").bytes).length ∧
      (∀ (k : Nat) arg, args[k]? = some arg →
        ∃ w, (words isBlank (CStr.ofString " ls  a").bytes)[k]? = some w ∧ Holds out arg w) ∧
      ∀ x, out x ≠ (CStr.ofString " ls  a").bytes[x.toNat]?.getD 0 →
        out x = 0 ∧ ∃ k : Nat, x = k ∧ ∃ c, (CStr.ofString " ls  a").bytes[k]? = some c ∧
          isBlank c = true :=
  arguments_words (holds_getD (CStr.no_nul _)) (by decide) 10

end

end ChipOS
