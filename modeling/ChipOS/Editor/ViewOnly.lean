import ChipOS.Editor.Sessions

namespace ChipOS
open CharArray Run
set_option autoImplicit true

/-- What a session that only views a file leaves alone: the lines, their number, the mark for
changes, the calls of `editor_save_file` and the files. -/
def Session.contents (s : Session) :
    (Int → Chars) × Int × Bool × List (Int × EditorState) × Filesystem :=
  (s.editor.lines, s.editor.lineCount, s.editor.modified, s.saves, s.fs)

/-- The iteration comes to its end and leaves the contents as they were. -/
def Stays (s : Session) (r : Except Fault Session) : Prop :=
  ∃ s', r = .ok s' ∧ s'.contents = s.contents

section
variable {s : Session}

theorem Quiet.stays (hq : Quiet s r) : Stays s r := by
  obtain ⟨ed, m, k, b, hm, rfl⟩ := hq
  cases hm
  exact ⟨_, rfl, rfl⟩

theorem EditsTo.contents_ne (he : EditsTo s (.ok s')) (hm : s.editor.modified = false) :
    s'.contents ≠ s.contents := by
  intro hc
  cases he with
  | edit _ hmark =>
    have hmod := congrArg (fun c => c.2.2.1) hc
    exact absurd (hmark.symm.trans (hmod.trans hm)) (by decide)
  | save _ => exact List.cons_ne_self _ _ (congrArg (fun c => c.2.2.2.1) hc)

theorem stays_iff (n : Nat) (hi : EditorInv s.editor) (hm : s.editor.modified = false) :
    (∀ m ≤ n, Stays s (exec editorStep s (List.replicate m ()))) ↔
      Each editorStep (fun s _ => ¬Edits s) s (List.replicate n ()) := by
  induction n generalizing s with
  | zero =>
    refine ⟨fun _ => trivial, fun _ m hm => ?_⟩
    cases Nat.le_zero.1 hm
    exact ⟨s, rfl, rfl⟩
  | succ n ih =>
    have hnext : ∀ {s'}, editorStep s () = .ok s' → s'.contents = s.contents →
        EditorInv s'.editor ∧ s'.editor.modified = false := by
      intro s' he hc
      have hinv := editorStep_ends hi
      rw [SessionEnds, he] at hinv
      have hmod : s'.editor.modified = s.editor.modified := congrArg (fun c => c.2.2.1) hc
      exact ⟨hinv, hmod.trans hm⟩
    rw [List.replicate_succ, Each]
    constructor
    · intro h
      obtain ⟨s₁, he₁, hc₁⟩ := h 1 (Nat.succ_le_succ (Nat.zero_le n))
      obtain ⟨s₂, he, hrefl⟩ := bind_eq_ok.1 he₁
      cases hrefl
      refine ⟨fun hedit => ?_, fun s' he' => ?_⟩
      · have hto := editorStep_edits hi hedit
        rw [he] at hto
        exact hto.contents_ne hm hc₁
      cases he.symm.trans he'
      obtain ⟨hi₁, hm₁⟩ := hnext he hc₁
      apply (ih hi₁ hm₁).1
      intro m hmn
      obtain ⟨s₂, he₂, hc₂⟩ := h (m + 1) (Nat.succ_le_succ hmn)
      rw [List.replicate_succ, exec, he, ok_bind] at he₂
      exact ⟨s₂, he₂, hc₂.trans hc₁.symm⟩
    · rintro ⟨hedit, hrest⟩ m hmn
      cases m with
      | zero => exact ⟨s, rfl, rfl⟩
      | succ m =>
        obtain ⟨s₁, he, hc₁⟩ := (editorStep_quiet hi hedit).stays
        obtain ⟨hi₁, hm₁⟩ := hnext he hc₁
        obtain ⟨s₂, he₂, hc₂⟩ := (ih hi₁ hm₁).2 (hrest s₁ he) m (Nat.le_of_succ_le_succ hmn)
        rw [List.replicate_succ, exec, he, ok_bind]
        exact ⟨s₂, he₂, hc₂.trans hc₁⟩

end

/-- The session that the answer `4` starts. It is not read-only. -/
theorem editorStart_view (hlen : filename.bytes.length < 256)
    (hr : fsReadFile fs filename bufferSize (bufferSize - 1) = .ok (r, data)) (hpos : 0 ≤ r)
    (hkey : keys 0 = '4'.toUInt8) :
    ∃ ed, editorStart fs filename keys = .ok
        { editor := ed, fs, keys := keys.tail.tail, running := true, readOnly := false, saves := [] } ∧
      EditorInv ed ∧ ed.modified = false := by
  obtain ⟨ed, hed⟩ : ∃ ed : EditorState, ed = { editorZero ⟨filename, hlen⟩ with
      language := detectLanguage filename, viewHeight := 20 } := ⟨_, rfl⟩
  have hblank : BlankState ed := hed ▸ .start _
  have hmod : ed.modified = false := by rw [hed]; rfl
  obtain ⟨ed', hload, hl⟩ := editorLoadFile_loaded hblank.lines hr
  obtain ⟨lines, n, hframe⟩ := hl.frame
  refine ⟨ed', ?_, hblank.loaded_start hl, (congrArg EditorState.modified hframe).trans hmod⟩
  have hopen : openExisting ed fs filename (keys 0) = .ok ed' := by
    rw [openExisting, hkey, if_neg (by decide), if_neg (by decide), hload]
    rfl
  have hread : (decide (r ≥ 0) && decide ('1'.toUInt8 = '4'.toUInt8)) = false := Bool.and_false _
  rw [editorStart, strcpy, dif_pos hlen]
  simp only [checked, ok_bind]
  rw [← hed, hr, ok_bind]
  dsimp only
  rw [if_pos hpos, hopen, ok_bind, hread]
  rfl

/-- A session that is opened with the answer `4` leaves the lines, their number, the mark for
changes and the files as they were, and saves nothing, exactly as long as no key edits. -/
theorem view_only (hlen : filename.bytes.length < 256)
    (hr : fsReadFile fs filename bufferSize (bufferSize - 1) = .ok (r, data)) (hpos : 0 ≤ r)
    (hkey : keys 0 = '4'.toUInt8) :
    ∃ s₀, editorStart fs filename keys = .ok s₀ ∧ s₀.fs = fs ∧ s₀.saves = [] ∧
      ∀ n, (∀ m ≤ n, Stays s₀ (exec editorStep s₀ (List.replicate m ()))) ↔
        Each editorStep (fun s _ => ¬Edits s) s₀ (List.replicate n ()) := by
  obtain ⟨ed, hstart, hi, hmod⟩ := editorStart_view hlen hr hpos hkey
  exact ⟨_, hstart, rfl, rfl, fun n => stays_iff n hi hmod⟩

def typed (s : String) : Keys := fun n => (CStr.ofString s).bytes[n]?.getD 0

theorem view_only_touched : ∃ fs, exec fsStep (fsInit 0) [.touchFile (.ofString "a")] = .ok fs ∧
    ∃ s₀, editorStart fs (.ofString "a") (typed "4 jk") = .ok s₀ ∧ s₀.fs = fs ∧ s₀.saves = [] ∧
      ∀ n, (∀ m ≤ n, Stays s₀ (exec editorStep s₀ (List.replicate m ()))) ↔
        Each editorStep (fun s _ => ¬Edits s) s₀ (List.replicate n ()) :=
  ⟨_, rfl, view_only (by decide) (show fsReadFile _ _ _ _ = .ok (0, []) from rfl) (by decide) rfl⟩

/-- The keys `4`, space, `i` and `Z` put a `Z` into a file opened to view it. -/
theorem view_only_edited :
    ((exec fsStep (fsInit 0) [.touchFile (.ofString "a")] >>= fun fs =>
      editorStart fs (.ofString "a") (typed "4 iZ")).map
        fun s => (s.editor.text 0, s.editor.modified)) = .ok ([], false) ∧
    ((exec fsStep (fsInit 0) [.touchFile (.ofString "a")] >>= fun fs =>
      editorStart fs (.ofString "a") (typed "4 iZ") >>= fun s₀ =>
        exec editorStep s₀ [(), ()]).map fun s => (s.editor.text 0, s.editor.modified)) =
      .ok ([90], true) := by
  decide +kernel

end ChipOS
