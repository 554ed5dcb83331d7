import ChipOS.Editor.RoundTrip
import ChipOS.Editor.Sessions

namespace ChipOS
open CharArray Run
set_option autoImplicit true

/-- A save that returns 0 has passed on all lines, and one of lines that are too long for
`buffer` with its NUL returns an error and leaves the mark for changes. -/
def SavesAll (ed : EditorState) (result : Int) (ed' : EditorState) : Prop :=
  (result = 0 → saveData ed = .ok (joinLines ed.buffer)) ∧
  (bufferSize ≤ (joinLines ed.buffer).length → result ≠ 0 ∧ ed'.modified = ed.modified)

/-- The lines that no test of `editor_save_file` leaves out. Only an empty line can end at the
last byte before the NUL. -/
def FitsBuffer (ls : List (List UInt8)) : Prop :=
  (joinLines ls).length < bufferSize - 1 ∨
    (joinLines ls).length = bufferSize - 1 ∧ ls.getLast? = some []

theorem joinLines_length (l : List UInt8) (ls : List (List UInt8)) :
    (joinLines (l :: ls)).length = closedSize (l :: ls) - 1 := by
  induction ls generalizing l with
  | nil =>
    rw [joinLines_singleton, closedSize, List.map_singleton, List.sum_singleton]
    rfl
  | cons l' ls ih =>
    have hsize : closedSize (l :: l' :: ls) = l.length + 1 + closedSize (l' :: ls) := by
      rw [closedSize, List.map_cons, List.sum_cons, closedSize]
    have hpos : 1 ≤ closedSize (l' :: ls) := by
      rw [closedSize, List.map_cons, List.sum_cons]
      omega
    rw [joinLines_cons, List.length_append, List.length_cons, ih, hsize]
    omega

theorem savedBytes_iff (hpos : pos < bufferSize) (l : List UInt8) (ls : List (List UInt8)) :
    savedBytes pos (l :: ls) = joinLines (l :: ls) ↔
      pos + (joinLines (l :: ls)).length < bufferSize - 1 ∨
        pos + (joinLines (l :: ls)).length = bufferSize - 1 ∧ (l :: ls).getLast? = some [] := by
  have hsize : bufferSize = 4096 := rfl
  induction ls generalizing pos l with
  | nil =>
    rw [joinLines_singleton, List.getLast?_singleton, Option.some.injEq]
    by_cases hfits : pos + l.length < bufferSize - 1
    · rw [savedBytes, if_pos (by omega), if_pos (by omega), if_pos rfl]
      exact ⟨fun _ => .inl hfits, fun _ => rfl⟩
    · have hskip : savedBytes pos [l] = [] := by
        rw [savedBytes, if_neg (by omega : ¬pos + l.length + 1 < bufferSize), savedBytes, ite_self]
      rw [hskip]
      constructor
      · rintro rfl
        rw [List.length_nil] at hfits ⊢
        exact .inr ⟨by omega, rfl⟩
      · rintro (hlt | ⟨_, rfl⟩)
        · exact absurd hlt hfits
        · rfl
  | cons l' ls ih =>
    have hlen : (joinLines (l :: l' :: ls)).length = l.length + 1 + (joinLines (l' :: ls)).length := by
      rw [joinLines_cons, List.length_append, List.length_cons]
      omega
    rw [List.getLast?_cons_cons, hlen]
    by_cases hfits : pos + l.length + 1 < bufferSize
    · have hsum : pos + (l.length + 1 + (joinLines (l' :: ls)).length) =
          pos + l.length + 1 + (joinLines (l' :: ls)).length := by omega
      rw [savedBytes, if_pos (by omega), if_pos hfits, if_neg (List.cons_ne_nil _ _), joinLines_cons,
        List.append_cancel_left_eq, List.cons.injEq, hsum]
      exact (and_iff_right rfl).trans (ih hfits l')
    · have hskip : (savedBytes pos (l :: l' :: ls)).length ≤ (joinLines (l' :: ls)).length := by
        rw [savedBytes, if_neg hfits, joinLines_length]
        split
        · exact savedBytes_length _ _
        · exact Nat.zero_le _
      constructor
      · intro he
        rw [he, hlen] at hskip
        omega
      · rintro (hlt | ⟨heq, _⟩) <;> omega

section
variable {ed ed' : EditorState}

theorem EditorInv.saves_iff (hi : EditorInv ed) :
    saveData ed = .ok (joinLines ed.buffer) ↔ FitsBuffer ed.buffer := by
  have hpos := hi.count_pos
  obtain ⟨n, hn⟩ : ∃ n : Nat, ed.lineCount = n := Int.eq_ofNat_of_zero_le (by omega)
  have hlen := buffer_length hn
  rw [hi.saved, Except.ok.injEq]
  cases hb : ed.buffer with
  | nil =>
    rw [hb, List.length_nil] at hlen
    omega
  | cons l ls => rw [savedBytes_iff (by decide), FitsBuffer, Nat.zero_add]

/-- A save succeeds exactly when the file system has a place for the file. -/
theorem editorSaveFile_success (hs : editorSaveFile ed fs = .ok (result, ed', fs')) :
    result = 0 ↔ ¬NoTarget fs ed.filename.toCStr := by
  rw [editorSaveFile_data] at hs
  obtain ⟨data, _, hs⟩ := bind_eq_ok.1 hs
  obtain ⟨p, hw, hs⟩ := bind_eq_ok.1 hs
  rw [← fsWriteFile_refused hw, not_not]
  split at hs
  · next hr =>
    cases hs
    exact ⟨fun _ => hr, fun _ => rfl⟩
  · next hr =>
    cases hs
    exact ⟨fun h => absurd h (by decide), fun h => absurd h hr⟩

/-- A save that returns is what it says exactly when the lines fit or the file system refuses
the file. -/
theorem saves_all_iff (hi : EditorInv ed) (hs : editorSaveFile ed fs = .ok (result, ed', fs')) :
    SavesAll ed result ed' ↔ FitsBuffer ed.buffer ∨ NoTarget fs ed.filename.toCStr := by
  have hsuccess := editorSaveFile_success hs
  have hall := hi.saves_iff
  constructor
  · rintro ⟨hdata, _⟩
    by_cases hr : result = 0
    · exact .inl (hall.1 (hdata hr))
    · exact .inr (not_not.1 fun hn => hr (hsuccess.2 hn))
  · rintro (hfits | hrefused)
    · have hshort : (joinLines ed.buffer).length < bufferSize := by
        have hsize : bufferSize = 4096 := rfl
        rcases hfits with hlt | ⟨heq, _⟩ <;> omega
      exact ⟨fun _ => hall.2 hfits, fun hlong => absurd hshort (Nat.not_lt.2 hlong)⟩
    · have hr : result ≠ 0 := fun h => hsuccess.1 h hrefused
      refine ⟨fun h => absurd h hr, fun _ => ⟨hr, ?_⟩⟩
      rcases editorSaveFile_editor hs with ⟨hz, _⟩ | ⟨_, rfl⟩
      · exact absurd hz hr
      · rfl

end

/-- Two lines of three characters each. -/
theorem saves_all_two : ∃ ed' fs', editorSaveFile (blockBuffer 2 3) (fsInit 0) = .ok (0, ed', fs') ∧
    SavesAll (blockBuffer 2 3) 0 ed' := by
  have hi : EditorInv (blockBuffer 2 3) := blockBuffer_inv (by decide) (by decide) (by decide)
  have hbuffer : (blockBuffer 2 3).buffer = [[97, 97, 97], [97, 97, 97]] :=
    blockBuffer_buffer (by decide)
  obtain ⟨fs', hw⟩ : ∃ fs', fsWriteFile (fsInit 0) (.ofString "f") [97, 97, 97, 10, 97, 97, 97] 7 =
    .ok (fsSuccess, fs') := ⟨_, rfl⟩
  have hsave : editorSaveFile (blockBuffer 2 3) (fsInit 0) =
      .ok (0, { blockBuffer 2 3 with modified := false }, fs') := by
    rw [editorSaveFile_data, hi.saved, hbuffer, ok_bind]
    exact congrArg (· >>= _) hw
  refine ⟨_, fs', hsave, (saves_all_iff hi hsave).2 (.inl ?_)⟩
  rw [hbuffer]
  exact .inl (by decide)

def longBuffer : EditorState := blockBuffer 17 255

theorem longBuffer_inv : EditorInv longBuffer := blockBuffer_inv (by decide) (by decide) (by decide)

theorem longBuffer_length : (joinLines longBuffer.buffer).length = 4351 := by
  have hbuffer : longBuffer.buffer = List.replicate 17 (List.replicate 255 97) :=
    blockBuffer_buffer (by decide)
  rw [hbuffer, List.replicate_succ, joinLines_length, ← List.replicate_succ, closedSize,
    List.map_replicate, List.sum_replicate, List.length_replicate]
  rfl

/-- The last two of the 17 lines are left out, and the save is a success. -/
theorem save_skips_lines : ∃ fs', EditorInv longBuffer ∧
    editorSaveFile longBuffer (fsInit 0) = .ok (0, { longBuffer with modified := false }, fs') ∧
    ¬SavesAll longBuffer 0 { longBuffer with modified := false } := by
  have htarget : ∀ size, writeTarget (fsInit 0) longBuffer.filename.toCStr size =
      some ⟨4, 0, writeSize size⟩ := fun _ => rfl
  have hfits : ∀ size, ¬Copy.Overflows ⟨4, 0, writeSize size⟩ := by
    intro size
    have hsize := writeSize_le size
    have hmax : maxFileSize ≤ storageSize := by decide
    change ¬storageSize < 0 + writeSize size
    omega
  obtain ⟨fs', hw⟩ := fsWriteFile_stores (by decide) (htarget _) (hfits _)
  refine ⟨fs', longBuffer_inv, ?_, fun hall => ?_⟩
  · rw [editorSaveFile_data, longBuffer_inv.saved, ok_bind, hw]
    rfl
  · exact (hall.2 (by rw [longBuffer_length]; decide)).1 rfl

end ChipOS
