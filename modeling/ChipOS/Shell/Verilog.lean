import ChipOS.Lib.Occurrences
import ChipOS.Shell.Language
import ChipOS.Shell.Syntax
import ChipOS.Strings.Strstr

namespace ChipOS
open Occurrences Run Words
set_option autoImplicit true

def beginWord : List UInt8 := (CStr.ofString "begin").bytes

def endWord : List UInt8 := (CStr.ofString "end").bytes

def endmoduleWord : List UInt8 := (CStr.ofString "endmodule").bytes

/-- The maximal runs of letters, digits and underscores. -/
def identifiers (buffer : List UInt8) : List (List UInt8) := words (!isWordChar ·) buffer

/-- The text starts with `begin`. -/
def startsBegin (ptr : List UInt8) : Bool := beginWord.isPrefixOf ptr

/-- The text starts with `end`, and not with `endmodule`. -/
def startsEnd (ptr : List UInt8) : Bool := endWord.isPrefixOf ptr && !endmoduleWord.isPrefixOf ptr

/-- The number of places in other identifiers where `begin` starts. -/
def otherBegins (buffer : List UInt8) : Nat :=
  (((identifiers buffer).filter (· != beginWord)).map (places startsBegin)).sum

/-- The number of places in other identifiers where `end` starts, and not `endmodule`. -/
def otherEnds (buffer : List UInt8) : Nat :=
  (((identifiers buffer).filter (· != endWord)).map (places startsEnd)).sum

/-- The places in other identifiers do not matter: there are as many for `begin` as for `end`, or
the identifiers `begin` and `end` differ in number, and the places do not make up for it. -/
def OthersCancel (buffer : List UInt8) : Prop :=
  otherBegins buffer = otherEnds buffer ∨
    (identifiers buffer).count beginWord ≠ (identifiers buffer).count endWord ∧
      ((identifiers buffer).count beginWord : Int) - (identifiers buffer).count endWord ≠
        otherEnds buffer - otherBegins buffer

section
variable {word ptr buffer : List UInt8} {counts : List UInt8 → Bool}

theorem countFound_places (hu : Unbordered word) (hne : word ≠ []) (h : ptr.length ≤ rounds) :
    countFound word counts rounds ptr = places (fun t => word.isPrefixOf t && counts t) ptr := by
  have hstart : ∀ t, (word.isPrefixOf t && counts t) = true → word <+: t := fun t ht =>
    List.isPrefixOf_iff_prefix.1 (Bool.and_eq_true_iff.1 ht).1
  induction rounds generalizing ptr with
  | zero =>
    cases List.eq_nil_of_length_eq_zero (Nat.le_zero.1 h)
    rw [places_nil (Bool.eq_false_iff.2 fun ht => hne (List.prefix_nil.1 (hstart [] ht)))]
    rfl
  | succ rounds ih =>
    rw [countFound]
    cases hfound : strstr ptr word with
    | none =>
      have hnone := strstr_eq_none_iff.1 hfound
      rw [places_eq_zero fun j => Bool.eq_false_iff.2 fun ht => hnone j (hstart _ ht)]
    | some found =>
      have hleast := isLeast_of_strstr hfound
      have hdrop := List.suffix_iff_eq_drop.1 (strstr_suffix hfound)
      have hle := (strstr_suffix hfound).length_le
      have hpos := List.length_pos_iff.2 hne
      have hword : word <+: found := hdrop ▸ hleast.1
      have hskip : places (fun t => word.isPrefixOf t && counts t) ptr =
          places (fun t => word.isPrefixOf t && counts t) found := by
        rw [places_skip _ (Nat.sub_le ptr.length found.length), ← hdrop]
        intro j hj
        rw [Bool.eq_false_iff]
        exact fun ht => Nat.not_le.2 hj (hleast.2 (hstart _ ht))
      have hrest := ih (show (found.drop word.length).length ≤ rounds by
        have hlen := hword.length_le
        rw [List.length_drop]
        omega)
      simp only
      rw [hskip, hu.places hne hstart hword, hrest, List.isPrefixOf_iff_prefix.2 hword, Bool.true_and]

theorem strncmp_eq_zero {as bs : List UInt8} (has : 0 ∉ as) (hbs : 0 ∉ bs) :
    strncmp as bs bs.length = 0 ↔ bs <+: as := by
  induction bs generalizing as with
  | nil =>
    cases as <;> exact iff_of_true rfl List.nil_prefix
  | cons b bs ih =>
    cases as with
    | nil =>
      refine iff_of_false (fun h => ?_) fun h => List.cons_ne_nil b bs (List.prefix_nil.1 h)
      have hz : -(b.toNat : Int) = 0 := h
      exact toNat_ne_zero hbs (by omega)
    | cons a as =>
      rw [List.length_cons, strncmp, List.cons_prefix_cons]
      split
      · next hab =>
        rw [ih (fun hm => has (List.mem_cons_of_mem a hm)) fun hm => hbs (List.mem_cons_of_mem b hm)]
        exact (and_iff_right hab.symm).symm
      · next hab =>
        refine iff_of_false (fun h => hab (UInt8.toNat_inj.1 (by omega))) fun h => hab h.1.symm

theorem no_separator (h : word.all isWordChar = true) : ∀ c ∈ word, (!isWordChar c) = false := by
  intro c hc
  rw [List.all_eq_true.1 h c hc]
  rfl

theorem within_begin : Within (!isWordChar ·) startsBegin := within_isPrefixOf (no_separator rfl)

theorem within_end : Within (!isWordChar ·) startsEnd :=
  (within_isPrefixOf (no_separator rfl)).and (within_isPrefixOf (no_separator rfl)).not

theorem countBegin_eq (buffer : List UInt8) : countBegin buffer =
    (identifiers buffer).count beginWord + otherBegins buffer := by
  have hfound : countBegin buffer = places startsBegin buffer := by
    rw [countBegin, countFound_places (by decide) (by decide) (Nat.le_refl _)]
    exact places_congr fun t _ => Bool.and_true _
  have hone : places startsBegin beginWord = 1 := by decide
  rw [hfound, places_words within_begin rfl, sum_map_count _ beginWord, hone, Nat.mul_one]
  rfl

/-- `end_count` counts the identifier `end` and the places inside others, except for the start of
`endmodule`. -/
theorem countEnd_eq (hnul : 0 ∉ buffer) : countEnd buffer =
    (identifiers buffer).count endWord + otherEnds buffer := by
  have hfound : countEnd buffer = places startsEnd buffer := by
    rw [countEnd, countFound_places (by decide) (by decide) (Nat.le_refl _)]
    refine places_congr fun t ht => congrArg _ ?_
    have hcmp : strncmp t endmoduleWord 9 = 0 ↔ endmoduleWord <+: t :=
      strncmp_eq_zero (fun hm => hnul (ht.mem hm)) (by decide)
    rw [Bool.eq_iff_iff, decide_eq_true_iff, Bool.not_eq_true', Bool.eq_false_iff, ne_eq, ne_eq,
      List.isPrefixOf_iff_prefix]
    exact not_congr hcmp
  have hone : places startsEnd endWord = 1 := by decide
  rw [hfound, places_words within_end rfl, sum_map_count _ endWord, hone, Nat.mul_one]
  rfl

theorem says_blocks (hnul : 0 ∉ buffer) :
    Says (checkVerilog buffer) "✓ Begin/end blocks balanced\n" ↔
      (identifiers buffer).count beginWord + otherBegins buffer =
        (identifiers buffer).count endWord + otherEnds buffer := by
  have hlines : Says (checkVerilog buffer) "✓ Begin/end blocks balanced\n" ↔
      countBegin buffer = countEnd buffer := by
    rw [checkVerilog]
    by_cases hequal : countBegin buffer = countEnd buffer
    · simp [hequal]
    · by_cases hmodule : (contains buffer "module" && contains buffer "endmodule") = true
      · simp [hequal, hmodule]
      · simp [hequal, hmodule]
  rw [hlines, countBegin_eq, countEnd_eq hnul]

theorem says_blocks_iff (hnul : 0 ∉ buffer) :
    (Says (checkVerilog buffer) "✓ Begin/end blocks balanced\n" ↔
      (identifiers buffer).count beginWord = (identifiers buffer).count endWord) ↔
    OthersCancel buffer := by
  rw [says_blocks hnul, OthersCancel]
  omega

end

section
variable {fs : Filesystem} {cmd filename : CStr} {rest : List CStr} {data : List UInt8}

theorem cmdSyntax_verilog (cmd : CStr) (rest : List CStr) (h : FileHas fs filename data)
    (hnul : 0 ∉ data) (hext : isVerilogExt (some (getFileExtension filename.bytes)) = true) :
    ∃ out, cmdSyntax fs (cmd :: filename :: rest) = .ok out ∧
      (Says out "✓ Begin/end blocks balanced\n" ↔
        Says (checkVerilog (readPart data)) "✓ Begin/end blocks balanced\n") := by
  have hc : ¬isCExt (some (getFileExtension filename.bytes)) = true := by
    obtain ⟨ext, hbytes⟩ : ∃ ext : CStr, ext.bytes = getFileExtension filename.bytes :=
      ⟨⟨_, no_nul_extension filename⟩, rfl⟩
    rw [← hbytes] at hext ⊢
    rw [not_isCExt hext]
    exact Bool.false_ne_true
  rw [cmdSyntax, h.readPart, ok_bind]
  simp only
  rw [if_neg (by omega), syntaxReport, if_neg hc, if_pos hext,
    takeWhile_readPart hnul]
  refine ⟨_, rfl, ?_⟩
  simp

/-- The check of a Verilog file compares the identifiers `begin` and `end` exactly if the other
places where these words start cancel out. -/
theorem blocks_counted (h : FileHas fs filename data) (hnul : 0 ∉ data)
    (hext : isVerilogExt (some (getFileExtension filename.bytes)) = true) :
    ∃ out, cmdSyntax fs (cmd :: filename :: rest) = .ok out ∧
      ((Says out "✓ Begin/end blocks balanced\n" ↔
        (identifiers (readPart data)).count beginWord = (identifiers (readPart data)).count endWord) ↔
      OthersCancel (readPart data)) := by
  obtain ⟨out, hout, hblocks⟩ := cmdSyntax_verilog cmd rest h hnul hext
  refine ⟨out, hout, ?_⟩
  rw [hblocks]
  exact says_blocks_iff (no_nul_readPart hnul)

theorem blocks_counted_pair : ∃ fs, FileHas fs (.ofString "f.v") (CStr.ofString "begin end").bytes ∧
    ∃ out, cmdSyntax fs [.ofString "syntax", .ofString "f.v"] = .ok out ∧
      ((Says out "✓ Begin/end blocks balanced\n" ↔
        (identifiers (readPart (CStr.ofString "begin end").bytes)).count beginWord =
          (identifiers (readPart (CStr.ofString "begin end").bytes)).count endWord) ↔
      OthersCancel (readPart (CStr.ofString "begin end").bytes)) := by
  obtain ⟨fs, hw⟩ : ∃ fs, fsWriteFile (fsInit 0) (.ofString "f.v") (CStr.ofString "begin end").bytes
      (CStr.ofString "begin end").bytes.length = .ok (fsSuccess, fs) := ⟨_, rfl⟩
  have hfile := fileHas_written hw (by decide)
  exact ⟨fs, hfile, blocks_counted hfile (CStr.no_nul _) (by decide)⟩

/-- The end of a `case` block is counted like that of a `begin`. -/
theorem endcase_counted : ∃ fs,
    fsWriteFile (fsInit 0) (.ofString "f.v") (CStr.ofString "begin endcase end").bytes
      (CStr.ofString "begin endcase end").bytes.length = .ok (fsSuccess, fs) ∧
    FileHas fs (.ofString "f.v") (CStr.ofString "begin endcase end").bytes ∧
    ∃ out, cmdSyntax fs [.ofString "syntax", .ofString "f.v"] = .ok out ∧
      ¬Says out "✓ Begin/end blocks balanced\n" ∧
      (identifiers (CStr.ofString "begin endcase end").bytes).count beginWord =
        (identifiers (CStr.ofString "begin endcase end").bytes).count endWord := by
  obtain ⟨fs, hw⟩ : ∃ fs, fsWriteFile (fsInit 0) (.ofString "f.v")
      (CStr.ofString "begin endcase end").bytes
      (CStr.ofString "begin endcase end").bytes.length = .ok (fsSuccess, fs) := ⟨_, rfl⟩
  have hfile := fileHas_written hw (by decide)
  obtain ⟨out, hout, hblocks⟩ :=
    cmdSyntax_verilog (.ofString "syntax") [] hfile (CStr.no_nul _) (by decide)
  refine ⟨fs, hw, hfile, out, hout, ?_, by decide⟩
  rw [hblocks]
  decide

end

end ChipOS
