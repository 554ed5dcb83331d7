import ChipOS.Editor.Editor
import ChipOS.Shell.Output

namespace ChipOS
set_option autoImplicit true

/-- The languages that the two highlighting engines tell apart. -/
inductive LanguageClass where
  | plain
  | c
  | verilog
  | riscvAsm
deriving DecidableEq, Repr

/-- What `editor_display_line` makes of the language of a file. -/
def Language.toClass : Language → LanguageClass
  | .plain | .unknown => .plain
  | .c => .c
  | .verilog | .systemVerilog => .verilog
  | .riscvAsm => .riscvAsm

/-- What the commands of the shell make of an extension. -/
def extensionClass (ext : List UInt8) : LanguageClass :=
  if isCExt (some ext) then .c
  else if isVerilogExt (some ext) then .verilog
  else if isAsmExt (some ext) then .riscvAsm
  else .plain

def shellClass (filename : CStr) : LanguageClass := extensionClass (getFileExtension filename.bytes)

/-- The language that `cmd_code` shows. -/
def languageInfo (ext : Option (List UInt8)) : List Print :=
  if isCExt ext then
    [.text "Language: C/C++\n", .text "Features: Keyword highlighting, syntax checking\n"]
  else if isVerilogExt ext then
    [.text "Language: Verilog/SystemVerilog\n",
      .text "Features: Module syntax, always block highlighting\n"]
  else if isAsmExt ext then
    [.text "Language: RISC-V Assembly\n",
      .text "Features: Instruction highlighting, register names\n"]
  else [.text "Language: Plain text\n"]

def usageCode : List Print :=
  [.text "Usage: code <filename>\n",
    .text "Advanced code editor with language-specific features\n"]

/-- What `cmd_code` prints before it starts the editor. -/
def codeBanner : List CStr → List Print
  | _ :: filename :: _ =>
    [.text "ChipOS Code Editor - ", .puts filename.bytes, .text "\n"] ++
      languageInfo (some (getFileExtension filename.bytes)) ++
      [.text "Commands: :syntax - check syntax, :help - show help\n",
        .text "         :w - save, :q - quit, :wq - save and quit\n",
        .text "========================================\n"]
  | _ => usageCode

def editorOnly : List CStr :=
  [.ofString ".cpp", .ofString ".cxx", .ofString ".cc", .ofString ".hpp", .ofString ".svh"]

def shellExtensions : List CStr :=
  [.ofString ".c", .ofString ".h", .ofString ".v", .ofString ".sv", .ofString ".s", .ofString ".asm"]

/-- The name has no extension that only the editor accepts, and is not an extension itself. -/
structure SharedName (filename : CStr) : Prop where
  shared : ∀ e ∈ editorOnly, ¬e.bytes <:+ filename.bytes
  not_bare : filename ∉ shellExtensions

section
variable {filename : CStr} {ext f rest : List UInt8}

theorem lastDot_none (h : '.'.toUInt8 ∉ f) : lastDot f = none := by
  induction f with
  | nil => rfl
  | cons c f ih =>
    rw [lastDot, ih fun hm => h (List.mem_cons_of_mem c hm)]
    have hne : c ≠ '.'.toUInt8 := by
      rintro rfl
      exact h List.mem_cons_self
    exact if_neg hne

theorem lastDot_append (pre : List UInt8) (h : '.'.toUInt8 ∉ rest) :
    lastDot (pre ++ '.'.toUInt8 :: rest) = some ('.'.toUInt8 :: rest) := by
  induction pre with
  | nil =>
    rw [List.nil_append, lastDot, lastDot_none h]
    rfl
  | cons c pre ih => rw [List.cons_append, lastDot, ih]

theorem lastDot_suffix (h : lastDot f = some ext) : ext <:+ f ∧ ext ≠ [] := by
  induction f with
  | nil => cases h
  | cons c f ih =>
    rw [lastDot] at h
    split at h
    · next hrest =>
      cases h
      exact ⟨(ih hrest).1.trans (List.suffix_cons c f), (ih hrest).2⟩
    · split at h
      · cases h
        exact ⟨List.suffix_refl _, List.cons_ne_nil c f⟩
      · cases h

theorem lastDot_eq (f : List UInt8) : lastDot f = strrchr f '.'.toUInt8 := by
  rw [strrchr, if_neg (by decide)]
  induction f with
  | nil => rfl
  | cons c f ih =>
    rw [lastDot, ih]
    rfl

theorem lastDot_of_suffix (hdot : '.'.toUInt8 ∉ rest) (h : '.'.toUInt8 :: rest <:+ f) :
    lastDot f = some ('.'.toUInt8 :: rest) := by
  obtain ⟨pre, rfl⟩ := h
  exact lastDot_append pre hdot

/-- The comparisons of `detect_language`. -/
def detectExtension (ext : List UInt8) : Language :=
  if isExt (some ext) ".c" || isExt (some ext) ".h" then .c
  else if isExt (some ext) ".cpp" || isExt (some ext) ".cxx" || isExt (some ext) ".cc" ||
    isExt (some ext) ".hpp" then .c
  else if isExt (some ext) ".v" then .verilog
  else if isExt (some ext) ".sv" || isExt (some ext) ".svh" then .systemVerilog
  else if isExt (some ext) ".s" || isExt (some ext) ".asm" then .riscvAsm
  else .plain

theorem detectLanguage_ext (hlen : 2 ≤ filename.bytes.length) (h : lastDot filename.bytes = some ext) :
    detectLanguage filename = detectExtension ext := by
  rw [detectLanguage, if_neg (by omega), h]
  rfl

theorem isExt_iff {e : String} {ext : CStr} : isExt (some ext.bytes) e = true ↔ ext = .ofString e := by
  rw [isExt, decide_eq_true_iff, strcmp_eq_zero]

theorem no_nul_extension (filename : CStr) : 0 ∉ getFileExtension filename.bytes := by
  rw [getFileExtension, ← lastDot_eq]
  cases h : lastDot filename.bytes with
  | none => exact List.not_mem_nil
  | some dot =>
    simp only
    split
    · exact List.not_mem_nil
    · exact fun hm => filename.no_nul ((lastDot_suffix h).1.mem hm)

theorem not_isCExt {ext : CStr} (h : isVerilogExt (some ext.bytes) = true) :
    isCExt (some ext.bytes) = false := by
  rw [isVerilogExt, Bool.or_eq_true, isExt_iff, isExt_iff] at h
  rcases h with rfl | rfl <;> decide

theorem detectExtension_other {ext : CStr} (h : ext ∉ editorOnly) :
    (detectExtension ext.bytes).toClass = extensionClass ext.bytes := by
  have hno : ∀ e, CStr.ofString e ∈ editorOnly → isExt (some ext.bytes) e = false := by
    intro e he
    rw [Bool.eq_false_iff, ne_eq, isExt_iff]
    rintro rfl
    exact h he
  have hcpp := hno ".cpp" (by decide)
  have hcxx := hno ".cxx" (by decide)
  have hcc := hno ".cc" (by decide)
  have hhpp := hno ".hpp" (by decide)
  have hsvh := hno ".svh" (by decide)
  rw [detectExtension, extensionClass, isCExt, isVerilogExt, isAsmExt, hcpp, hcxx, hcc, hhpp, hsvh]
  grind [Language.toClass]

theorem detectExtension_editorOnly : ∀ e ∈ editorOnly,
    (detectExtension e.bytes).toClass ≠ .plain ∧ extensionClass e.bytes = .plain := by
  decide

theorem extensionClass_plain {ext : CStr} : extensionClass ext.bytes = .plain ↔ ext ∉ shellExtensions := by
  rw [extensionClass, isCExt, isVerilogExt, isAsmExt]
  simp only [Bool.or_eq_true, isExt_iff, shellExtensions, List.mem_cons, List.not_mem_nil, or_false]
  grind

theorem detectExtension_plain {ext : CStr} : (detectExtension ext.bytes).toClass = .plain ↔
    ext ∉ editorOnly ∧ ext ∉ shellExtensions := by
  by_cases h : ext ∈ editorOnly
  · exact iff_of_false (detectExtension_editorOnly ext h).1 fun hand => hand.1 h
  · rw [detectExtension_other h, extensionClass_plain]
    exact (and_iff_right h).symm

theorem detectExtension_agrees {ext : CStr} :
    (detectExtension ext.bytes).toClass = extensionClass ext.bytes ↔ ext ∉ editorOnly := by
  by_cases h : ext ∈ editorOnly
  · obtain ⟨hne, hplain⟩ := detectExtension_editorOnly ext h
    rw [hplain]
    exact iff_of_false hne (not_not.2 h)
  · exact iff_of_true (detectExtension_other h) h

theorem extension_form : ∀ e ∈ editorOnly ++ shellExtensions,
    e.bytes.head? = some '.'.toUInt8 ∧ '.'.toUInt8 ∉ e.bytes.tail ∧ 2 ≤ e.bytes.length := by
  decide

theorem suffix_iff_lastDot {e : CStr} (he : e ∈ editorOnly ++ shellExtensions) :
    e.bytes <:+ f ↔ lastDot f = some e.bytes := by
  obtain ⟨hhead, hdot, _⟩ := extension_form e he
  refine ⟨fun h => ?_, fun h => (lastDot_suffix h).1⟩
  obtain ⟨rest, hrest⟩ := List.head?_eq_some_iff.1 hhead
  rw [hrest] at h hdot ⊢
  exact lastDot_of_suffix hdot h

theorem sharedName_iff : SharedName filename ↔
    (∀ e ∈ editorOnly, lastDot filename.bytes ≠ some e.bytes) ∧ filename ∉ shellExtensions := by
  constructor
  · rintro ⟨hshared, hbare⟩
    exact ⟨fun e he h => hshared e he (lastDot_suffix h).1, hbare⟩
  · rintro ⟨hshared, hbare⟩
    exact ⟨fun e he h => hshared e he ((suffix_iff_lastDot (List.mem_append_left _ he)).1 h), hbare⟩

theorem lastDot_shell (h : filename ∈ shellExtensions) :
    lastDot filename.bytes = some filename.bytes :=
  (suffix_iff_lastDot (List.mem_append_right _ h)).1 (List.suffix_refl _)

/-- A name without a dot. -/
theorem one_language_none (h : lastDot filename.bytes = none) :
    (detectLanguage filename).toClass = shellClass filename ∧ SharedName filename := by
  constructor
  · have hplain : detectLanguage filename = .plain := by
      rw [detectLanguage, h]
      exact ite_self _
    have hempty : Language.plain.toClass = extensionClass [] := by decide
    rw [hplain, shellClass, getFileExtension, ← lastDot_eq, h]
    exact hempty
  · rw [sharedName_iff, h]
    refine ⟨fun e _ he => (nomatch he), fun hm => ?_⟩
    cases h.symm.trans (lastDot_shell hm)

/-- A name that starts at its last dot. -/
theorem one_language_bare (h : lastDot filename.bytes = some filename.bytes) :
    (detectLanguage filename).toClass = shellClass filename ↔ SharedName filename := by
  have hshell : shellClass filename = .plain := by
    rw [shellClass, getFileExtension, ← lastDot_eq, h]
    simp only [↓reduceIte]
    decide
  have hshared : SharedName filename ↔ filename ∉ editorOnly ∧ filename ∉ shellExtensions := by
    rw [sharedName_iff, h]
    refine and_congr_left fun _ => ⟨fun hne hm => hne filename hm rfl, fun hm e he hb => ?_⟩
    exact hm (CStr.ext_bytes (Option.some.inj hb) ▸ he)
  rw [hshell, hshared]
  by_cases hlen : 2 ≤ filename.bytes.length
  · rw [detectLanguage_ext hlen h, detectExtension_plain]
  · have hplain : detectLanguage filename = .plain := if_pos (Nat.lt_of_not_le hlen)
    rw [hplain]
    refine iff_of_true rfl ⟨fun hm => hlen ?_, fun hm => hlen ?_⟩
    · exact (extension_form filename (List.mem_append_left _ hm)).2.2
    · exact (extension_form filename (List.mem_append_right _ hm)).2.2

/-- A name with something before its last dot. -/
theorem one_language_named {ext : CStr} (h : lastDot filename.bytes = some ext.bytes)
    (hne : ext.bytes.length ≠ filename.bytes.length) :
    (detectLanguage filename).toClass = shellClass filename ↔ SharedName filename := by
  obtain ⟨hsuffix, hnil⟩ := lastDot_suffix h
  have hlen : 2 ≤ filename.bytes.length := by
    have hle := hsuffix.length_le
    have hpos := List.length_pos_iff.2 hnil
    omega
  have hshell : shellClass filename = extensionClass ext.bytes := by
    rw [shellClass, getFileExtension, ← lastDot_eq, h]
    simp only
    rw [if_neg hne]
  have hbare : filename ∉ shellExtensions := by
    intro hm
    have hall : ext.bytes = filename.bytes := Option.some.inj (h.symm.trans (lastDot_shell hm))
    exact hne (congrArg List.length hall)
  rw [hshell, detectLanguage_ext hlen h, detectExtension_agrees, sharedName_iff, h,
    and_iff_left hbare]
  refine ⟨fun hm e he hb => ?_, fun hno hm => hno ext hm rfl⟩
  exact hm (CStr.ext_bytes (Option.some.inj hb) ▸ he)

/-- The editor and the shell take a file for the same language unless its name ends in an extension
that only the editor accepts, or is nothing but an extension. -/
theorem one_language (filename : CStr) :
    (detectLanguage filename).toClass = shellClass filename ↔ SharedName filename := by
  cases h : lastDot filename.bytes with
  | none =>
    obtain ⟨hclass, hshared⟩ := one_language_none h
    exact iff_of_true hclass hshared
  | some bytes =>
    have hsuffix := (lastDot_suffix h).1
    by_cases hall : bytes.length = filename.bytes.length
    · rw [hsuffix.eq_of_length hall] at h
      exact one_language_bare h
    · obtain ⟨ext, rfl⟩ : ∃ ext : CStr, ext.bytes = bytes :=
        ⟨⟨bytes, fun hm => filename.no_nul (hsuffix.mem hm)⟩, rfl⟩
      exact one_language_named h hall

/-- The file `a.cpp` is C in the editor, and plain text in the shell. -/
theorem cpp_only_editor :
    (detectLanguage (.ofString "a.cpp")).toClass ≠ shellClass (.ofString "a.cpp") ∧
    (detectLanguage (.ofString "a.cpp")).toClass = .c ∧ shellClass (.ofString "a.cpp") = .plain ∧
    Says (codeBanner [.ofString "code", .ofString "a.cpp"]) "Language: Plain text\n" := by
  decide

end

end ChipOS
