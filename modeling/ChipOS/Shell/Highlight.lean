import ChipOS.Editor.Highlight
import ChipOS.Lib.Words

namespace ChipOS
open Markup Words
set_option autoImplicit true

def ansiColorGreen : String := "\x1b[32m"
def ansiColorBlue : String := "\x1b[34m"
def ansiColorCyan : String := "\x1b[36m"
def ansiColorBrightBlue : String := "\x1b[94m"
def ansiColorBrightMagenta : String := "\x1b[95m"
def ansiColorBrightCyan : String := "\x1b[96m"
def ansiColorReset : String := "\x1b[0m"

def asmKeywords : List String :=
  ["add", "sub", "mul", "div", "and", "or", "xor", "sll", "srl", "sra",
    "beq", "bne", "blt", "bge", "bltu", "bgeu", "jal", "jalr", "lui", "auipc",
    "lb", "lh", "lw", "lbu", "lhu", "sb", "sh", "sw", "addi", "slti", "sltiu",
    "xori", "ori", "andi", "slli", "srli", "srai", "fence", "ecall", "ebreak",
    ".text", ".data", ".bss", ".section", ".global", ".word", ".byte", ".ascii",
    ".string", ".align", "nop", "mv", "li", "la", "ret", "j", "jr",
    "x0", "x1", "x2", "x3", "x4", "x5", "x6", "x7", "x8", "x9",
    "x10", "x11", "x12", "x13", "x14", "x15", "x16", "x17", "x18", "x19",
    "x20", "x21", "x22", "x23", "x24", "x25", "x26", "x27", "x28", "x29",
    "x30", "x31", "zero", "ra", "sp", "gp", "tp", "t0", "t1", "t2",
    "s0", "fp", "s1", "a0", "a1", "a2", "a3", "a4", "a5", "a6", "a7",
    "s2", "s3", "s4", "s5", "s6", "s7", "s8", "s9", "s10", "s11",
    "t3", "t4", "t5", "t6"]

def isAsmKeyword : List UInt8 → Bool := isOneOf asmKeywords

/-- `ext && strcmp(ext, s) == 0` -/
def isExt (ext : Option (List UInt8)) (s : String) : Bool :=
  match ext with
  | none => false
  | some ext => strcmp ext (CStr.ofString s).bytes = 0

def isCExt (ext : Option (List UInt8)) : Bool := isExt ext ".c" || isExt ext ".h"

def isVerilogExt (ext : Option (List UInt8)) : Bool := isExt ext ".v" || isExt ext ".sv"

def isAsmExt (ext : Option (List UInt8)) : Bool := isExt ext ".s" || isExt ext ".asm"

/-- The name from its last dot on, unless it starts there. -/
def getFileExtension (filename : List UInt8) : List UInt8 :=
  match strrchr filename '.'.toUInt8 with
  | none => []
  | some dot => if dot.length = filename.length then [] else dot

/-- Text between a colour code and the reset code. -/
def ansiColored (color : String) (text : List UInt8) : Printed :=
  [.mark color, .text text, .mark ansiColorReset]

def highlightWord (word : List UInt8) (ext : Option (List UInt8)) : Printed :=
  if isCExt ext then
    if isCKeyword word then ansiColored ansiColorBrightBlue word else [.text word]
  else if isVerilogExt ext then
    if isVerilogKeyword word then ansiColored ansiColorBrightMagenta word else [.text word]
  else if isAsmExt ext then
    if isAsmKeyword word then ansiColored ansiColorBrightCyan word else [.text word]
  else [.text word]

def isWordChar (c : UInt8) : Bool :=
  ('a'.toUInt8 ≤ c ∧ c ≤ 'z'.toUInt8) ∨ ('A'.toUInt8 ≤ c ∧ c ≤ 'Z'.toUInt8) ∨
    ('0'.toUInt8 ≤ c ∧ c ≤ '9'.toUInt8) ∨ c = '_'.toUInt8

def isAsmWordChar (c : UInt8) : Bool := isWordChar c || c = '.'.toUInt8

def flushWord (ext : Option (List UInt8)) (word : List UInt8) : Printed :=
  if word = [] then [] else highlightWord word ext

/-- The word-by-word loop, with what is in its buffer of 63 characters and a NUL. -/
def highlightWords (p : UInt8 → Bool) (ext : Option (List UInt8)) (word : List UInt8) :
    List UInt8 → Printed
  | [] => flushWord ext word
  | c :: line =>
    if p c then highlightWords p ext (if word.length < 63 then word ++ [c] else word) line
    else flushWord ext word ++ .text [c] :: highlightWords p ext [] line

/-- The code before a comment, and the comment. -/
def highlightComment (line comment : List UInt8) : Printed :=
  .text (line.take (line.length - comment.length)) :: ansiColored ansiColorBlue comment

/-- `strstr(line, s)` as a condition. -/
def contains (line : List UInt8) (s : String) : Bool := (strstr line (CStr.ofString s).bytes).isSome

def hasDirective (line : List UInt8) : Bool :=
  contains line "#include" || contains line "#define" || contains line "#ifndef" ||
    contains line "#ifdef" || contains line "#endif" || contains line "#pragma"

/-- What `display_line_with_highlighting` prints between the indentation and the newline. -/
def displayLine (line : List UInt8) (ext : Option (List UInt8)) : Printed :=
  if isCExt ext then
    if hasDirective line then ansiColored ansiColorCyan line
    else
      match strstr line (CStr.ofString "//").bytes with
      | some comment => highlightComment line comment
      | none =>
        if contains line "/*" || contains line "*/" || contains line " * " then
          ansiColored ansiColorBlue line
        else if (strstr line [doubleQuote]).isSome && !contains line "//" then
          ansiColored ansiColorGreen line
        else highlightWords isWordChar ext [] line
  else if isVerilogExt ext then
    match strstr line (CStr.ofString "//").bytes with
    | some comment => highlightComment line comment
    | none =>
      if contains line "/*" || contains line "*/" then ansiColored ansiColorBlue line
      else highlightWords isWordChar ext [] line
  else if isAsmExt ext then
    match (strstr line (CStr.ofString "#").bytes).or (strstr line (CStr.ofString ";").bytes) with
    | some comment => highlightComment line comment
    | none => highlightWords isAsmWordChar ext [] line
  else [.text line]

def displayLineWithHighlighting (line : List UInt8) (ext : Option (List UInt8)) : Printed :=
  .text (CStr.ofString "    ").bytes :: displayLine line ext ++ [.text ['\n'.toUInt8]]

/-- The characters of a word in a file with this extension. -/
def wordChar (ext : Option (List UInt8)) : UInt8 → Bool :=
  if isCExt ext || isVerilogExt ext then isWordChar else isAsmWordChar

/-- The line has no part that gets a colour as a whole, so it is shown word by word. -/
def shownByWords (line : List UInt8) (ext : Option (List UInt8)) : Bool :=
  if isCExt ext then
    !hasDirective line && !contains line "//" && !contains line "/*" && !contains line "*/" &&
      !contains line " * " && !(strstr line [doubleQuote]).isSome
  else if isVerilogExt ext then
    !contains line "//" && !contains line "/*" && !contains line "*/"
  else if isAsmExt ext then !contains line "#" && !contains line ";"
  else false

section
variable {line word : List UInt8} {ext : Option (List UInt8)} {p : UInt8 → Bool}

@[simp]
theorem plain_ansiColored : plain (ansiColored color word) = word := List.append_nil word

@[simp]
theorem plain_highlightWord : plain (highlightWord word ext) = word := by
  have htext : plain ([.text word] : Printed) = word := List.append_nil word
  rw [highlightWord]
  split
  · split
    · exact plain_ansiColored
    · exact htext
  split
  · split
    · exact plain_ansiColored
    · exact htext
  split
  · split
    · exact plain_ansiColored
    · exact htext
  · exact htext

@[simp]
theorem plain_flushWord : plain (flushWord ext word) = word := by
  rw [flushWord]
  split
  · next hnil => exact hnil.symm
  · exact plain_highlightWord

theorem plain_highlightComment (h : comment <:+ line) :
    plain (highlightComment line comment) = line := by
  rw [highlightComment, plain_text, plain_ansiColored]
  exact (List.suffix_iff_eq_append.1 h)

theorem highlightWords_length : (plain (highlightWords p ext word line)).length ≤
    word.length + line.length := by
  induction line generalizing word with
  | nil =>
    rw [highlightWords, plain_flushWord]
    exact Nat.le_refl _
  | cons c line ih =>
    rw [highlightWords, List.length_cons]
    split
    · split
      · have hrec : (plain (highlightWords p ext (word ++ [c]) line)).length ≤
            (word ++ [c]).length + line.length := ih
        rw [List.length_append, List.length_singleton] at hrec
        omega
      · have hrec : (plain (highlightWords p ext word line)).length ≤ word.length + line.length := ih
        omega
    · have hrec : (plain (highlightWords p ext [] line)).length ≤
          ([] : List UInt8).length + line.length := ih
      rw [plain_append, plain_flushWord, plain_text, List.length_append, List.length_append,
        List.length_singleton]
      rw [List.length_nil] at hrec
      omega

/-- A word of more than 63 characters is cut, and no other. -/
theorem highlightWords_iff (hp : ∀ c ∈ word, p c = true) (hlen : word.length ≤ 63) :
    plain (highlightWords p ext word line) = word ++ line ↔
      ∀ w ∈ words (!p ·) (word ++ line), w.length ≤ 63 := by
  have hword : ∀ c ∈ word, (!p c) = false := fun c hc => by rw [hp c hc]; rfl
  induction line generalizing word with
  | nil =>
    rw [highlightWords, plain_flushWord, List.append_nil]
    refine iff_of_true rfl fun w hw => ?_
    rwa [mem_words_single hword hw]
  | cons c line ih =>
    rw [highlightWords]
    by_cases hc : p c = true
    · rw [if_pos hc]
      have hsnoc : ∀ d ∈ word ++ [c], p d = true := by
        intro d hd
        rcases List.mem_append.1 hd with hd | hd
        · exact hp d hd
        · exact List.mem_singleton.1 hd ▸ hc
      by_cases hroom : word.length < 63
      · have hrec := ih hsnoc (by rw [List.length_append, List.length_singleton]; omega)
          fun d hd => by rw [hsnoc d hd]; rfl
        have hassoc : word ++ c :: line = word ++ [c] ++ line := List.append_cons word c line
        rw [if_pos hroom, hassoc]
        exact hrec
      · rw [if_neg hroom]
        have hcut : (plain (highlightWords p ext word line)).length ≤ word.length + line.length :=
          highlightWords_length
        refine iff_of_false (fun he => ?_) fun hall => ?_
        · have hl := congrArg List.length he
          rw [List.length_append, List.length_cons] at hl
          omega
        · -- the word in the buffer and `c` belong to one word
          have hrun : ∀ d ∈ word ++ [c], (!p d) = false := fun d hd => by rw [hsnoc d hd]; rfl
          have hne : word ++ [c] ≠ [] := List.append_ne_nil_of_right_ne_nil _ (List.cons_ne_nil c [])
          obtain ⟨w, hw, hle⟩ := exists_word_of_run hrun hne line
          have hassoc : word ++ [c] ++ line = word ++ c :: line := (List.append_cons word c line).symm
          rw [hassoc] at hw
          have hshort := hall w hw
          rw [List.length_append, List.length_singleton] at hle
          omega
    · have hsep : (!p c) = true := by rw [Bool.eq_false_iff.2 hc]; rfl
      have hrec : plain (highlightWords p ext [] line) = line ↔
          ∀ w ∈ words (!p ·) line, w.length ≤ 63 :=
        ih (fun _ hm => absurd hm List.not_mem_nil) (Nat.zero_le _)
          fun _ hm => absurd hm List.not_mem_nil
      rw [if_neg hc, plain_append, plain_flushWord, plain_text, words_append (p := (!p ·)) hsep]
      constructor
      · intro he w hw
        rcases List.mem_append.1 hw with hw | hw
        · rwa [mem_words_single hword hw]
        · exact hrec.1 (List.append_cancel_left (List.append_cancel_left he)) w hw
      · intro hall
        rw [hrec.2 fun w hw => hall w (List.mem_append_right _ hw)]
        rfl

theorem highlightWords_line : plain (highlightWords p ext [] line) = line ↔
    ∀ w ∈ words (!p ·) line, w.length ≤ 63 :=
  highlightWords_iff (fun _ hm => absurd hm List.not_mem_nil) (Nat.zero_le _)

theorem contains_eq : contains line s = (strstr line (CStr.ofString s).bytes).isSome := rfl

theorem displayLine_whole (h : shownByWords line ext = false) :
    plain (displayLine line ext) = line := by
  have htext : plain ([.text line] : Printed) = line := List.append_nil line
  rw [shownByWords] at h
  rw [displayLine]
  split
  · next hext =>
    rw [if_pos hext] at h
    split
    · exact plain_ansiColored
    next hdir =>
    split
    · next hfound => exact plain_highlightComment (strstr_suffix hfound)
    next hfound =>
    have hcomment : contains line "//" = false := by rw [contains_eq, hfound]; rfl
    split
    · exact plain_ansiColored
    next hblock =>
    split
    · exact plain_ansiColored
    next hquote =>
    simp_all
  split
  · next hext hext' =>
    rw [if_neg hext, if_pos hext'] at h
    split
    · next hfound => exact plain_highlightComment (strstr_suffix hfound)
    next hfound =>
    have hcomment : contains line "//" = false := by rw [contains_eq, hfound]; rfl
    split
    · exact plain_ansiColored
    next hblock =>
    simp_all
  split
  · next hext hext' hext'' =>
    rw [if_neg hext, if_neg hext', if_pos hext''] at h
    split
    · next hfound =>
      rcases Option.or_eq_some_iff.1 hfound with hfound | ⟨_, hfound⟩
      · exact plain_highlightComment (strstr_suffix hfound)
      · exact plain_highlightComment (strstr_suffix hfound)
    next hfound =>
    obtain ⟨hhash, hsemi⟩ := Option.or_eq_none_iff.1 hfound
    simp_all [contains_eq]
  · exact htext

theorem strstr_eq_none (h : contains line s = false) : strstr line (CStr.ofString s).bytes = none :=
  Option.isSome_eq_false_iff.1 h |> Option.isNone_iff_eq_none.1

theorem displayLine_words (h : shownByWords line ext = true) :
    displayLine line ext = highlightWords (wordChar ext) ext [] line := by
  rw [shownByWords] at h
  rw [displayLine, wordChar]
  split
  · next hext =>
    rw [if_pos hext] at h
    simp only [Bool.and_eq_true, Bool.not_eq_true'] at h
    obtain ⟨⟨⟨⟨⟨hdir, hcomment⟩, hopen⟩, hclose⟩, hstar⟩, hquote⟩ := h
    rw [strstr_eq_none hcomment]
    simp [hdir, hopen, hclose, hstar, hquote, hext]
  split
  · next hext hext' =>
    rw [if_neg hext, if_pos hext'] at h
    simp only [Bool.and_eq_true, Bool.not_eq_true'] at h
    obtain ⟨⟨hcomment, hopen⟩, hclose⟩ := h
    rw [strstr_eq_none hcomment]
    simp [hopen, hclose, hext']
  split
  · next hext hext' hext'' =>
    rw [if_neg hext, if_neg hext', if_pos hext''] at h
    simp only [Bool.and_eq_true, Bool.not_eq_true'] at h
    rw [strstr_eq_none h.1, strstr_eq_none h.2]
    simp [hext, hext']
  · next hext hext' hext'' =>
    rw [if_neg hext, if_neg hext', if_neg hext''] at h
    cases h

/-- Without its colour codes, the output for a line is the line after four spaces, except that a
line shown word by word loses what its words have beyond 63 characters. -/
theorem display_lossless (line : List UInt8) (ext : Option (List UInt8)) :
    plain (displayLineWithHighlighting line ext) =
        (CStr.ofString "    ").bytes ++ line ++ ['\n'.toUInt8] ↔
      (shownByWords line ext = true → ∀ w ∈ words (!wordChar ext ·) line, w.length ≤ 63) := by
  have hsplit : plain (displayLineWithHighlighting line ext) =
      (CStr.ofString "    ").bytes ++ plain (displayLine line ext) ++ ['\n'.toUInt8] := by
    rw [displayLineWithHighlighting, List.cons_append, plain_text, plain_append, List.append_assoc]
    rfl
  rw [hsplit, List.append_left_inj, List.append_right_inj]
  by_cases h : shownByWords line ext = true
  · rw [displayLine_words h, highlightWords_line]
    exact ⟨fun hw _ => hw, fun hw => hw h⟩
  · rw [displayLine_whole (Bool.eq_false_iff.2 h)]
    exact iff_of_true rfl fun h' => absurd h' h

/-- A word of 64 characters in a `.c` file loses its last one. -/
theorem display_loses_char : (List.replicate 64 'a'.toUInt8).length ≤ 255 ∧
    0 ∉ List.replicate 64 'a'.toUInt8 ∧
    plain (displayLineWithHighlighting (List.replicate 64 'a'.toUInt8)
        (some (getFileExtension (CStr.ofString "a.c").bytes))) ≠
      (CStr.ofString "    ").bytes ++ List.replicate 64 'a'.toUInt8 ++ ['\n'.toUInt8] := by
  decide +kernel

end

end ChipOS
