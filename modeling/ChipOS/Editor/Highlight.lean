import ChipOS.Editor.Editor
import ChipOS.Lib.Markup

namespace ChipOS
open Markup Run
set_option autoImplicit true

/-- What the editor prints: text and colour markers. -/
abbrev Printed := List (Item UInt8 String)

inductive TokenType where
  | normal
  | keyword
  | comment
  | string
  | number
  | operator
  | preprocessor
  | signal
  | module
  | register
  | instruction
deriving DecidableEq, Repr

def cKeywords : List String :=
  ["auto", "break", "case", "char", "const", "continue", "default", "do",
    "double", "else", "enum", "extern", "float", "for", "goto", "if",
    "inline", "int", "long", "register", "restrict", "return", "short",
    "signed", "sizeof", "static", "struct", "switch", "typedef", "union",
    "unsigned", "void", "volatile", "while", "_Bool", "_Complex", "_Imaginary",
    "include", "define", "ifdef", "ifndef", "endif", "pragma"]

def verilogKeywords : List String :=
  ["always", "and", "assign", "begin", "buf", "bufif0", "bufif1", "case",
    "casex", "casez", "cmos", "deassign", "default", "defparam", "disable",
    "edge", "else", "end", "endcase", "endfunction", "endmodule", "endprimitive",
    "endspecify", "endtable", "endtask", "event", "for", "force", "forever",
    "fork", "function", "highz0", "highz1", "if", "ifnone", "initial", "inout",
    "input", "integer", "join", "large", "macromodule", "medium", "module",
    "nand", "negedge", "nmos", "nor", "not", "notif0", "notif1", "or", "output",
    "parameter", "pmos", "posedge", "primitive", "pull0", "pull1", "pulldown",
    "pullup", "rcmos", "real", "realtime", "reg", "release", "repeat", "rnmos",
    "rpmos", "rtran", "rtranif0", "rtranif1", "scalared", "small", "specify",
    "specparam", "strong0", "strong1", "supply0", "supply1", "table", "task",
    "time", "tran", "tranif0", "tranif1", "tri", "tri0", "tri1", "triand",
    "trior", "trireg", "vectored", "wait", "wand", "weak0", "weak1", "while",
    "wire", "wor", "xnor", "xor", "logic", "bit", "byte"]

def riscvInstructions : List String :=
  ["add", "addi", "sub", "lui", "auipc", "xor", "xori", "or", "ori", "and", "andi",
    "sll", "slli", "srl", "srli", "sra", "srai", "slt", "slti", "sltu", "sltiu",
    "beq", "bne", "blt", "bge", "bltu", "bgeu", "jal", "jalr", "lb", "lh", "lw",
    "lbu", "lhu", "sb", "sh", "sw", "fence", "fence.i", "ecall", "ebreak",
    "csrrw", "csrrs", "csrrc", "csrrwi", "csrrsi", "csrrci", "mul", "mulh",
    "mulhsu", "mulhu", "div", "divu", "rem", "remu", "lr.w", "sc.w", "amoswap.w",
    "amoadd.w", "amoxor.w", "amoand.w", "amoor.w", "amomin.w", "amomax.w",
    "amominu.w", "amomaxu.w"]

def riscvRegisters : List String :=
  ["x0", "x1", "x2", "x3", "x4", "x5", "x6", "x7", "x8", "x9", "x10", "x11",
    "x12", "x13", "x14", "x15", "x16", "x17", "x18", "x19", "x20", "x21", "x22",
    "x23", "x24", "x25", "x26", "x27", "x28", "x29", "x30", "x31",
    "zero", "ra", "sp", "gp", "tp", "t0", "t1", "t2", "s0", "s1", "a0", "a1",
    "a2", "a3", "a4", "a5", "a6", "a7", "s2", "s3", "s4", "s5", "s6", "s7",
    "s8", "s9", "s10", "s11", "t3", "t4", "t5", "t6", "fp"]

def isOneOf (table : List String) (word : List UInt8) : Bool :=
  table.any fun s => strcmp word (CStr.ofString s).bytes = 0

def isCKeyword : List UInt8 → Bool := isOneOf cKeywords

def isVerilogKeyword : List UInt8 → Bool := isOneOf verilogKeywords

def isRiscvInstruction : List UInt8 → Bool := isOneOf riscvInstructions

def isRiscvRegister : List UInt8 → Bool := isOneOf riscvRegisters

def isAlpha (c : UInt8) : Bool :=
  ('a'.toUInt8 ≤ c ∧ c ≤ 'z'.toUInt8) ∨ ('A'.toUInt8 ≤ c ∧ c ≤ 'Z'.toUInt8) ∨ c = '_'.toUInt8

def isDigit (c : UInt8) : Bool := '0'.toUInt8 ≤ c ∧ c ≤ '9'.toUInt8

def isAlnum (c : UInt8) : Bool := isAlpha c || isDigit c

/-- The longest run of such characters at the start of a line, but no more than `limit` of them,
and the rest of the line. -/
def takeRun (p : UInt8 → Bool) (limit : Nat) (line : List UInt8) : List UInt8 × List UInt8 :=
  let run := (line.take limit).takeWhile p
  (run, line.drop run.length)

def extractWord (line : List UInt8) : List UInt8 × List UInt8 := takeRun isAlnum 63 line

def editorPrintColored (text : List UInt8) : TokenType → Printed
  | .keyword => [.mark "[K]", .text text, .mark "[/K]"]
  | .comment => [.mark "[C]", .text text, .mark "[/C]"]
  | .string => [.mark "[S]", .text text, .mark "[/S]"]
  | .number => [.mark "[N]", .text text, .mark "[/N]"]
  | .register => [.mark "[R]", .text text, .mark "[/R]"]
  | .instruction => [.mark "[I]", .text text, .mark "[/I]"]
  | .preprocessor => [.mark "[P]", .text text, .mark "[/P]"]
  | _ => [.text text]

def colorMarkers : List String :=
  ["[K]", "[/K]", "[C]", "[/C]", "[S]", "[/S]", "[N]", "[/N]", "[R]", "[/R]", "[I]", "[/I]",
    "[P]", "[/P]"]

/-- The loop of `console_put_dec` with room for so many digits, and its output in order. -/
def putDecLoop : Nat → Nat → List UInt8 → Except Fault (List UInt8)
  | 0, value, digits => if value > 0 then .error (.outOfRange .digits) else .ok digits
  | room + 1, value, digits =>
    if value > 0 then putDecLoop room (value / 10) (('0'.toUInt8 + (value % 10).toUInt8) :: digits)
    else .ok digits

def consolePutDec (value : Nat) : Except Fault (List UInt8) :=
  if value = 0 then .ok ['0'.toUInt8] else putDecLoop 16 value []

/-- The number of a line and `": "`. -/
def lineHeader (lineNum : Int) : Except Fault Printed := do
  -- the increment of the largest `int` is undefined
  if lineNum < intMax then
    let digits ← consolePutDec (toU32 (lineNum + 1))
    return [.text digits, .text (CStr.ofString ": ").bytes]
  else .error .intOverflow

/-- The copy of the rest of a line into an array of `MAX_LINE_LENGTH` bytes, coloured. -/
def colorRest (line : List UInt8) (type : TokenType) : Except Fault (Printed × List UInt8) :=
  if line.length < maxLineLength then .ok (editorPrintColored line type, [])
  else .error (.outOfRange .lineCopy)

def doubleQuote : UInt8 := 34

def singleQuote : UInt8 := 39

def backslash : UInt8 := 92

/-- The inner loop of a comment, after its `/*`. -/
def blockComment : List UInt8 → Printed × List UInt8
  | [] => ([], [])
  | c :: line =>
    if c = '*'.toUInt8 ∧ line.head? = some '/'.toUInt8 then
      ([.text [c], .text ['/'.toUInt8], .mark "[/C]"], line.tail)
    else
      let (out, rest) := blockComment line
      (.text [c] :: out, rest)

/-- The inner loop of a string, up to its closing quote. -/
def stringLiteral : List UInt8 → Printed × List UInt8
  | [] => ([], [])
  | [c] => if c = doubleQuote then ([], [c]) else ([.text [c]], [])
  | c :: d :: line =>
    if c = doubleQuote then ([], c :: d :: line)
    else if c = backslash then
      let (out, rest) := stringLiteral line
      (.text [c] :: .text [d] :: out, rest)
    else
      let (out, rest) := stringLiteral (d :: line)
      (.text [c] :: out, rest)

def isDecimalDigit (c : UInt8) : Bool := isDigit c || c = '.'.toUInt8

/-- One iteration of the loop of `editor_highlight_c` on the rest of the line. A `break` leaves
nothing of it. -/
def highlightC : List UInt8 → Except Fault (Printed × List UInt8)
  | [] => .ok ([], [])
  | c :: line =>
    if c = '/'.toUInt8 ∧ line.head? = some '/'.toUInt8 then colorRest (c :: line) .comment
    else if c = '/'.toUInt8 ∧ line.head? = some '*'.toUInt8 then
      let (out, rest) := blockComment line.tail
      .ok (.mark "[C]" :: .text ['/'.toUInt8, '*'.toUInt8] :: out, rest)
    else if c = doubleQuote then
      let (out, rest) := stringLiteral line
      let close : Printed := if rest = [] then [] else [.text [doubleQuote], .mark "[/S]"]
      .ok (.mark "[S]" :: .text [doubleQuote] :: out ++ close, rest.tail)
    else if c = '#'.toUInt8 then colorRest (c :: line) .preprocessor
    else if isAlpha c then
      let (word, rest) := extractWord (c :: line)
      .ok (if isCKeyword word then editorPrintColored word .keyword else [.text word], rest)
    else if isDigit c then
      let (num, rest) := takeRun isDecimalDigit 31 (c :: line)
      .ok (editorPrintColored num .number, rest)
    else .ok ([.text [c]], line)

def isBitDigit (c : UInt8) : Bool :=
  isDigit c || c = singleQuote || c = 'b'.toUInt8 || c = 'h'.toUInt8 || c = 'd'.toUInt8 ||
    c = 'o'.toUInt8 || ('a'.toUInt8 ≤ c && c ≤ 'f'.toUInt8) || ('A'.toUInt8 ≤ c && c ≤ 'F'.toUInt8)

def highlightVerilog : List UInt8 → Except Fault (Printed × List UInt8)
  | [] => .ok ([], [])
  | c :: line =>
    if c = '/'.toUInt8 ∧ line.head? = some '/'.toUInt8 then colorRest (c :: line) .comment
    else if isAlpha c then
      let (word, rest) := extractWord (c :: line)
      .ok (if isVerilogKeyword word then editorPrintColored word .keyword else [.text word], rest)
    else if isDigit c then
      let (num, rest) := takeRun isBitDigit 63 (c :: line)
      .ok (editorPrintColored num .number, rest)
    else .ok ([.text [c]], line)

def isHexDigit (c : UInt8) : Bool :=
  isDigit c || c = 'x'.toUInt8 || ('a'.toUInt8 ≤ c && c ≤ 'f'.toUInt8) ||
    ('A'.toUInt8 ≤ c && c ≤ 'F'.toUInt8)

def highlightRiscv : List UInt8 → Except Fault (Printed × List UInt8)
  | [] => .ok ([], [])
  | c :: line =>
    if c = '#'.toUInt8 then colorRest (c :: line) .comment
    else if isAlpha c then
      let (word, rest) := extractWord (c :: line)
      .ok (if isRiscvInstruction word then editorPrintColored word .instruction
        else if isRiscvRegister word then editorPrintColored word .register
        else [.text word], rest)
    else if isDigit c || c = '-'.toUInt8 then
      if c = '-'.toUInt8 then
        let (num, rest) := takeRun isHexDigit 30 line
        .ok (editorPrintColored (c :: num) .number, rest)
      else
        let (num, rest) := takeRun isHexDigit 31 (c :: line)
        .ok (editorPrintColored num .number, rest)
    else .ok ([.text [c]], line)

/-- What the three highlighting functions print, with the loop whose iterations are `step`. -/
def highlightLine (step : List UInt8 → Except Fault (Printed × List UInt8)) (line : CStr)
    (lineNum : Int) : Except Fault Printed := do
  let header ← lineHeader lineNum
  let out ← print step .outOfFuel line.bytes.length line.bytes
  return header ++ out ++ [.text ['\n'.toUInt8]]

def editorHighlightC : CStr → Int → Except Fault Printed := highlightLine highlightC

def editorHighlightVerilog : CStr → Int → Except Fault Printed := highlightLine highlightVerilog

def editorHighlightRiscv : CStr → Int → Except Fault Printed := highlightLine highlightRiscv

def editorDisplayLine (language : Language) (lineNum : Int) (line : CStr) : Except Fault Printed :=
  match language with
  | .c => editorHighlightC line lineNum
  | .verilog | .systemVerilog => editorHighlightVerilog line lineNum
  | .riscvAsm => editorHighlightRiscv line lineNum
  | .plain | .unknown => do
    let header ← lineHeader lineNum
    return header ++ [.text line.bytes, .text ['\n'.toUInt8]]

section
variable {line : List UInt8}

theorem takeRun_append (p : UInt8 → Bool) (limit : Nat) (line : List UInt8) :
    (takeRun p limit line).1 ++ (takeRun p limit line).2 = line :=
  List.prefix_iff_eq_append.1 ((List.takeWhile_prefix p).trans (List.take_prefix limit line))

theorem takeRun_ne_nil (hp : p c = true) (hl : 0 < limit) :
    (takeRun p limit (c :: line)).1 ≠ [] := by
  obtain ⟨k, rfl⟩ : ∃ k, limit = k + 1 := ⟨limit - 1, by omega⟩
  rw [takeRun, List.take_succ_cons, List.takeWhile_cons_of_pos hp]
  exact List.cons_ne_nil _ _

@[simp]
theorem plain_printColored (text : List UInt8) (type : TokenType) :
    plain (editorPrintColored text type) = text := by
  cases type <;> exact List.append_nil text

theorem marks_printColored (text : List UInt8) (type : TokenType) :
    ∀ m ∈ marks (editorPrintColored text type), m ∈ colorMarkers := by
  cases type <;> simp only [editorPrintColored, marks_mark, marks_text, marks_nil] <;> decide

/-- What a branch of the highlighting functions comes to. -/
def ShowsColored (line : List UInt8) (r : Except Fault (Printed × List UInt8)) : Prop :=
  ∃ out rest, r = .ok (out, rest) ∧ Shows (· ∈ colorMarkers) line out rest

theorem colorRest_shows (hne : line ≠ []) (hlen : line.length < maxLineLength) :
    ShowsColored line (colorRest line type) := by
  have htext := plain_printColored line type
  refine ⟨editorPrintColored line type, [], if_pos hlen, .of_text ?_ ?_ (marks_printColored line type)⟩
  · rw [htext, List.append_nil]
  · rwa [htext]

theorem shows_char : ShowsColored (c :: line) (.ok ([.text [c]], line)) :=
  ⟨_, _, rfl, .of_text rfl (List.cons_ne_nil c _) fun _ hm => absurd hm List.not_mem_nil⟩

theorem shows_run (hp : p c = true) (hl : 0 < limit)
    (hplain : plain out = (takeRun p limit (c :: line)).1)
    (hmarks : ∀ m ∈ marks out, m ∈ colorMarkers) :
    ShowsColored (c :: line) (.ok (out, (takeRun p limit (c :: line)).2)) := by
  refine ⟨_, _, rfl, .of_text ?_ ?_ hmarks⟩
  · rw [hplain, takeRun_append]
  · rw [hplain]
    exact takeRun_ne_nil hp hl

theorem shows_number (p : UInt8 → Bool) (limit : Nat) (hp : p c = true) (hl : 0 < limit) :
    ShowsColored (c :: line) (.ok (editorPrintColored (takeRun p limit (c :: line)).1 .number,
      (takeRun p limit (c :: line)).2)) :=
  shows_run hp hl (plain_printColored _ _) (marks_printColored _ _)

theorem shows_word (halpha : isAlpha c = true)
    (hout : out = .text word :: [] ∨ ∃ type, out = editorPrintColored word type)
    (hword : word = (extractWord (c :: line)).1) :
    ShowsColored (c :: line) (.ok (out, (extractWord (c :: line)).2)) := by
  have hp : isAlnum c = true := by
    rw [isAlnum, halpha]
    rfl
  subst hword
  rcases hout with rfl | ⟨type, rfl⟩
  · exact shows_run hp (by decide) (List.append_nil _) fun _ hm => absurd hm List.not_mem_nil
  · exact shows_run hp (by decide) (plain_printColored _ _) (marks_printColored _ _)

theorem blockComment_text (line : List UInt8) :
    plain (blockComment line).1 ++ (blockComment line).2 = line := by
  induction line with
  | nil => rfl
  | cons c line ih =>
    rw [blockComment]
    split
    · next hend =>
      obtain ⟨d, line, rfl⟩ := List.exists_cons_of_ne_nil (List.ne_nil_of_mem (List.mem_of_mem_head? hend.2))
      cases hend.2
      rfl
    · exact congrArg (c :: ·) ih

theorem blockComment_marks (line : List UInt8) : ∀ m ∈ marks (blockComment line).1, m ∈ colorMarkers := by
  induction line with
  | nil => exact fun m hm => absurd hm List.not_mem_nil
  | cons c line ih =>
    rw [blockComment]
    split
    · simp only [marks_text, marks_mark, marks_nil]
      decide
    · exact ih

theorem stringLiteral_shows (line : List UInt8) :
    plain (stringLiteral line).1 ++ (stringLiteral line).2 = line ∧
      marks (stringLiteral line).1 = [] ∧
      ((stringLiteral line).2 = [] ∨ ∃ rest, (stringLiteral line).2 = doubleQuote :: rest) := by
  fun_induction stringLiteral line with
  | case1 => exact ⟨rfl, rfl, .inl rfl⟩
  | case2 => exact ⟨rfl, rfl, .inr ⟨[], rfl⟩⟩
  | case3 => exact ⟨rfl, rfl, .inl rfl⟩
  | case4 d line => exact ⟨rfl, rfl, .inr ⟨_, rfl⟩⟩
  | case5 d line out rest he hq ih =>
    rw [he] at ih
    obtain ⟨htext, hmarks, hstop⟩ := ih
    exact ⟨congrArg (backslash :: d :: ·) htext, hmarks, hstop⟩
  | case6 c d line hq hb out rest he ih =>
    rw [he] at ih
    obtain ⟨htext, hmarks, hstop⟩ := ih
    exact ⟨congrArg (c :: ·) htext, hmarks, hstop⟩

theorem shows_comment (hstar : line.head? = some '*'.toUInt8) :
    ShowsColored ('/'.toUInt8 :: line)
      (.ok (.mark "[C]" :: .text ['/'.toUInt8, '*'.toUInt8] :: (blockComment line.tail).1,
        (blockComment line.tail).2)) := by
  obtain ⟨d, line, rfl⟩ := List.exists_cons_of_ne_nil (List.ne_nil_of_mem (List.mem_of_mem_head? hstar))
  cases hstar
  refine ⟨_, _, rfl, .of_text ?_ (List.cons_ne_nil _ _) fun m hm => ?_⟩
  · exact congrArg (['/'.toUInt8, '*'.toUInt8] ++ ·) (blockComment_text line)
  · rcases List.mem_cons.1 hm with rfl | hm
    · decide
    · exact blockComment_marks line m hm

theorem shows_string (line : List UInt8) :
    ShowsColored (doubleQuote :: line)
      (.ok (.mark "[S]" :: .text [doubleQuote] :: (stringLiteral line).1 ++
        (if (stringLiteral line).2 = [] then [] else [.text [doubleQuote], .mark "[/S]"]),
        (stringLiteral line).2.tail)) := by
  obtain ⟨htext, hmarks, hstop⟩ := stringLiteral_shows line
  rcases hstop with hend | ⟨rest, hquote⟩
  · rw [hend, List.append_nil] at htext
    rw [if_pos hend, hend, List.append_nil]
    refine ⟨_, _, rfl, .of_text ?_ (List.cons_ne_nil _ _) fun m hm => ?_⟩
    · rw [plain_mark, plain_text, htext]
      exact List.append_nil _
    · rw [marks_mark, marks_text, hmarks] at hm
      cases List.mem_singleton.1 hm
      decide
  · rw [hquote] at htext
    rw [hquote, if_neg (List.cons_ne_nil _ _), List.tail_cons]
    refine ⟨_, _, rfl, .of_text ?_ (List.cons_ne_nil _ _) fun m hm => ?_⟩
    · simp only [List.cons_append, plain_mark, plain_text, plain_append, plain_nil, List.append_nil,
        List.append_assoc, List.nil_append, htext]
    · simp only [List.cons_append, marks_mark, marks_text, marks_append, hmarks, marks_nil,
        List.nil_append] at hm
      revert m
      decide

theorem highlightC_shows (hne : line ≠ []) (hlen : line.length < maxLineLength) :
    ShowsColored line (highlightC line) := by
  obtain ⟨c, line, rfl⟩ := List.exists_cons_of_ne_nil hne
  rw [highlightC]
  split
  · exact colorRest_shows hne hlen
  split
  · next hopen =>
    obtain ⟨rfl, hstar⟩ := hopen
    exact shows_comment hstar
  split
  · next hquote =>
    subst hquote
    exact shows_string line
  split
  · exact colorRest_shows hne hlen
  split
  · next halpha =>
    refine shows_word halpha ?_ rfl
    split
    · exact .inr ⟨_, rfl⟩
    · exact .inl rfl
  split
  · next hdigit => exact shows_number isDecimalDigit 31 (by simp only [isDecimalDigit, hdigit, Bool.true_or]) (by decide)
  · exact shows_char

theorem highlightVerilog_shows (hne : line ≠ []) (hlen : line.length < maxLineLength) :
    ShowsColored line (highlightVerilog line) := by
  obtain ⟨c, line, rfl⟩ := List.exists_cons_of_ne_nil hne
  rw [highlightVerilog]
  split
  · exact colorRest_shows hne hlen
  split
  · next halpha =>
    refine shows_word halpha ?_ rfl
    split
    · exact .inr ⟨_, rfl⟩
    · exact .inl rfl
  split
  · next hdigit => exact shows_number isBitDigit 63 (by simp only [isBitDigit, hdigit, Bool.true_or]) (by decide)
  · exact shows_char

theorem highlightRiscv_shows (hne : line ≠ []) (hlen : line.length < maxLineLength) :
    ShowsColored line (highlightRiscv line) := by
  obtain ⟨c, line, rfl⟩ := List.exists_cons_of_ne_nil hne
  rw [highlightRiscv]
  split
  · exact colorRest_shows hne hlen
  split
  · next halpha =>
    refine shows_word halpha ?_ rfl
    split
    · exact .inr ⟨_, rfl⟩
    split
    · exact .inr ⟨_, rfl⟩
    · exact .inl rfl
  split
  · next hnum =>
    split
    · refine ⟨_, _, rfl, .of_text ?_ ?_ (marks_printColored _ _)⟩
      · rw [plain_printColored]
        exact congrArg (c :: ·) (takeRun_append isHexDigit 30 line)
      · rw [plain_printColored]
        exact List.cons_ne_nil _ _
    · next hminus =>
      have hdigit : isDigit c = true := by simpa [hminus] using hnum
      exact shows_number isHexDigit 31 (by simp only [isHexDigit, hdigit, Bool.true_or]) (by decide)
  · exact shows_char

theorem putDecLoop_ok {value : Nat} (h : value < 10 ^ room) :
    ∃ out, putDecLoop room value digits = .ok out := by
  induction room generalizing value digits with
  | zero =>
    rw [putDecLoop, if_neg (by omega)]
    exact ⟨digits, rfl⟩
  | succ room ih =>
    rw [putDecLoop]
    split
    · apply ih
      rw [Nat.pow_succ] at h
      omega
    · exact ⟨digits, rfl⟩

theorem lineHeader_ok {lineNum : Int} (h : lineNum < intMax) :
    ∃ digits, consolePutDec (toU32 (lineNum + 1)) = .ok digits ∧
      lineHeader lineNum = .ok [.text digits, .text (CStr.ofString ": ").bytes] := by
  have hlt : toU32 (lineNum + 1) < 10 ^ 16 := by
    rw [toU32]
    omega
  have hdec : ∃ digits, consolePutDec (toU32 (lineNum + 1)) = .ok digits := by
    rw [consolePutDec]
    split
    · exact ⟨_, rfl⟩
    · exact putDecLoop_ok hlt
  obtain ⟨digits, hd⟩ := hdec
  refine ⟨digits, hd, ?_⟩
  rw [lineHeader, if_pos h, hd]
  rfl

theorem highlightLine_shows {line : CStr} {lineNum : Int}
    (hstep : ∀ line, line ≠ [] → line.length ≤ 255 → ShowsColored line (step line))
    (hlen : line.bytes.length ≤ 255) (h : lineHeader lineNum = .ok header) :
    ∃ body, highlightLine step line lineNum = .ok (header ++ body ++ [.text ['\n'.toUInt8]]) ∧
      plain body = line.bytes ∧ ∀ m ∈ marks body, m ∈ colorMarkers := by
  obtain ⟨body, hbody, hplain, hmarks⟩ := print_shows Fault.outOfFuel hstep hlen (Nat.le_refl _)
  refine ⟨body, ?_, hplain, hmarks⟩
  rw [highlightLine, h, ok_bind, hbody]
  rfl

/-- Between the number of the line and the newline, the editor prints the characters of the line,
each once and in order, and colour markers. -/
theorem highlight_lossless (language : Language) (line : CStr) (lineNum : Int)
    (hlen : line.bytes.length ≤ 255) (hnum : lineNum < intMax) :
    ∃ digits body, consolePutDec (toU32 (lineNum + 1)) = .ok digits ∧
      editorDisplayLine language lineNum line = .ok ([.text digits, .text (CStr.ofString ": ").bytes] ++
        body ++ [.text ['\n'.toUInt8]]) ∧
      plain body = line.bytes ∧ ∀ m ∈ marks body, m ∈ colorMarkers := by
  obtain ⟨digits, hd, hheader⟩ := lineHeader_ok hnum
  have hmax : maxLineLength = 256 := rfl
  cases language with
  | c =>
    obtain ⟨body, he, hbody⟩ := highlightLine_shows
      (fun line hne hl => highlightC_shows hne (by omega)) hlen hheader
    exact ⟨digits, body, hd, he, hbody⟩
  | verilog =>
    obtain ⟨body, he, hbody⟩ := highlightLine_shows
      (fun line hne hl => highlightVerilog_shows hne (by omega)) hlen hheader
    exact ⟨digits, body, hd, he, hbody⟩
  | systemVerilog =>
    obtain ⟨body, he, hbody⟩ := highlightLine_shows
      (fun line hne hl => highlightVerilog_shows hne (by omega)) hlen hheader
    exact ⟨digits, body, hd, he, hbody⟩
  | riscvAsm =>
    obtain ⟨body, he, hbody⟩ := highlightLine_shows
      (fun line hne hl => highlightRiscv_shows hne (by omega)) hlen hheader
    exact ⟨digits, body, hd, he, hbody⟩
  | plain =>
    refine ⟨digits, [.text line.bytes], hd, ?_, List.append_nil _, fun m hm => absurd hm List.not_mem_nil⟩
    rw [editorDisplayLine, hheader]
    rfl
  | unknown =>
    refine ⟨digits, [.text line.bytes], hd, ?_, List.append_nil _, fun m hm => absurd hm List.not_mem_nil⟩
    rw [editorDisplayLine, hheader]
    rfl

/-- A comment that is not closed. -/
theorem highlight_lossless_open : ∃ digits body, consolePutDec (toU32 (6 + 1)) = .ok digits ∧
    editorDisplayLine .c 6 (.ofString "x = 12 /* y") = .ok ([.text digits, .text (CStr.ofString ": ").bytes] ++
      body ++ [.text ['\n'.toUInt8]]) ∧
    plain body = (CStr.ofString "x = 12 /* y").bytes ∧ ∀ m ∈ marks body, m ∈ colorMarkers :=
  highlight_lossless .c _ 6 (by decide) (by decide)

end

end ChipOS
