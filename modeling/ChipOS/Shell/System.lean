import ChipOS.Memory.Heap
import ChipOS.Shell.Output

namespace ChipOS
set_option autoImplicit true

def cmdHelp : List Print :=
  [.text "\nChipOS Multi-Language Development Shell\n",
    .text "======================================\n",
    .text "\nFile Operations:\n",
    .text "  ls [dir]     - List directory contents\n",
    .text "  cd <dir>     - Change directory\n",
    .text "  pwd          - Print working directory\n",
    .text "  mkdir <dir>  - Create directory\n",
    .text "  rmdir <dir>  - Remove directory\n",
    .text "  rm <file>    - Remove file\n",
    .text "  touch <file> - Create empty file\n",
    .text "  cat <file>   - Display file with syntax highlighting\n",
    .text "  code <file>  - Open file in VIM-style advanced editor\n",
    .text "\nSystem Commands:\n",
    .text "  about        - Show system information\n",
    .text "  mem          - Show memory usage\n",
    .text "  calc <expr>  - Simple calculator\n",
    .text "  clear        - Clear screen\n",
    .text "  echo <text>  - Echo text\n",
    .text "  colortest    - Test color support\n",
    .text "  panic        - Trigger kernel panic (testing)\n",
    .text "\nSupported Languages:\n",
    .text "  .c, .h       - C/C++ with keyword highlighting\n",
    .text "  .v, .sv      - Verilog/SystemVerilog\n",
    .text "  .s, .asm     - RISC-V Assembly\n",
    .text "\n"]

def cmdAbout : List Print :=
  [.text "\nChipOS\n",
    .text "==================================================\n",
    .text "\n",
    .text "Features:\n",
    .text "• Multi-language syntax highlighting (C, Verilog, Assembly)\n",
    .text "• Advanced text editors with language-aware features\n",
    .text "• Integrated development environment\n",
    .text "• Hardware design workflow support\n",
    .text "• RISC-V native execution environment\n",
    .text "\n",
    .text "Target: RISC-V architecture\n",
    .text "Built for: Hardware prototyping and education\n",
    .text "\n"]

/-- What `memory_print_info` calls, as commands print. -/
def ConsoleOut.print : ConsoleOut → Print
  | puts text => .text text
  | putHex value => .putHex (BitVec.ofNat 32 value)

def cmdMem (heap : Heap) : List Print := (memoryPrintInfo heap).map ConsoleOut.print

def cmdClear : List Print := [.text "\x1b[2J\x1b[H", .text "ChipOS\n"]

/-- The loop of `cmd_echo`. -/
def echoLoop : List CStr → List Print
  | [] => []
  | [arg] => [.puts arg.bytes]
  | arg :: args => .puts arg.bytes :: .text " " :: echoLoop args

def cmdEcho (argv : List CStr) : List Print := echoLoop argv.tail ++ [.text "\n"]

def cmdPanic : Except Fault (List Print) :=
  .error (.panic "User requested panic via shell command")

def ansiColorRed : String := "\x1b[31m"
def ansiColorYellow : String := "\x1b[33m"
def ansiColorMagenta : String := "\x1b[35m"
def ansiColorBrightGreen : String := "\x1b[92m"
def ansiColorBrightYellow : String := "\x1b[93m"
def ansiColorBrightRed : String := "\x1b[91m"

def colorLine (color name : String) : Print := .text (color ++ name ++ ansiColorReset ++ "\n")

def exampleLines (ext : String) (lines : List String) : List Print :=
  lines.map fun line => .showLine (CStr.ofString line).bytes (CStr.ofString ext).bytes

def cmdColortest : List Print :=
  [.text "\nTesting Multi-Language Syntax Colors:\n",
    .text "=====================================\n",
    colorLine ansiColorRed "Red (errors/warnings)",
    colorLine ansiColorGreen "Green (strings/literals)",
    colorLine ansiColorYellow "Yellow (control structures)",
    colorLine ansiColorBlue "Blue (comments)",
    colorLine ansiColorMagenta "Magenta (flow control)",
    colorLine ansiColorCyan "Cyan (preprocessor/directives)",
    colorLine ansiColorBrightGreen "Bright Green (C types)",
    colorLine ansiColorBrightBlue "Bright Blue (C keywords)",
    colorLine ansiColorBrightYellow "Bright Yellow (numbers)",
    colorLine ansiColorBrightRed "Bright Red (operators)",
    colorLine ansiColorBrightMagenta "Bright Magenta (Verilog keywords)",
    colorLine ansiColorBrightCyan "Bright Cyan (Assembly keywords)",
    .text "\nSyntax Highlighting Examples:\n", .text "C Code:\n"] ++
  exampleLines ".c" ["int main() \x7b", "    printf(\"Hello World\"); // Comment", "    return 0;",
    "\x7d"] ++
  [.text "\nVerilog Code:\n"] ++
  exampleLines ".v" ["module test (", "    input clk, // Clock signal", "    output reg out", ");",
    "always @(posedge clk) begin", "    out <= ~out;", "end", "endmodule"] ++
  [.text "\nRISC-V Assembly:\n"] ++
  exampleLines ".s" [".text", "main:", "    addi a0, zero, 10  # Load immediate",
    "    jal ra, func       # Jump and link", "    ret                # Return"]

def cmdExit : List Print := [.text "Goodbye!\n"]

def cmdQuit : List Print := cmdExit

end ChipOS
