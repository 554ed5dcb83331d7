import ChipOS.Memory.Delivery
import ChipOS.Shell.Prompt
import Mathlib.Order.CompletePartialOrder

namespace ChipOS
open ByteMemory CharArray Run
set_option autoImplicit true

/-- What `kernel_main` finds in the machine: where `heap_memory` is, the registers, and the
addresses of the linker script. -/
structure Machine where
  heapBase : HeapBase
  hartId : Nat
  misa : Nat
  bssStart : Nat
  bssEnd : Nat
  kernelEnd : Nat
  stackTop : Nat

/-- `console_println` of a literal. -/
def printLine (str : String) : Print := .text (str ++ "\n")

/-- `console_put_hex` of a value that is cut to an `unsigned int`. -/
def putWord (value : Nat) : Print := .putHex (BitVec.ofNat 32 value)

def memset (B : HeapBase) (value : Nat) : Nat → Mem → Nat → Except Fault Mem
  | 0, m, _ => .ok m
  | num + 1, m, p => do
    let m ← writeField B m p 1 value
    memset B value num m (p + 1)

def allocatedLine (name : String) (ptr : Nat) : List Print := [.text name, putWord ptr, .text "\n"]

def allocatorReport (ptr1 ptr2 ptr3 : Nat) : List Print :=
  [printLine "\n--- Testing Memory Allocator ---"] ++ allocatedLine "allocated ptr1: " ptr1 ++
    allocatedLine "allocated ptr2: " ptr2 ++ allocatedLine "allocated ptr3: " ptr3 ++
    (if ptr1 ≠ 0 then [printLine "Wrote test pattern to ptr1"] else []) ++
    [printLine "Freed ptr2", printLine "Memory allocator test completed"]

/-- `test_memory_allocator`: what it prints, and the heap after it. -/
def testMemoryAllocator (B : HeapBase) (h : Heap) : Except Fault (List Print × Heap) := do
  let (ptr1, h) ← kmalloc B h 64
  let (ptr2, h) ← kmalloc B h 128
  let (ptr3, h) ← kmalloc B h 256
  let mem ← (if ptr1 ≠ 0 then memset B 0xAA 64 h.mem ptr1 else .ok h.mem)
  let h ← kfree B { h with mem } ptr2
  let h ← kfree B h ptr1
  let h ← kfree B h ptr3
  return (allocatorReport ptr1 ptr2 ptr3, h)

/-- What `test_input_output` prints, without the echo. -/
def inputOutputReport (testBuffer : List UInt8) : List Print :=
  [printLine "\n--- Testing Input/Output ---", printLine "Testing keyboard input...",
    .text "Type something and press Enter: "] ++
  [.text "You typed: '", .puts testBuffer, printLine "'"] ++
  [printLine "Input/Output test completed!"]

/-- `test_input_output`: what it prints and the input that it leaves, or `none` while it waits. -/
def testInputOutput (typed : List UInt8) : Option (List Print × List UInt8) :=
  (consoleGets 64 typed).map fun (testBuffer, left) => (inputOutputReport testBuffer, left)

def kernelPrintBanner : List Print :=
  [printLine "=================================", printLine "        ChipOS       ",
    printLine "================================="]

/-- The letters of `misa` that `kernel_main` knows. -/
def extensions : List (Nat × String) :=
  [(0, "A "), (2, "C "), (3, "D "), (5, "F "), (8, "I "), (12, "M "), (18, "S "), (20, "U ")]

/-- The first half of what `kernel_main` prints after `fs_init`. -/
def systemInformation (k : Machine) : List Print :=
  kernelPrintBanner ++ [printLine "RISC-V kernel loaded successfully",
    printLine "\n--- System Information ---", .text "Hart ID: ", putWord k.hartId, .text "\n",
    .text "MISA (ISA info): ", putWord k.misa, .text "\n", .text "Supported extensions: "] ++
  (extensions.filter fun e => k.misa.testBit e.1).map (fun e => .text e.2) ++
  [.text "\n", printLine "\n--- Memory Layout ---", .text "BSS section: ", putWord k.bssStart,
    .text " - ", putWord k.bssEnd, .text "\n", .text "Kernel end: ", putWord k.kernelEnd, .text "\n",
    .text "Stack top: ", putWord k.stackTop, .text "\n"]

def shellInit : List Print :=
  [printLine "\n=== Welcome to ChipOS Shell ===", printLine "Multi-Language Development Environment",
    printLine "Supports: C, Verilog/SystemVerilog, RISC-V Assembly",
    printLine "Type 'help' for available commands"]

/-- What `kernel_main` prints behind `fs_init`, with what the tests print. -/
def kernelReport (k : Machine) (fileCount currentDir nextFileId : List UInt8)
    (allocator inputOutput : List Print) : List Print :=
  [.text "[DEBUG] fs_init() called\n",
    .text "[DEBUG] Filesystem state before shell: file_count=", .puts fileCount,
    .text ", current_dir=", .puts currentDir, .text ", next_file_id=", .puts nextFileId,
    .text "\n"] ++ systemInformation k ++ allocator ++ inputOutput ++
  ([printLine "\n--- Starting Interactive Shell ---"] ++ shellInit)

/-- `kernel_main` up to `shell_run`, from what the allocator, the file system and the stack held
before: what it prints, without the messages of the initialisations, the kernel when `shell_run` is
called, and the input that is left. -/
def kernelMain (k : Machine) (ram : Heap) (systemTime : Nat) (stack : Chars) (typed : List UInt8) :
    Except Stop (List Print × Shell × List UInt8) := do
  let fs := fsInit systemTime
  let fileCount ← stops (itoaText (asInt fs.fileCount) 10)
  let currentDir ← stops (itoaText (asInt fs.currentDir) 10)
  let nextFileId ← stops (itoaText (asInt fs.nextFileId) 10)
  let (allocator, heap) ← stops (testMemoryAllocator k.heapBase (memoryInit k.heapBase ram))
  match testInputOutput typed with
  | none => .error .waits
  | some (inputOutput, left) =>
    return (kernelReport k fileCount currentDir nextFileId allocator inputOutput,
      ⟨.empty, stack, heap, fs⟩, left)

/-- What a call of `kmalloc` adds to the live allocations. -/
def Adds (size p : Nat) (new : Set Allocation) : Prop :=
  p = 0 ∧ new = ∅ ∨ p ≠ 0 ∧ ∃ n, requestSize size ≤ n ∧ new = {⟨p, n⟩}

section
variable {B : HeapBase} {live new rest : Set Allocation} {h : Heap}

theorem HeapRun.adds (hr : HeapRun B AnyOp live h) (size : Nat) :
    ∃ p h' new, ChipOS.kmalloc B h size = .ok (p, h') ∧ HeapRun B AnyOp (new ∪ live) h' ∧
      Disjoint new live ∧ Adds size p new := by
  obtain ⟨ss, hi⟩ := hr.inv
  rcases hi.kmalloc size with
    ⟨hk, _⟩ | ⟨pre, s, post, b, n, h', rfl, hsf, hle, rfl, rfl, hk, hsize, _, _⟩
  · refine ⟨0, h, ∅, hk, ?_, Set.empty_disjoint live, .inl ⟨rfl, rfl⟩⟩
    rw [Set.empty_union]
    exact .kmallocNull hr trivial hk
  · refine ⟨_, h', _, hk, ?_, Set.disjoint_singleton_left.2 (hi.ptr_fresh hsf _),
      .inr ⟨Nat.succ_ne_zero _, _, le_takenSize hle, rfl⟩⟩
    rw [Set.singleton_union]
    exact .kmalloc hr trivial hk (Nat.succ_ne_zero _) hsize

theorem HeapRun.drops (hr : HeapRun B AnyOp (new ∪ rest) h) (ha : Adds size p new)
    (hd : Disjoint new rest) : ∃ h', ChipOS.kfree B h p = .ok h' ∧ HeapRun B AnyOp rest h' := by
  rcases ha with ⟨rfl, rfl⟩ | ⟨_, n, _, rfl⟩
  · rw [Set.empty_union] at hr
    exact ⟨h, kfree_null h, .kfreeNull hr trivial (kfree_null h)⟩
  · obtain ⟨ss, hi⟩ := hr.inv
    have hx : (⟨p, n⟩ : Allocation) ∈ {(⟨p, n⟩ : Allocation)} ∪ rest := .inl rfl
    obtain ⟨_, _, h', _, _, hk, _⟩ := hi.kfree hx
    have hr' := hr.kfree hx trivial hk
    rw [Set.singleton_union, Set.insert_sdiff_self_of_notMem (Set.disjoint_singleton_left.1 hd)] at hr'
    exact ⟨h', hk, hr'⟩

theorem HeapRun.memset (hr : HeapRun B AnyOp live h) (hx : x ∈ live) (ha : x.ptr ≤ a)
    (hn : a + num ≤ x.ptr + x.size) :
    ∃ m, ChipOS.memset B v num h.mem a = .ok m ∧ HeapRun B AnyOp live { h with mem := m } := by
  induction num generalizing h a with
  | zero => exact ⟨h.mem, rfl, hr⟩
  | succ num ih =>
    obtain ⟨ss, hi⟩ := hr.inv
    have hbounds := hi.ptr_bounds hx
    have hwrite : writeField B h.mem a 1 v = .ok (Function.update h.mem a (UInt8.ofNat v)) :=
      if_pos ⟨by omega, by omega⟩
    have hr' : HeapRun B AnyOp live { h with mem := Function.update h.mem a (UInt8.ofNat v) } :=
      hr.write hx ha (by omega)
    obtain ⟨m, he, hrun⟩ := ih hr' (show x.ptr ≤ a + 1 by omega) (by omega)
    refine ⟨m, ?_, hrun⟩
    rw [ChipOS.memset, hwrite, ok_bind]
    exact he

/-- The test of the allocator frees all that it took: the live allocations are what they were. -/
theorem HeapRun.selfTest (hr : HeapRun B AnyOp live h) :
    ∃ out h', testMemoryAllocator B h = .ok (out, h') ∧ HeapRun B AnyOp live h' := by
  obtain ⟨p₁, h₁, n₁, hk₁, hr₁, hd₁, ha₁⟩ := hr.adds 64
  obtain ⟨p₂, h₂, n₂, hk₂, hr₂, hd₂, ha₂⟩ := hr₁.adds 128
  obtain ⟨p₃, h₃, n₃, hk₃, hr₃, hd₃, ha₃⟩ := hr₂.adds 256
  obtain ⟨m, hm, hrm⟩ : ∃ m, (if p₁ ≠ 0 then ChipOS.memset B 0xAA 64 h₃.mem p₁ else .ok h₃.mem) = .ok m ∧
      HeapRun B AnyOp (n₃ ∪ (n₂ ∪ (n₁ ∪ live))) { h₃ with mem := m } := by
    rcases ha₁ with ⟨rfl, _⟩ | ⟨hne, n, hle, rfl⟩
    · exact ⟨h₃.mem, rfl, hr₃⟩
    · rw [if_pos hne]
      have hsize : requestSize 64 = 64 := by decide
      exact hr₃.memset (.inr (.inr (.inl rfl))) (Nat.le_refl p₁) (by dsimp only; omega)
  rw [Set.disjoint_union_right] at hd₂ hd₃
  obtain ⟨hd₃₂, hd₃'⟩ := hd₃
  rw [Set.disjoint_union_right] at hd₃'
  rw [Set.union_left_comm] at hrm
  obtain ⟨h₄, hf₂, hr₄⟩ := hrm.drops ha₂ (by
    rw [Set.disjoint_union_right, Set.disjoint_union_right]
    exact ⟨hd₃₂.symm, hd₂.1, hd₂.2⟩)
  rw [Set.union_left_comm] at hr₄
  obtain ⟨h₅, hf₁, hr₅⟩ := hr₄.drops ha₁ (by
    rw [Set.disjoint_union_right]
    exact ⟨hd₃'.1.symm, hd₁⟩)
  obtain ⟨h₆, hf₃, hr₆⟩ := hr₅.drops ha₃ hd₃'.2
  refine ⟨allocatorReport p₁ p₂ p₃, h₆, ?_, hr₆⟩
  rw [testMemoryAllocator, hk₁, ok_bind]
  dsimp only
  rw [hk₂, ok_bind]
  dsimp only
  rw [hk₃, ok_bind]
  dsimp only
  rw [hm, ok_bind, hf₂, ok_bind, hf₁, ok_bind, hf₃]
  rfl

theorem selfTest_init (hram : h.memoryInitialized = false) :
    ∃ out h', testMemoryAllocator B (memoryInit B h) = .ok (out, h') ∧
      SameHeap B h' (memoryInit B h) ∧ h'.stats = (memoryInit B h).stats := by
  have hr₀ : HeapRun B AnyOp ∅ (memoryInit B h) := .init hram
  obtain ⟨out, h', he, hr⟩ := hr₀.selfTest
  obtain ⟨ss, hi⟩ := hr.inv
  have hi₀ : HeapInv B ∅ (memoryInit B h) _ := .init hram
  cases hi.unique hi₀
  exact ⟨out, h', he, hi.sameHeap hi₀, hi.stats.trans hi₀.stats.symm⟩

end

theorem decimalText_eq (hx : x < 2 ^ 31) : itoaText (asInt x) 10 = .ok (itoaString 10 x) := by
  have hbase : itoaText (asInt x) (10 : Nat) = .ok (itoaString 10 x) :=
    itoaText_eq (by decide) (by decide) hx
  exact hbase

theorem cmdMem_stats (hs : h.stats = h'.stats) : cmdMem h = cmdMem h' := by
  rw [cmdMem, cmdMem, memoryPrintInfo, memoryPrintInfo, hs]

theorem mem_command :
    executeCommand h fs input (.ofString "mem" :: args) = .ok (cmdMem h, fs) := by
  have hvalid : isValidCommand (.ofString "mem") = true := by decide
  exact executeCommand_of_find hvalid rfl

/-- The kernel comes to its shell once a line is typed at the test of the input, and what is typed
behind the line is left. The test of the allocator takes nothing from the heap, and no command
does: at every prompt of every run the heap is as `memory_init` left it, and `mem` prints what it
would have printed then. -/
theorem kernel_reaches_shell (k : Machine) (ram : Heap) (hram : ram.memoryInitialized = false)
    (systemTime : Nat) (stack : Chars) (typed : List UInt8) :
    match consoleGets 64 typed with
    | none => kernelMain k ram systemTime stack typed = .error .waits
    | some (line, left) => ∃ out heap,
      kernelMain k ram systemTime stack typed = .ok (out, bootShell systemTime heap stack, left) ∧
      [.text "You typed: '", .puts line, printLine "'"] <:+: out ∧
      ∀ s, Reach shellStep (bootShell systemTime heap stack) s →
        SameHeap k.heapBase s.heap (memoryInit k.heapBase ram) ∧
        Reach fsStep (fsInit systemTime) s.fs ∧
        ∀ input args, executeCommand s.heap s.fs input (.ofString "mem" :: args) =
          .ok (cmdMem (memoryInit k.heapBase ram), s.fs) := by
  obtain ⟨report, heap, htest, hsame, hstats⟩ := selfTest_init (B := k.heapBase) hram
  have hcount : itoaText (asInt (fsInit systemTime).fileCount) 10 = .ok (itoaString 10 (4 : Nat)) :=
    decimalText_eq (x := 4) (by decide)
  have hdir : itoaText (asInt (fsInit systemTime).currentDir) 10 = .ok (itoaString 10 (0 : Nat)) :=
    decimalText_eq (x := 0) (by decide)
  have hnext : itoaText (asInt (fsInit systemTime).nextFileId) 10 = .ok (itoaString 10 (4 : Nat)) :=
    decimalText_eq (x := 4) (by decide)
  cases htyped : consoleGets 64 typed with
  | none =>
    dsimp only
    rw [kernelMain, hcount, hdir, hnext, htest, testInputOutput, htyped]
    rfl
  | some p =>
    obtain ⟨line, left⟩ := p
    dsimp only
    refine ⟨kernelReport k (itoaString 10 (4 : Nat)) (itoaString 10 (0 : Nat))
      (itoaString 10 (4 : Nat)) report (inputOutputReport line), heap, ?_, ?_, ?_⟩
    · rw [kernelMain, hcount, hdir, hnext, htest, testInputOutput, htyped]
      rfl
    · have hio : [.text "You typed: '", .puts line, printLine "'"] <:+: inputOutputReport line :=
        List.infix_append _ _ _
      exact hio.trans (List.infix_append _ _ _)
    · intro s hs
      obtain ⟨hheap, hreach⟩ := shell_reach hs
      rw [hheap]
      refine ⟨hsame, hreach, fun input args => ?_⟩
      rw [← cmdMem_stats hstats]
      exact mem_command

theorem kernel_reaches_shell_hi : ∃ out heap,
    kernelMain ⟨kernelHeapBase, 0, 0x14112d, 0x80009000, 0x80109000, 0x8010a000, 0x8010a000⟩
      zeroHeap 7 (fun _ => 0) [0x68, 0x69, 0x0a] = .ok (out, bootShell 7 heap fun _ => 0, []) ∧
    [.text "You typed: '", .puts [0x68, 0x69], printLine "'"] <:+: out ∧
    SameHeap kernelHeapBase heap (memoryInit kernelHeapBase zeroHeap) := by
  have hgets : consoleGets 64 [0x68, 0x69, 0x0a] = some ([0x68, 0x69], []) := by decide
  have h := kernel_reaches_shell
    ⟨kernelHeapBase, 0, 0x14112d, 0x80009000, 0x80109000, 0x8010a000, 0x8010a000⟩ zeroHeap rfl 7
    (fun _ => 0) [0x68, 0x69, 0x0a]
  rw [hgets] at h
  obtain ⟨out, heap, hmain, hout, hruns⟩ := h
  exact ⟨out, heap, hmain, hout, (hruns _ .refl).1⟩

end ChipOS
