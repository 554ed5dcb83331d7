import ChipOS.Fault
import ChipOS.Lib.ByteMemory

namespace ChipOS
open ByteMemory
set_option autoImplicit true

def heapSize : Nat := 1024 * 1024

def minBlockSize : Nat := 32

/-- `sizeof(block_header_t)` on RV64: `size` at 0, `is_free` at 8, `next` at 16. -/
def blockHeaderSize : Nat := 24

/-- Where the linker puts `heap_memory`: not at null, and below the top of the address space. -/
structure HeapBase where
  addr : Nat
  addr_pos : 0 < addr
  addr_fits : addr + heapSize < 2 ^ 64

structure MemoryStats where
  totalMemory : Nat
  usedMemory : Nat
  freeMemory : Nat
  numAllocations : Nat
  numFreeBlocks : Nat
deriving DecidableEq, Repr

/-- The static state of the allocator. Pointers are 64-bit addresses, 0 is `NULL`, and
`mem` is read and written only inside `heap_memory`. -/
structure Heap where
  mem : Mem
  heapStart : Nat
  memoryInitialized : Bool
  stats : MemoryStats

def u64 (x : Nat) : Nat := x % 2 ^ 64

def u64Sub (x y : Nat) : Nat := (x + 2 ^ 64 - y % 2 ^ 64) % 2 ^ 64

section
variable (B : HeapBase)

def readField (m : Mem) (a n : Nat) : Except Fault Nat :=
  if B.addr ≤ a ∧ a + n ≤ B.addr + heapSize then .ok (load m a n)
  else .error (.outOfRange .heapMemory)

def writeField (m : Mem) (a n v : Nat) : Except Fault Mem :=
  if B.addr ≤ a ∧ a + n ≤ B.addr + heapSize then .ok (store m a n v)
  else .error (.outOfRange .heapMemory)

def loadSize (m : Mem) (block : Nat) := readField B m block 8
def loadIsFree (m : Mem) (block : Nat) := readField B m (block + 8) 4
def loadNext (m : Mem) (block : Nat) := readField B m (block + 16) 8
def storeSize (m : Mem) (block v : Nat) := writeField B m block 8 v
def storeIsFree (m : Mem) (block v : Nat) := writeField B m (block + 8) 4 v
def storeNext (m : Mem) (block v : Nat) := writeField B m (block + 16) 8 v

def memoryInit (h : Heap) : Heap :=
  if h.memoryInitialized then h
  else
    let m := store h.mem B.addr 8 (heapSize - blockHeaderSize)
    let m := store m (B.addr + 8) 4 1
    let m := store m (B.addr + 16) 8 0
    { mem := m
      heapStart := B.addr
      memoryInitialized := true
      stats :=
        { totalMemory := heapSize
          usedMemory := blockHeaderSize
          freeMemory := heapSize - blockHeaderSize
          numAllocations := 0
          numFreeBlocks := 1 } }

/-- `(size + 7) & ~7`, with the sum in 64 bits. -/
def alignSize (size : Nat) : Nat := u64 (size + 7) &&& (2 ^ 64 - 8)

def findFreeBlock (m : Mem) (size : Nat) : Nat → Nat → Except Fault Nat
  | 0, _ => .error .outOfFuel
  | fuel + 1, current =>
    if current = 0 then .ok 0
    else do
      let isFree ← loadIsFree B m current
      let fits ← if isFree ≠ 0 then (loadSize B m current).map (decide <| size ≤ ·) else .ok false
      if fits then return current
      let next ← loadNext B m current
      findFreeBlock m size fuel next

def splitBlock (m : Mem) (block size : Nat) : Except Fault Mem := do
  let blockSize ← loadSize B m block
  if blockSize ≤ u64 (size + blockHeaderSize + minBlockSize) then return m
  let newBlock := u64 (block + blockHeaderSize + size)
  let m ← storeSize B m newBlock (u64Sub (u64Sub blockSize size) blockHeaderSize)
  let m ← storeIsFree B m newBlock 1
  let next ← loadNext B m block
  let m ← storeNext B m newBlock next
  let m ← storeSize B m block size
  storeNext B m block newBlock

/-- `current` stays where it is after a merge, so a run of free blocks collapses into one. -/
def mergeFreeBlocks : Nat → Mem → Nat → Except Fault Mem
  | 0, _, _ => .error .outOfFuel
  | fuel + 1, m, current =>
    if current = 0 then .ok m
    else do
      let next ← loadNext B m current
      if next = 0 then return m
      let isFree ← loadIsFree B m current
      let nextIsFree ← if isFree ≠ 0 then loadIsFree B m next else .ok 0
      if nextIsFree = 0 then mergeFreeBlocks fuel m next
      else
        let size ← loadSize B m current
        if u64 (current + blockHeaderSize + size) = next then
          let nextSize ← loadSize B m next
          let m ← storeSize B m current (u64 (size + (blockHeaderSize + nextSize)))
          let nextNext ← loadNext B m next
          let m ← storeNext B m current nextNext
          mergeFreeBlocks fuel m current
        else mergeFreeBlocks fuel m next

def kmalloc (h : Heap) (size : Nat) : Except Fault (Nat × Heap) :=
  if !h.memoryInitialized then .error (.panic "kmalloc called before memory_init")
  else if size = 0 then .ok (0, h)
  else do
    let size := alignSize size
    let size := if size < minBlockSize then minBlockSize else size
    let block ← findFreeBlock B h.mem size heapSize h.heapStart
    if block = 0 then return (0, h)
    let blockSize ← loadSize B h.mem block
    let m ← (if blockSize > u64 (size + blockHeaderSize + minBlockSize)
      then splitBlock B h.mem block size else .ok h.mem)
    let m ← storeIsFree B m block 0
    let blockSize ← loadSize B m block
    let taken := u64 (blockSize + blockHeaderSize)
    return (u64 (block + blockHeaderSize), { h with
      mem := m
      stats := { h.stats with
        usedMemory := u64 (h.stats.usedMemory + taken)
        freeMemory := u64Sub h.stats.freeMemory taken
        numAllocations := u64 (h.stats.numAllocations + 1) } })

def kfree (h : Heap) (ptr : Nat) : Except Fault Heap :=
  if ptr = 0 ∨ !h.memoryInitialized then .ok h
  else
    let block := u64Sub ptr blockHeaderSize
    if block < B.addr ∨ block ≥ B.addr + heapSize then .ok h
    else do
      let isFree ← loadIsFree B h.mem block
      if isFree ≠ 0 then return h
      let m ← storeIsFree B h.mem block 1
      let blockSize ← loadSize B m block
      let given := u64 (blockSize + blockHeaderSize)
      let m ← mergeFreeBlocks B heapSize m h.heapStart
      return { h with
        mem := m
        stats := { h.stats with
          usedMemory := u64Sub h.stats.usedMemory given
          freeMemory := u64 (h.stats.freeMemory + given)
          numAllocations := u64Sub h.stats.numAllocations 1 } }

/-- The loop of `memory_get_stats`: free blocks from `current` on. -/
def countFreeBlocks (m : Mem) : Nat → Nat → Except Fault Nat
  | 0, _ => .error .outOfFuel
  | fuel + 1, current =>
    if current = 0 then .ok 0
    else do
      let isFree ← loadIsFree B m current
      let next ← loadNext B m current
      let rest ← countFreeBlocks m fuel next
      return if isFree ≠ 0 then rest + 1 else rest

def memoryGetStats (h : Heap) : Except Fault (MemoryStats × Heap) := do
  let free ← countFreeBlocks B h.mem heapSize h.heapStart
  let stats := { h.stats with numFreeBlocks := free }
  return (stats, { h with stats })

/-- What a walk along the block list sees of one block. -/
structure BlockInfo where
  addr : Nat
  size : Nat
  isFree : Bool
  next : Nat
deriving DecidableEq, Repr

/-- The block list from `current` on, as the loops of the allocator traverse it. -/
def blockList (m : Mem) : Nat → Nat → Except Fault (List BlockInfo)
  | 0, _ => .error .outOfFuel
  | fuel + 1, current =>
    if current = 0 then .ok []
    else do
      let size ← loadSize B m current
      let isFree ← loadIsFree B m current
      let next ← loadNext B m current
      let rest ← blockList m fuel next
      return ⟨current, size, isFree ≠ 0, next⟩ :: rest

def heapBlocks (h : Heap) : Except Fault (List BlockInfo) := blockList B h.mem heapSize h.heapStart

end

/-- What the printing functions of the console are called with. -/
inductive ConsoleOut where
  | puts (text : String)
  | putHex (value : Nat)
deriving DecidableEq, Repr

/-- `console_put_hex` takes an `unsigned int`. -/
def consolePutHex (value : Nat) : ConsoleOut := .putHex (value % 2 ^ 32)

def memoryPrintInfo (h : Heap) : List ConsoleOut :=
  [.puts "\n--- Memory Information ---\n",
    .puts "Total memory: ", consolePutHex h.stats.totalMemory, .puts " bytes\n",
    .puts "Used memory: ", consolePutHex h.stats.usedMemory, .puts " bytes\n",
    .puts "Free memory: ", consolePutHex h.stats.freeMemory, .puts " bytes\n",
    .puts "Active allocations: ", consolePutHex h.stats.numAllocations, .puts "\n",
    .puts "Free blocks: ", consolePutHex h.stats.numFreeBlocks, .puts "\n",
    .puts "Heap utilization: "] ++
  if h.stats.totalMemory > 0 then
    [consolePutHex (u64 (h.stats.usedMemory * 100) / h.stats.totalMemory), .puts "%\n"]
  else [.puts "0%\n"]

end ChipOS
