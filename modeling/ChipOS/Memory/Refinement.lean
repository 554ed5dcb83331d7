import ChipOS.Memory.Blocks

namespace ChipOS
open ByteMemory Tiling Run
set_option autoImplicit true

def requestSize (size : Nat) : Nat :=
  if alignSize size < minBlockSize then minBlockSize else alignSize size

/-- What becomes of a free block of size `s` when `n` bytes of it are allocated. -/
def takeBlock (n : Nat) (s : Nat) : List Seg :=
  if s > n + blockHeaderSize + minBlockSize then
    [⟨n, false⟩, ⟨s - n - blockHeaderSize, true⟩]
  else [⟨s, false⟩]

def takenSize (n s : Nat) : Nat :=
  if s > n + blockHeaderSize + minBlockSize then n else s

theorem and_mask (x : Nat) (hx : x < 2 ^ 64) : x &&& (2 ^ 64 - 8) = x / 8 * 8 := by
  have hmask : 2 ^ 64 - 8 = (2 ^ 61 - 1) * 2 ^ 3 := rfl
  have hround : x / 8 * 8 = x / 2 ^ 3 * 2 ^ 3 := rfl
  apply Nat.eq_of_testBit_eq
  intro i
  rw [hmask, hround, Nat.testBit_and, Nat.testBit_mul_two_pow, Nat.testBit_mul_two_pow, Nat.testBit_two_pow_sub_one,
    Nat.testBit_div_two_pow]
  by_cases hi : 3 ≤ i
  · rw [Nat.sub_add_cancel hi]
    by_cases hi' : i - 3 < 61
    · simp only [hi, hi', decide_true, Bool.and_true, Bool.true_and]
    · have : x.testBit i = false := by
        apply Nat.testBit_lt_two_pow
        exact Nat.lt_of_lt_of_le hx (Nat.pow_le_pow_right (by omega) (by omega))
      simp only [this, Bool.false_and, Bool.and_false]
  · simp only [hi, decide_false, Bool.false_and, Bool.and_false]

theorem alignSize_eq (size : Nat) : alignSize size = u64 (size + 7) / 8 * 8 :=
  and_mask _ (Nat.mod_lt _ (by omega))

theorem requestSize_mod (size : Nat) : requestSize size % 8 = 0 := by
  rw [requestSize, alignSize_eq]
  split
  · rfl
  · omega

theorem minBlockSize_le_requestSize (size : Nat) : minBlockSize ≤ requestSize size := by
  rw [requestSize]
  split <;> omega

theorem span_takeBlock : span blockHeaderSize (takeBlock n s) = blockHeaderSize + s := by
  rw [takeBlock]
  split
  · simp only [span_cons, span_nil]
    omega
  · simp only [span_cons, span_nil]
    omega

theorem BlockSeg.replace (hs : BlockSeg m p a (pre ++ s :: post) 0)
    (hmid : BlockSeg m' (a + span blockHeaderSize pre) (a + span blockHeaderSize pre) mid
      (load m (a + span blockHeaderSize pre + 16) 8))
    (hspan : span blockHeaderSize mid = blockHeaderSize + s.size)
    (hm : ∀ x, x < a + span blockHeaderSize pre ∨
      a + span blockHeaderSize pre + blockHeaderSize + s.size ≤ x → m' x = m x) :
    BlockSeg m' p a (pre ++ (mid ++ post)) 0 := by
  obtain ⟨r, hpre, hr, hsize, hfree, hpost⟩ := blockSeg_append.1 hs
  subst r
  refine blockSeg_append.2 ⟨_, hpre.frame fun x hx hx' _ => hm x (.inl hx'), ?_⟩
  refine blockSeg_append.2 ⟨_, hmid, ?_⟩
  rw [hspan, ← Nat.add_assoc]
  exact hpost.frame fun x hx hx' _ => hm x (.inr hx)

/-- The memory after `split_block` cut the block at `b` to `n` bytes. -/
def splitMem (m : Mem) (b n size : Nat) : Mem :=
  let c := b + blockHeaderSize + n
  let m := store m c 8 (size - n - blockHeaderSize)
  let m := store m (c + 8) 4 1
  let m := store m (c + 16) 8 (load m (b + 16) 8)
  let m := store m b 8 n
  store m (b + 16) 8 c

theorem splitMem_outside (hx : x < b ∨ b + 24 ≤ x)
    (hx' : x < b + 24 + n ∨ b + 24 + n + 24 ≤ x) :
    splitMem m b n size x = m x := by
  simp only [splitMem, blockHeaderSize]
  rw [store_outside (by omega), store_outside (by omega), store_outside (by omega),
    store_outside (by omega), store_outside (by omega)]

section
variable {B : HeapBase}

theorem splitBlock_spec (hsize : load m b 8 = size)
    (hbig : size > n + blockHeaderSize + minBlockSize) (hlo : B.addr ≤ b)
    (hhi : b + blockHeaderSize + size ≤ B.addr + heapSize) :
    splitBlock B m b n = .ok (splitMem m b n size) := by
  have htop := B.addr_fits
  have hsz : heapSize = 1048576 := rfl
  have hh : blockHeaderSize = 24 := rfl
  have hmin : minBlockSize = 32 := rfl
  have hc : u64 (b + blockHeaderSize + n) = b + blockHeaderSize + n := u64_eq (by omega)
  have hrest : u64Sub (u64Sub size n) blockHeaderSize = size - n - blockHeaderSize := by
    rw [u64Sub_eq (x := size) (by omega) (by omega), u64Sub_eq (by omega) (by omega)]
  have hlim : ¬size ≤ u64 (n + blockHeaderSize + minBlockSize) := by
    rw [u64_eq (by omega)]
    omega
  rw [splitBlock, loadSize, readField_eq hlo (by omega), hsize]
  simp only [ok_bind]
  rw [if_neg hlim, hc, hrest, storeSize, writeField_eq (by omega) (by omega)]
  simp only [ok_bind]
  rw [storeIsFree, writeField_eq (by omega) (by omega)]
  simp only [ok_bind]
  rw [loadNext, readField_eq (by omega) (by omega)]
  simp only [ok_bind]
  rw [storeNext, writeField_eq (by omega) (by omega)]
  simp only [ok_bind]
  rw [storeSize, writeField_eq (by omega) (by omega)]
  simp only [ok_bind]
  rw [storeNext, writeField_eq (by omega) (by omega)]
  rfl

theorem splitMem_seg (hbig : size > n + blockHeaderSize + minBlockSize) (hsize : size < 2 ^ 64)
    (hb : b + blockHeaderSize + n < 2 ^ 64) :
    BlockSeg (store (splitMem m b n size) (b + 8) 4 0) b b
      [⟨n, false⟩, ⟨size - n - blockHeaderSize, true⟩] (load m (b + 16) 8) := by
  simp only [blockHeaderSize, minBlockSize] at hbig hb
  refine ⟨rfl, ?_, load_store_same (by omega), ?_⟩
  · rw [load_store_disjoint (by omega), splitMem, load_store_disjoint (by omega)]
    exact load_store_same (by omega)
  · have hnext : load (store (splitMem m b n size) (b + 8) 4 0) (b + 16) 8 = b + 24 + n := by
      rw [load_store_disjoint (by omega), splitMem]
      exact load_store_same (by simp only [blockHeaderSize]; omega)
    rw [hnext]
    simp only [blockHeaderSize]
    refine ⟨rfl, ?_, ?_, ?_⟩
    · rw [load_store_disjoint (by omega)]
      simp only [splitMem, blockHeaderSize]
      rw [load_store_disjoint (by omega), load_store_disjoint (by omega),
        load_store_disjoint (by omega), load_store_disjoint (by omega)]
      exact load_store_same (by omega)
    · rw [load_store_disjoint (by omega)]
      simp only [splitMem, blockHeaderSize]
      rw [load_store_disjoint (by omega), load_store_disjoint (by omega),
        load_store_disjoint (by omega)]
      exact load_store_same (by omega)
    · rw [BlockSeg, load_store_disjoint (by omega)]
      simp only [splitMem, blockHeaderSize]
      rw [load_store_disjoint (by omega), load_store_disjoint (by omega),
        load_store_same load_lt, load_store_disjoint (by omega), load_store_disjoint (by omega)]

/-- The heap holds a block list that tiles `heap_memory` exactly. -/
structure Tiled (B : HeapBase) (h : Heap) (ss : List Seg) : Prop where
  initialized : h.memoryInitialized = true
  seg : BlockSeg h.mem h.heapStart B.addr ss 0
  span : span blockHeaderSize ss = heapSize
  sizes : ∀ s ∈ ss, minBlockSize ≤ s.size ∧ s.size % 8 = 0
  coalesced : Coalesced ss

theorem length_le_span (ss : List Seg) : ss.length ≤ span blockHeaderSize ss := by
  induction ss with
  | nil => exact Nat.le_refl 0
  | cons s ss ih =>
    simp only [List.length_cons, span_cons, blockHeaderSize] at ih ⊢
    omega

theorem length_lt_span (hss : ss ≠ []) : ss.length < span blockHeaderSize ss := by
  cases ss with
  | nil => exact absurd rfl hss
  | cons s ss =>
    have := length_le_span ss
    simp only [List.length_cons, span_cons, blockHeaderSize] at this ⊢
    omega

theorem Tiled.fuel (ht : Tiled B h ss) : ss.length < heapSize := by
  have hne : ss ≠ [] := by
    intro he
    have := ht.span
    rw [he] at this
    cases this
  have := length_lt_span hne
  rwa [ht.span] at this

theorem Tiled.end_le (ht : Tiled B h ss) :
    B.addr + Tiling.span blockHeaderSize ss ≤ B.addr + heapSize := by
  rw [ht.span]

def MemoryStats.alloc (s : MemoryStats) (n : Nat) : MemoryStats :=
  { s with
    usedMemory := u64 (s.usedMemory + u64 (n + blockHeaderSize))
    freeMemory := u64Sub s.freeMemory (u64 (n + blockHeaderSize))
    numAllocations := u64 (s.numAllocations + 1) }

def MemoryStats.release (s : MemoryStats) (n : Nat) : MemoryStats :=
  { s with
    usedMemory := u64Sub s.usedMemory (u64 (n + blockHeaderSize))
    freeMemory := u64 (s.freeMemory + u64 (n + blockHeaderSize))
    numAllocations := u64Sub s.numAllocations 1 }

end

theorem takeBlock_sizes (hn : minBlockSize ≤ n) (hn8 : n % 8 = 0) (hs : minBlockSize ≤ k)
    (hs8 : k % 8 = 0) : ∀ t ∈ takeBlock n k, minBlockSize ≤ t.size ∧ t.size % 8 = 0 := by
  have hh : blockHeaderSize = 24 := rfl
  have hmin : minBlockSize = 32 := rfl
  intro t ht
  rw [takeBlock] at ht
  split at ht
  · rcases List.mem_cons.1 ht with rfl | ht
    · exact ⟨hn, hn8⟩
    · rw [List.mem_singleton.1 ht]
      simp only
      omega
  · rw [List.mem_singleton.1 ht]
    exact ⟨hs, hs8⟩

theorem BlockSeg.mid (hs : BlockSeg m p a (pre ++ s :: post) q) :
    load m (a + span blockHeaderSize pre) 8 = s.size ∧
      load m (a + span blockHeaderSize pre + 8) 4 = s.free.toNat := by
  obtain ⟨r, _, _, hsize, hfree, _⟩ := blockSeg_append.1 hs
  exact ⟨hsize, hfree⟩

theorem flagged_seg (f : Bool) (hsize : load m b 8 = n) :
    BlockSeg (store m (b + 8) 4 f.toNat) b b [⟨n, f⟩] (load m (b + 16) 8) := by
  refine ⟨rfl, ?_, ?_, ?_⟩
  · rw [load_store_disjoint (by omega)]
    exact hsize
  · exact load_store_same (by cases f <;> decide)
  · rw [BlockSeg, load_store_disjoint (by omega)]

/-- The memory `kmalloc` leaves behind when it hands out the block at `b`. -/
def takenMem (m : Mem) (b n size : Nat) : Mem :=
  store (if size > n + blockHeaderSize + minBlockSize then splitMem m b n size else m) (b + 8) 4 0

theorem takenMem_seg (hsize : load m b 8 = size) (hlt : size < 2 ^ 64)
    (hb : b + blockHeaderSize + size < 2 ^ 64) :
    BlockSeg (takenMem m b n size) b b (takeBlock n size) (load m (b + 16) 8) := by
  rw [takenMem, takeBlock]
  split
  · exact splitMem_seg ‹_› hlt (by omega)
  · exact flagged_seg false hsize

theorem takenMem_outside (hx : x < b ∨ b + 24 ≤ x)
    (hx' : size > n + blockHeaderSize + minBlockSize → x < b + 24 + n ∨ b + 24 + n + 24 ≤ x) :
    takenMem m b n size x = m x := by
  rw [takenMem, store_outside (by omega)]
  split
  · exact splitMem_outside hx (hx' ‹_›)
  · rfl

theorem takenMem_size (hsize : load m b 8 = size) (hlt : size < 2 ^ 64)
    (hb : b + blockHeaderSize + size < 2 ^ 64) :
    load (takenMem m b n size) b 8 = takenSize n size := by
  have hs := takenMem_seg (n := n) hsize hlt hb
  rw [takeBlock] at hs
  rw [takenSize]
  split
  · rw [if_pos ‹_›] at hs
    exact hs.2.1
  · rw [if_neg ‹_›] at hs
    exact hs.2.1

section
variable {B : HeapBase}

/-- `kmalloc` takes the first free block that is large enough, and leaves the heap as it is
if there is none. -/
theorem kmalloc_spec (ht : Tiled B h ss) (hn : size ≠ 0) :
    (kmalloc B h size = .ok (0, h) ∧ ∀ s ∈ ss, s.free = true → s.size < requestSize size) ∨
    ∃ pre s post, ss = pre ++ s :: post ∧ s.free = true ∧ requestSize size ≤ s.size ∧
      kmalloc B h size = .ok (B.addr + span blockHeaderSize pre + blockHeaderSize, { h with
        mem := takenMem h.mem (B.addr + span blockHeaderSize pre) (requestSize size) s.size
        stats := h.stats.alloc (takenSize (requestSize size) s.size) }) := by
  have hpos := B.addr_pos
  have htop := B.addr_fits
  have hsz : heapSize = 1048576 := rfl
  have hh : blockHeaderSize = 24 := rfl
  have hmin : minBlockSize = 32 := rfl
  have hfind := findFreeBlock_spec (requestSize size) ht.seg (Nat.le_refl _)
    ht.end_le ht.fuel
  have hk : kmalloc B h size = (do
      let block ← findFreeBlock B h.mem (requestSize size) heapSize h.heapStart
      if block = 0 then return (0, h)
      let blockSize ← loadSize B h.mem block
      let m ← (if blockSize > u64 (requestSize size + blockHeaderSize + minBlockSize)
        then splitBlock B h.mem block (requestSize size) else .ok h.mem)
      let m ← storeIsFree B m block 0
      let blockSize ← loadSize B m block
      return (u64 (block + blockHeaderSize),
        { h with mem := m, stats := h.stats.alloc blockSize })) := by
    rw [kmalloc, ht.initialized, if_neg hn]
    rfl
  rcases hfind with ⟨he, hall⟩ | ⟨pre, s, post, rfl, hsf, hle, _, he⟩
  · refine .inl ⟨?_, hall⟩
    rw [hk, he]
    rfl
  · refine .inr ⟨pre, s, post, rfl, hsf, hle, ?_⟩
    obtain ⟨hsize, _⟩ := ht.seg.mid
    have hend := ht.end_le
    simp only [span_append, span_cons] at hend
    generalize hb : B.addr + span blockHeaderSize pre = b at *
    have hlim : u64 (requestSize size + blockHeaderSize + minBlockSize) =
        requestSize size + blockHeaderSize + minBlockSize := u64_eq (by omega)
    have hmem : (if s.size > requestSize size + blockHeaderSize + minBlockSize
        then splitBlock B h.mem b (requestSize size) else .ok h.mem) =
        .ok (if s.size > requestSize size + blockHeaderSize + minBlockSize
          then splitMem h.mem b (requestSize size) s.size else h.mem) := by
      split
      · exact splitBlock_spec hsize ‹_› (by omega) (by omega)
      · rfl
    have htaken := takenMem_size (n := requestSize size) hsize (by omega) (by omega)
    rw [takenMem] at htaken
    rw [hk, he]
    simp only [ok_bind]
    rw [if_neg (by omega), loadSize, readField_eq (by omega) (by omega), hsize]
    simp only [ok_bind]
    rw [hlim, hmem]
    simp only [ok_bind]
    rw [storeIsFree, writeField_eq (by omega) (by omega)]
    simp only [ok_bind]
    rw [loadSize, readField_eq (by omega) (by omega), htaken, u64_eq (by omega)]
    rfl

theorem Tiled.alloc (ht : Tiled B h (pre ++ s :: post)) (hsf : s.free = true)
    (hn : minBlockSize ≤ n) (hn8 : n % 8 = 0) (stats : MemoryStats) :
    Tiled B { h with
        mem := takenMem h.mem (B.addr + Tiling.span blockHeaderSize pre) n s.size
        stats := stats }
      (pre ++ (takeBlock n s.size ++ post)) := by
  have htop := B.addr_fits
  have hsz : heapSize = 1048576 := rfl
  have hh : blockHeaderSize = 24 := rfl
  have hspan := ht.span
  simp only [span_append, span_cons] at hspan
  obtain ⟨hsize, _⟩ := ht.seg.mid
  refine ⟨ht.initialized, ?_, ?_, ?_, ?_⟩
  · apply ht.seg.replace (takenMem_seg hsize (by omega) (by omega)) span_takeBlock
    intro x hx
    exact takenMem_outside (by omega) (by omega)
  · simp only [span_append, span_takeBlock]
    omega
  · intro t hmem
    rcases List.mem_append.1 hmem with hmem | hmem
    · exact ht.sizes t (List.mem_append_left _ hmem)
    rcases List.mem_append.1 hmem with hmem | hmem
    · have hs := ht.sizes s (List.mem_append_right _ List.mem_cons_self)
      exact takeBlock_sizes hn hn8 hs.1 hs.2 t hmem
    · exact ht.sizes t (List.mem_append_right _ (List.mem_cons_of_mem _ hmem))
  · rw [takeBlock]
    split
    · exact (ht.coalesced.carve (u := ⟨n, false⟩) hsf rfl).2
    · exact (ht.coalesced.carve (u := ⟨s.size, false⟩) (n := 0) hsf rfl).1

/-- `kfree` of a block in use marks it free and joins it with its free neighbours; outside
the headers it changes nothing. -/
theorem kfree_spec (ht : Tiled B h (pre ++ s :: post)) (hsf : s.free = false) :
    ∃ m, kfree B h (B.addr + span blockHeaderSize pre + blockHeaderSize) =
        .ok { h with mem := m, stats := h.stats.release s.size } ∧
      BlockSeg m h.heapStart B.addr
        (coalesce blockHeaderSize (pre ++ ⟨s.size, true⟩ :: post)) 0 ∧
      ∀ x, OutsideHeaders x B.addr (pre ++ s :: post) → m x = h.mem x := by
  have hpos := B.addr_pos
  have htop := B.addr_fits
  have hsz : heapSize = 1048576 := rfl
  have hh : blockHeaderSize = 24 := rfl
  have hspan := ht.span
  obtain ⟨hsize, hfree⟩ := ht.seg.mid
  have hfuel := ht.fuel
  simp only [span_append, span_cons] at hspan
  have hflag : BlockSeg (store h.mem (B.addr + span blockHeaderSize pre + 8) 4 1) h.heapStart
      B.addr (pre ++ ⟨s.size, true⟩ :: post) 0 := by
    apply ht.seg.replace (flagged_seg true hsize)
    · simp only [span_cons, span_nil, Nat.add_zero]
    · intro x hx
      exact store_outside (by omega)
  have hfuel' : (pre ++ ⟨s.size, true⟩ :: post).length < heapSize := by
    simp only [List.length_append, List.length_cons] at hfuel ⊢
    exact hfuel
  obtain ⟨m, he, hseg, hout⟩ := mergeFreeBlocks_spec hflag (Nat.le_refl _)
    (by simp only [span_append, span_cons]; omega) hfuel'
  refine ⟨m, ?_, hseg, ?_⟩
  · have hend : B.addr + span blockHeaderSize pre + blockHeaderSize + s.size ≤
        B.addr + heapSize := by omega
    have hlo := Nat.le_add_right B.addr (span blockHeaderSize pre)
    generalize B.addr + span blockHeaderSize pre = b at *
    rw [kfree, ht.initialized,
      if_neg (by simp only [Bool.not_true, Bool.false_eq_true, or_false]; omega)]
    simp only
    rw [u64Sub_eq (by omega) (by omega), Nat.add_sub_cancel, if_neg (by omega), loadIsFree,
      readField_eq (by omega) (by omega), hfree, hsf]
    simp only [ok_bind, Bool.toNat_false, ne_eq, not_true_eq_false, ↓reduceIte]
    rw [storeIsFree, writeField_eq (by omega) (by omega)]
    simp only [ok_bind]
    rw [loadSize, readField_eq (by omega) (by omega), load_store_disjoint (by omega), hsize]
    simp only [ok_bind]
    rw [he]
    rfl
  · intro x hx
    have hx' : OutsideHeaders x B.addr (pre ++ ⟨s.size, true⟩ :: post) := by
      rw [outsideHeaders_append] at hx ⊢
      refine ⟨hx.1, ?_⟩
      exact List.forall_mem_cons.2 (List.forall_mem_cons.1 hx.2)
    rw [hout x hx']
    have hb := (outsideHeaders_append.1 hx).2 _ List.mem_cons_self
    simp only [hh] at hb ⊢
    exact store_outside (by omega)

theorem Tiled.release (ht : Tiled B h (pre ++ s :: post))
    (hseg : BlockSeg m h.heapStart B.addr
      (coalesce blockHeaderSize (pre ++ ⟨s.size, true⟩ :: post)) 0) :
    Tiled B { h with mem := m, stats := stats }
      (coalesce blockHeaderSize (pre ++ ⟨s.size, true⟩ :: post)) := by
  refine ⟨ht.initialized, hseg, ?_, ?_, coalesce_coalesced _ _⟩
  · have hspan := ht.span
    simp only [span_append, span_cons] at hspan
    simp only [span_coalesce, span_append, span_cons]
    exact hspan
  · apply coalesce_sizes (P := fun n => minBlockSize ≤ n ∧ n % 8 = 0)
    · intro k n hk hn
      simp only [blockHeaderSize]
      omega
    · intro t hmem
      rcases List.mem_append.1 hmem with hmem | hmem
      · exact ht.sizes t (List.mem_append_left _ hmem)
      rcases List.mem_cons.1 hmem with rfl | hmem
      · exact ht.sizes s (List.mem_append_right _ List.mem_cons_self)
      · exact ht.sizes t (List.mem_append_right _ (List.mem_cons_of_mem _ hmem))

end

end ChipOS
