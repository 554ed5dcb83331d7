import ChipOS.Memory.HeapTheorems

namespace ChipOS
open ByteMemory Tiling Run
set_option autoImplicit true

/-- What a call of `kmalloc` owes its caller in a heap with the blocks `bs`: a block in use with
enough room inside `heap_memory`, and null if no free block has it. -/
structure Delivers (B : HeapBase) (bs : List BlockInfo) (size p : Nat) (h' : Heap) : Prop where
  room : p ≠ 0 → ∃ bs', heapBlocks B h' = .ok bs' ∧ ∃ b ∈ bs', b.isFree = false ∧
    p = b.addr + blockHeaderSize ∧ size ≤ b.size ∧ B.addr ≤ p ∧ p + b.size ≤ B.addr + heapSize
  null : 0 < size → (∀ b ∈ bs, b.isFree = true → b.size < size) → p = 0

theorem le_requestSize (hsize : size + 7 < 2 ^ 64) : size ≤ requestSize size := by
  rw [requestSize, alignSize_eq, u64_eq hsize]
  split <;> omega

/-- The sum that rounds up is past 64 bits, and the request becomes the smallest one. -/
theorem requestSize_wrapped (hlt : size < 2 ^ 64) (hwrap : ¬size + 7 < 2 ^ 64) :
    requestSize size = minBlockSize := by
  have hround : u64 (size + 7) / 8 * 8 = 0 := by
    rw [u64]
    omega
  rw [requestSize, alignSize_eq, hround]
  rfl

theorem le_takenSize (hle : n ≤ s) : n ≤ takenSize n s := by
  rw [takenSize]
  split <;> omega

section
variable {B : HeapBase}

theorem HeapInv.size_lt (hi : HeapInv B live h ss) (hs : s ∈ ss) : s.size < heapSize := by
  have hspan := hi.tiled.span
  obtain ⟨pre, post, rfl⟩ := List.append_of_mem hs
  simp only [span_append, span_cons, blockHeaderSize] at hspan
  omega

theorem HeapInv.segs (hi : HeapInv B live h ss) (hbs : heapBlocks B h = .ok bs) :
    bs.map BlockInfo.seg = ss := by
  obtain ⟨bs', hbs', hmap, _⟩ := hi.blocks
  cases hbs'.symm.trans hbs
  exact map_seg hmap

theorem HeapInv.room (hi : HeapInv B live h ss) (hx : x ∈ live) (hle : size ≤ x.size) :
    ∃ bs, heapBlocks B h = .ok bs ∧ ∃ b ∈ bs, b.isFree = false ∧
      x.ptr = b.addr + blockHeaderSize ∧ size ≤ b.size ∧ B.addr ≤ x.ptr ∧
      x.ptr + b.size ≤ B.addr + heapSize := by
  obtain ⟨bs, hbs, hmap, _⟩ := hi.blocks
  obtain ⟨b, hb, hfree, hp, hn⟩ := (hi.mem_blocks hmap).1 hx
  obtain ⟨_, hlo, hhi, _⟩ := hi.ptr_bounds hx
  exact ⟨bs, hbs, b, hb, hfree, hp, hn ▸ hle, by omega, hn ▸ hhi⟩

/-- No block can do for a request of the size of the heap. -/
theorem HeapInv.not_delivers (hi : HeapInv B live h ss) (hbs : heapBlocks B h = .ok bs)
    (hbig : heapSize ≤ size) (hp : p ≠ 0) : ¬Delivers B bs size p h' := by
  intro hd
  have hheap : heapSize = 1048576 := rfl
  apply hp
  apply hd.null (by omega)
  intro b hb _
  have hsmall : b.size < heapSize := hi.size_lt (hi.segs hbs ▸ List.mem_map_of_mem hb)
  omega

theorem HeapInv.kmalloc_delivers (hi : HeapInv B live h ss) (hlt : size < 2 ^ 64)
    (hbs : heapBlocks B h = .ok bs) :
    ∃ p h', ChipOS.kmalloc B h size = .ok (p, h') ∧
      (Delivers B bs size p h' ↔ size + 7 < 2 ^ 64 ∨ ∀ b ∈ bs, b.isFree = false) := by
  have hheap : heapSize = 1048576 := rfl
  have hseg := hi.segs hbs
  have hmem : ∀ b ∈ bs, b.seg ∈ ss := fun b hb => hseg ▸ List.mem_map_of_mem hb
  rcases hi.kmalloc size with
    ⟨hk, hnone⟩ | ⟨pre, s, post, b, n, h', hss, hsf, hle, _, hn, hk, _, hi', _⟩
  · -- null is right whatever was asked for
    refine ⟨0, h, hk, fun _ => ?_, fun _ => ⟨fun hp => absurd rfl hp, fun _ _ => rfl⟩⟩
    by_cases hwrap : size + 7 < 2 ^ 64
    · exact .inl hwrap
    right
    intro b hb
    rcases hnone with hz | hnone
    · omega
    · by_contra hfree
      have hsmall := hnone b.seg (hmem b hb) (Bool.not_eq_false _ ▸ hfree)
      have hmin := (hi.tiled.sizes b.seg (hmem b hb)).1
      rw [requestSize_wrapped hlt hwrap] at hsmall
      omega
  have hs : s ∈ ss := hss ▸ List.mem_append_right pre List.mem_cons_self
  obtain ⟨c, hc, hcs⟩ := List.mem_map.1 (hseg ▸ hs)
  have hcfree : c.isFree = true := (congrArg Seg.free hcs).trans hsf
  have hcsize : c.size = s.size := congrArg Seg.size hcs
  refine ⟨_, h', hk, ?_⟩
  by_cases hwrap : size + 7 < 2 ^ 64
  · have hsize := le_requestSize hwrap
    refine ⟨fun _ => .inl hwrap, fun _ => ⟨fun _ => ?_, fun _ hall => ?_⟩⟩
    · exact hi'.room (Set.mem_insert _ _) (hsize.trans (hn ▸ le_takenSize hle))
    · have hsmall := hall c hc hcfree
      omega
  · constructor
    · intro hd
      exact absurd hd (hi.not_delivers hbs (by omega) (Nat.succ_ne_zero _))
    · rintro (hno | hnone)
      · exact absurd hno hwrap
      · exact absurd ((hnone c hc).symm.trans hcfree) (by decide)

/-- `kmalloc` returns in every heap reached from `memory_init`, and delivers what was asked for
exactly when the rounded size does not wrap around or no block is free. -/
theorem kmalloc_delivers_iff (hr : HeapRun B AnyOp live h) (hlt : size < 2 ^ 64) :
    ∃ bs p h', heapBlocks B h = .ok bs ∧ kmalloc B h size = .ok (p, h') ∧
      (Delivers B bs size p h' ↔ size + 7 < 2 ^ 64 ∨ ∀ b ∈ bs, b.isFree = false) := by
  obtain ⟨ss, hi⟩ := hr.inv
  obtain ⟨bs, hbs, _⟩ := hi.blocks
  obtain ⟨p, h', hk, hd⟩ := hi.kmalloc_delivers hlt hbs
  exact ⟨bs, p, h', hbs, hk, hd⟩

theorem kmalloc_delivers_first : ∃ h bs p h', HeapRun kernelHeapBase AnyOp {⟨0x8000b5d8, 64⟩} h ∧
    heapBlocks kernelHeapBase h = .ok bs ∧ kmalloc kernelHeapBase h 100 = .ok (p, h') ∧
    (Delivers kernelHeapBase bs 100 p h' ↔ 100 + 7 < 2 ^ 64 ∨ ∀ b ∈ bs, b.isFree = false) := by
  obtain ⟨h, hr⟩ := heapRun_first
  obtain ⟨bs, p, h', hd⟩ := kmalloc_delivers_iff hr (show 100 < 2 ^ 64 by decide)
  exact ⟨h, bs, p, h', hr, hd⟩

/-- A request for 2⁶⁴ - 1 bytes is answered with the first block of the heap, cut to 32 bytes. -/
theorem kmalloc_wraps : ∃ h bs h', HeapRun kernelHeapBase AnyOp ∅ h ∧
    heapBlocks kernelHeapBase h = .ok bs ∧
    kmalloc kernelHeapBase h (2 ^ 64 - 1) = .ok (0x8000b5d8, h') ∧
    loadSize kernelHeapBase h'.mem 0x8000b5c0 = .ok 32 ∧
    ¬Delivers kernelHeapBase bs (2 ^ 64 - 1) 0x8000b5d8 h' := by
  have hi : HeapInv kernelHeapBase ∅ (memoryInit kernelHeapBase zeroHeap) _ := .init rfl
  obtain ⟨bs, hbs, _⟩ := hi.blocks
  rcases hi.kmalloc (2 ^ 64 - 1) with
    ⟨_, hall⟩ | ⟨pre, s, post, b, n, h', hss, _, _, rfl, rfl, hk, hload, _⟩
  · rcases hall with hz | hall
    · exact absurd hz (by decide)
    · exact absurd (hall _ List.mem_cons_self rfl) (by decide)
  · cases pre with
    | cons t pre => cases pre <;> cases hss
    | nil =>
      cases hss
      exact ⟨_, bs, h', .init rfl, hbs, hk, hload, hi.not_delivers hbs (by decide) (by decide)⟩

end

end ChipOS
