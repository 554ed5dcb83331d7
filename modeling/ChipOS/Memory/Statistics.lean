import ChipOS.Memory.HeapTheorems

namespace ChipOS
open ByteMemory Tiling Run
set_option autoImplicit true

def printedAfter (label : String) : List ConsoleOut → Option Nat
  | [] => none
  | [_] => none
  | .puts text :: .putHex value :: out =>
    if text = label then some value else printedAfter label (.putHex value :: out)
  | _ :: next :: out => printedAfter label (next :: out)

/-- The counters, and what `memory_print_info` prints, agree with the block list. -/
structure StatsMatch (h : Heap) (bs : List BlockInfo) : Prop where
  sum : h.stats.usedMemory + h.stats.freeMemory = heapSize
  used_le : h.stats.usedMemory ≤ heapSize
  free_le : h.stats.freeMemory ≤ heapSize
  free : h.stats.freeMemory = ((bs.filter BlockInfo.isFree).map BlockInfo.size).sum
  allocations : h.stats.numAllocations = bs.countP fun b => !b.isFree
  printed : printedAfter "Free blocks: " (memoryPrintInfo h) = some (bs.countP BlockInfo.isFree)

/-- Two neighbours in the list, one of them free, the other one the block of the pointer. -/
def Beside (bs : List BlockInfo) (ptr : Nat) : Prop :=
  ∃ pre b c post, bs = pre ++ b :: c :: post ∧
    (b.addr + blockHeaderSize = ptr ∧ c.isFree = true ∨
      c.addr + blockHeaderSize = ptr ∧ b.isFree = true)

/-- `kmalloc` gets null or splits the block it finds; `kfree` of a pointer joins its block
with a free neighbour. -/
def KeepsOneGap (B : HeapBase) (h : Heap) : HeapOp → Prop
  | .kmalloc size => size = 0 ∨ ∀ bs, heapBlocks B h = .ok bs → ∀ b ∈ bs, b.isFree = true →
      b.size < requestSize size ∨ requestSize size + blockHeaderSize + minBlockSize < b.size
  | .kfree ptr => ptr = 0 ∨ ∀ bs, heapBlocks B h = .ok bs → Beside bs ptr

section
variable {B : HeapBase} {bs : List BlockInfo} {x : Allocation}

theorem printedAfter_free (h : Heap) :
    printedAfter "Free blocks: " (memoryPrintInfo h) = some (h.stats.numFreeBlocks % 2 ^ 32) := by
  rw [memoryPrintInfo]
  split <;> rfl

theorem countP_isFree (hmap : bs.map (fun b => (b.addr, b.seg)) = place h a ss) :
    bs.countP BlockInfo.isFree = ss.countP Seg.free := by
  rw [← map_seg hmap, List.countP_map]
  rfl

theorem HeapInv.statsMatch_iff (hi : HeapInv B live h ss)
    (hmap : bs.map (fun b => (b.addr, b.seg)) = place blockHeaderSize B.addr ss) :
    StatsMatch h bs ↔ bs.countP BlockInfo.isFree = 1 := by
  have hseg := map_seg hmap
  have hcount := countP_isFree hmap
  have hbusy : (bs.countP fun b => !b.isFree) = ss.countP fun s => !s.free := by
    rw [← hseg, List.countP_map]
    rfl
  have hgaps : ((bs.filter BlockInfo.isFree).map BlockInfo.size).sum = gaps ss := by
    rw [gaps, ← hseg, List.filter_map, List.map_map]
    rfl
  have hspan := span_eq blockHeaderSize B.addr ss
  rw [hi.tiled.span] at hspan
  have hsz : heapSize = 1048576 := rfl
  have hh : blockHeaderSize = 24 := rfl
  constructor
  · intro hm
    have hp := hm.printed
    rw [printedAfter_free, hi.stats] at hp
    exact (Option.some.inj hp).symm
  · intro hone
    rw [hcount] at hone
    rw [hone] at hspan
    have hfree : u64Sub (heapSize - blockHeaderSize) (occupied blockHeaderSize B.addr ss) =
        heapSize - blockHeaderSize - occupied blockHeaderSize B.addr ss :=
      u64Sub_eq (by omega) (by omega)
    refine ⟨?_, ?_, ?_, ?_, ?_, ?_⟩
    · simp only [hi.stats, heapStats, hfree]
      omega
    · simp only [hi.stats, heapStats]
      omega
    · simp only [hi.stats, heapStats, hfree]
      omega
    · simp only [hi.stats, heapStats, hfree, hgaps]
      omega
    · simp only [hi.stats, heapStats, used_length, hbusy]
    · rw [printedAfter_free, hi.stats, hcount, hone]
      rfl

/-- `memory_get_stats` recomputes the count that `memory_print_info` takes from the record. -/
theorem HeapInv.memoryGetStats (hi : HeapInv B live h ss) :
    ∃ stats h', ChipOS.memoryGetStats B h = .ok (stats, h') ∧
      stats.numFreeBlocks = ss.countP Seg.free := by
  have hc := countFreeBlocks_spec hi.tiled.seg (Nat.le_refl _) hi.tiled.end_le hi.tiled.fuel
  refine ⟨{ h.stats with numFreeBlocks := ss.countP Seg.free },
    { h with stats := { h.stats with numFreeBlocks := ss.countP Seg.free } }, ?_, rfl⟩
  rw [ChipOS.memoryGetStats, hc]
  rfl

theorem HeapInv.beside (hi : HeapInv B live h (pre ++ ⟨x.size, false⟩ :: post))
    (hp : x.ptr = B.addr + span blockHeaderSize pre + blockHeaderSize)
    (hone : (pre ++ ⟨x.size, false⟩ :: post).countP Seg.free = 1)
    (hbs : heapBlocks B h = .ok bs) (hbeside : Beside bs x.ptr) :
    (coalesce blockHeaderSize (pre ++ ⟨x.size, true⟩ :: post)).countP Seg.free = 1 := by
  obtain ⟨bs', hbs', hmap, _⟩ := hi.blocks
  cases hbs.symm.trans hbs'
  obtain ⟨pre', b, c, post', rfl, hnb⟩ := hbeside
  have hrest : (pre ++ post).countP Seg.free = 1 := by
    rw [List.countP_append, List.countP_cons_of_neg Bool.false_ne_true] at hone
    rwa [List.countP_append]
  rcases hnb with ⟨hb, hc⟩ | ⟨hc, hb⟩
  · obtain ⟨hss, haddr⟩ := blocks_split hmap
    obtain ⟨rfl, _, rfl⟩ := append_inj_of_span (h := blockHeaderSize) (by decide) hss (by omega)
    rw [List.map_cons] at hrest ⊢
    have hc' : c.seg.free = true := hc
    apply countP_coalesce_join (by decide) rfl hc'
    rw [List.countP_append, List.countP_cons_of_pos hc'] at hrest
    rw [List.countP_append]
    omega
  · have hcons : pre' ++ b :: c :: post' = (pre' ++ [b]) ++ c :: post' := by
      rw [List.append_assoc, List.singleton_append]
    rw [hcons] at hmap
    obtain ⟨hss, haddr⟩ := blocks_split hmap
    obtain ⟨rfl, _, rfl⟩ := append_inj_of_span (h := blockHeaderSize) (by decide) hss (by omega)
    rw [List.map_append, List.map_cons, List.map_nil] at hrest ⊢
    rw [List.append_assoc, List.singleton_append]
    have hb' : b.seg.free = true := hb
    apply countP_coalesce_join (by decide) hb' rfl
    rw [List.countP_append, List.countP_append, List.countP_cons_of_pos hb', List.countP_nil]
      at hrest
    rw [List.countP_append]
    omega

theorem HeapRun.one_gap (hr : HeapRun B (KeepsOneGap B) live h) :
    ∃ ss, HeapInv B live h ss ∧ ss.countP Seg.free = 1 := by
  induction hr with
  | init hh => exact ⟨_, .init hh, rfl⟩
  | kmallocNull _ _ he ih =>
    obtain ⟨ss, hi, hone⟩ := ih
    cases hi.kmalloc_null he
    exact ⟨ss, hi, hone⟩
  | @kmalloc live h size p h' n _ hkeep he hp hn ih =>
    obtain ⟨ss, hi, hone⟩ := ih
    rcases hi.kmalloc size with
      ⟨hk, _⟩ | ⟨pre, s, post, b, n, h', rfl, hsf, hle, rfl, rfl, hk, hsize, hi', _⟩
    · cases hk.symm.trans he
      exact absurd rfl hp
    · cases hk.symm.trans he
      rw [Nat.add_sub_cancel, hsize] at hn
      cases hn
      refine ⟨_, hi', ?_⟩
      have hbig : requestSize size + blockHeaderSize + minBlockSize < s.size := by
        rcases hkeep with rfl | hkeep
        · have hz := congrArg Prod.fst (Except.ok.inj (hk.symm.trans (kmalloc_zero hi.tiled)))
          have hh : blockHeaderSize = 24 := rfl
          simp only at hz
          omega
        obtain ⟨bs, hbs, hmap, _⟩ := hi.blocks
        have hmem : s ∈ bs.map BlockInfo.seg := by
          rw [map_seg hmap]
          exact List.mem_append_right _ List.mem_cons_self
        obtain ⟨b, hb, rfl⟩ := List.mem_map.1 hmem
        rcases hkeep bs hbs b hb hsf with hlt | hlt
        · exact absurd hle (Nat.not_le.2 hlt)
        · exact hlt
      rw [takeBlock, if_pos hbig]
      rw [List.countP_append, List.countP_cons_of_pos hsf] at hone
      rw [List.countP_append, List.countP_append, List.countP_cons_of_neg Bool.false_ne_true,
        List.countP_cons_of_pos rfl, List.countP_nil]
      omega
  | kfreeNull _ _ he ih =>
    obtain ⟨ss, hi, hone⟩ := ih
    cases (kfree_null _).symm.trans he
    exact ⟨ss, hi, hone⟩
  | kfree _ hx hkeep he ih =>
    obtain ⟨ss, hi, hone⟩ := ih
    obtain ⟨pre, post, h', rfl, hp, hk, hi', _⟩ := hi.kfree hx
    cases hk.symm.trans he
    refine ⟨_, hi', ?_⟩
    obtain ⟨bs, hbs, _⟩ := hi.blocks
    rcases hkeep with hz | hkeep
    · have := (hi.ptr_bounds hx).2.1
      have hh : blockHeaderSize = 24 := rfl
      omega
    · exact hi.beside hp hone hbs (hkeep bs hbs)
  | write _ hx ha ha' ih =>
    obtain ⟨ss, hi, hone⟩ := ih
    exact ⟨ss, hi.write hx ha ha', hone⟩

/-- The counters agree with the block list exactly while the list holds one free block, and
runs whose calls all keep one free block stay there. -/
theorem stats_match_iff (B : HeapBase) :
    (∀ live h, HeapRun B AnyOp live h → ∃ bs, heapBlocks B h = .ok bs ∧
      (StatsMatch h bs ↔ bs.countP BlockInfo.isFree = 1)) ∧
    ∀ live h, HeapRun B (KeepsOneGap B) live h → ∃ bs, heapBlocks B h = .ok bs ∧
      StatsMatch h bs := by
  constructor
  · intro live h hr
    obtain ⟨ss, hi⟩ := hr.inv
    obtain ⟨bs, hbs, hmap, _⟩ := hi.blocks
    exact ⟨bs, hbs, hi.statsMatch_iff hmap⟩
  · intro live h hr
    obtain ⟨ss, hi, hone⟩ := hr.one_gap
    obtain ⟨bs, hbs, hmap, _⟩ := hi.blocks
    refine ⟨bs, hbs, (hi.statsMatch_iff hmap).2 ?_⟩
    exact (countP_isFree hmap).trans hone

/-- The heap after an allocation that takes all of it: no block is free, and the free
memory has wrapped around. -/
theorem stats_mismatch : ∃ h bs, HeapRun kernelHeapBase AnyOp {⟨0x8000b5d8, 1048552⟩} h ∧
    heapBlocks kernelHeapBase h = .ok bs ∧ ¬StatsMatch h bs := by
  obtain ⟨h, hr, hi⟩ := HeapRun.first (B := kernelHeapBase) 1048552 (by decide) (by decide) rfl
  obtain ⟨bs, hbs, hmap, _⟩ := hi.blocks
  refine ⟨h, bs, hr, hbs, ?_⟩
  rw [hi.statsMatch_iff hmap, countP_isFree hmap]
  decide

end

end ChipOS
