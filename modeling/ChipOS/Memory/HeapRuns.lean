import ChipOS.Memory.Refinement
import Mathlib.Data.Set.Insert

namespace ChipOS
open ByteMemory Tiling Run
set_option autoImplicit true

/-- A live allocation: the pointer `kmalloc` returned and the size in its block's header. -/
structure Allocation where
  ptr : Nat
  size : Nat
deriving DecidableEq, Repr

inductive HeapOp where
  | kmalloc (size : Nat)
  | kfree (ptr : Nat)
deriving DecidableEq, Repr

/-- The heaps reached from `memory_init` by `kmalloc`, `kfree` of null or of a live pointer,
and stores of the clients into live payloads, with the set of live allocations. Every call
is `allowed` in the heap it is made in. -/
inductive HeapRun (B : HeapBase) (allowed : Heap → HeapOp → Prop) : Set Allocation → Heap → Prop
  | init : h.memoryInitialized = false → HeapRun B allowed ∅ (memoryInit B h)
  | kmallocNull : HeapRun B allowed live h → allowed h (.kmalloc size) →
      kmalloc B h size = .ok (0, h') → HeapRun B allowed live h'
  | kmalloc : HeapRun B allowed live h → allowed h (.kmalloc size) →
      kmalloc B h size = .ok (p, h') → p ≠ 0 → loadSize B h'.mem (p - blockHeaderSize) = .ok n →
      HeapRun B allowed (insert ⟨p, n⟩ live) h'
  | kfreeNull : HeapRun B allowed live h → allowed h (.kfree 0) → kfree B h 0 = .ok h' →
      HeapRun B allowed live h'
  | kfree : HeapRun B allowed live h → x ∈ live → allowed h (.kfree x.ptr) →
      kfree B h x.ptr = .ok h' → HeapRun B allowed (live \ {x}) h'
  | write : HeapRun B allowed live h → x ∈ live → x.ptr ≤ a → a < x.ptr + x.size →
      HeapRun B allowed live { h with mem := Function.update h.mem a v }

def AnyOp (_ : Heap) (_ : HeapOp) : Prop := True

/-- The statistics that go with a block list. Every allocation is charged one header, and
one more header is charged from the start. -/
def heapStats (B : HeapBase) (ss : List Seg) : MemoryStats where
  totalMemory := heapSize
  usedMemory := blockHeaderSize + occupied blockHeaderSize B.addr ss
  freeMemory := u64Sub (heapSize - blockHeaderSize) (occupied blockHeaderSize B.addr ss)
  numAllocations := (used blockHeaderSize B.addr ss).length
  numFreeBlocks := 1

structure HeapInv (B : HeapBase) (live : Set Allocation) (h : Heap) (ss : List Seg) : Prop where
  tiled : Tiled B h ss
  mem_live : ∀ x, x ∈ live ↔
    ∃ b, (b, Seg.mk x.size false) ∈ used blockHeaderSize B.addr ss ∧ x.ptr = b + blockHeaderSize
  stats : h.stats = heapStats B ss

section
variable {B : HeapBase}

theorem occupied_append_cons (hs : used h a ss = xs ++ p :: ys)
    (hs' : used h a ss' = xs ++ ys) :
    occupied h a ss = occupied h a ss' + (h + p.2.size) := by
  rw [occupied, occupied, hs, hs']
  simp only [List.map_append, List.map_cons, List.sum_append, List.sum_cons]
  omega

theorem Tiled.occupied_le (ht : Tiled B h ss) :
    occupied blockHeaderSize B.addr ss ≤ heapSize := by
  have := span_eq blockHeaderSize B.addr ss
  rw [ht.span] at this
  omega

theorem Tiled.used_length_lt (ht : Tiled B h ss) :
    (used blockHeaderSize B.addr ss).length < heapSize := by
  rw [used_length]
  exact Nat.lt_of_le_of_lt List.countP_le_length ht.fuel

theorem used_taken (n k : Nat) : used blockHeaderSize a (pre ++ (takeBlock n k ++ post)) =
    used blockHeaderSize a pre ++ (a + span blockHeaderSize pre, ⟨takenSize n k, false⟩) ::
      used blockHeaderSize (a + span blockHeaderSize pre + blockHeaderSize + k) post := by
  rw [used_append, used_append, span_takeBlock, ← Nat.add_assoc]
  rw [takeBlock, takenSize]
  split
  · rw [used_cons_busy rfl, used_cons_free rfl, used_nil]
    rfl
  · rw [used_cons_busy rfl, used_nil]
    rfl

theorem heapStats_alloc (ht : Tiled B h ss') (hs : used blockHeaderSize B.addr ss = xs ++ ys)
    (hs' : used blockHeaderSize B.addr ss' = xs ++ p :: ys) :
    (heapStats B ss).alloc p.2.size = heapStats B ss' := by
  have hle := ht.occupied_le
  have hlt := ht.used_length_lt
  have hocc := occupied_append_cons hs' hs
  have hlen : (used blockHeaderSize B.addr ss').length =
      (used blockHeaderSize B.addr ss).length + 1 := by
    rw [hs, hs', List.length_append, List.length_append, List.length_cons, Nat.add_assoc]
  have hsz : heapSize = 1048576 := rfl
  have hh : blockHeaderSize = 24 := rfl
  simp only [heapStats, MemoryStats.alloc, MemoryStats.mk.injEq, u64, u64Sub, true_and, and_true]
  refine ⟨?_, ?_, ?_⟩ <;> omega

theorem heapStats_release (ht : Tiled B h ss)
    (hs : used blockHeaderSize B.addr ss = xs ++ p :: ys)
    (hs' : used blockHeaderSize B.addr ss' = xs ++ ys) :
    (heapStats B ss).release p.2.size = heapStats B ss' := by
  have hle := ht.occupied_le
  have hlt := ht.used_length_lt
  have hocc := occupied_append_cons hs hs'
  have hlen : (used blockHeaderSize B.addr ss).length =
      (used blockHeaderSize B.addr ss').length + 1 := by
    rw [hs, hs', List.length_append, List.length_append, List.length_cons, Nat.add_assoc]
  have hsz : heapSize = 1048576 := rfl
  have hh : blockHeaderSize = 24 := rfl
  simp only [heapStats, MemoryStats.release, MemoryStats.mk.injEq, u64, u64Sub, true_and, and_true]
  refine ⟨?_, ?_, ?_⟩ <;> omega

theorem HeapInv.payload (hi : HeapInv B live h ss) (hx : x ∈ live) :
    ∃ b, (b, Seg.mk x.size false) ∈ place blockHeaderSize B.addr ss ∧
      x.ptr = b + blockHeaderSize := by
  obtain ⟨b, hb, he⟩ := (hi.mem_live x).1 hx
  exact ⟨b, (mem_used.1 hb).1, he⟩

theorem HeapInv.payload_disjoint (hi : HeapInv B live h (pre ++ s :: post))
    (hsf : s.free = true) (hx : x ∈ live) :
    x.ptr + x.size ≤ B.addr + span blockHeaderSize pre ∨
      B.addr + span blockHeaderSize pre + blockHeaderSize + s.size ≤ x.ptr := by
  obtain ⟨b, hb, he⟩ := hi.payload hx
  have hmid : (B.addr + span blockHeaderSize pre, s) ∈
      place blockHeaderSize B.addr (pre ++ s :: post) := mem_place_mid
  have hne : b ≠ B.addr + span blockHeaderSize pre := by
    intro hbe
    have := place_inj (by decide) hb hmid hbe
    cases this
    cases hsf
  rcases place_disjoint hb hmid hne with hd | hd
  · simp only at hd
    omega
  · simp only at hd
    omega

theorem mem_live_insert {live : Set Allocation} (hl : ∀ x, x ∈ live ↔
      ∃ b, (b, Seg.mk x.size false) ∈ xs ++ ys ∧ x.ptr = b + blockHeaderSize) :
    x ∈ insert (Allocation.mk (a + blockHeaderSize) n) live ↔
      ∃ b, (b, Seg.mk x.size false) ∈ xs ++ (a, ⟨n, false⟩) :: ys ∧
        x.ptr = b + blockHeaderSize := by
  rw [Set.mem_insert_iff, hl]
  constructor
  · rintro (rfl | ⟨b, hb, hp⟩)
    · exact ⟨a, List.mem_append_right _ List.mem_cons_self, rfl⟩
    · refine ⟨b, ?_, hp⟩
      rcases List.mem_append.1 hb with hb | hb
      · exact List.mem_append_left _ hb
      · exact List.mem_append_right _ (List.mem_cons_of_mem _ hb)
  · rintro ⟨b, hb, hp⟩
    rcases List.mem_append.1 hb with hb | hb
    · exact .inr ⟨b, List.mem_append_left _ hb, hp⟩
    rcases List.mem_cons.1 hb with hb | hb
    · cases x
      cases hb
      cases hp
      exact .inl rfl
    · exact .inr ⟨b, List.mem_append_right _ hb, hp⟩

theorem mem_live_erase {live : Set Allocation} (hl : ∀ x, x ∈ live ↔
      ∃ b, (b, Seg.mk x.size false) ∈ xs ++ (a, ⟨n, false⟩) :: ys ∧ x.ptr = b + blockHeaderSize)
    (hne : ∀ p ∈ xs ++ ys, p.1 ≠ a) :
    x ∈ live \ {Allocation.mk (a + blockHeaderSize) n} ↔
      ∃ b, (b, Seg.mk x.size false) ∈ xs ++ ys ∧ x.ptr = b + blockHeaderSize := by
  rw [Set.mem_sdiff, hl, Set.mem_singleton_iff]
  constructor
  · rintro ⟨⟨b, hb, hp⟩, hx⟩
    refine ⟨b, ?_, hp⟩
    rcases List.mem_append.1 hb with hb | hb
    · exact List.mem_append_left _ hb
    rcases List.mem_cons.1 hb with hb | hb
    · cases x
      cases hb
      cases hp
      exact absurd rfl hx
    · exact List.mem_append_right _ hb
  · rintro ⟨b, hb, hp⟩
    refine ⟨⟨b, ?_, hp⟩, ?_⟩
    · rcases List.mem_append.1 hb with hb | hb
      · exact List.mem_append_left _ hb
      · exact List.mem_append_right _ (List.mem_cons_of_mem _ hb)
    · rintro rfl
      exact hne _ hb (Nat.add_right_cancel hp).symm

theorem heapStats_init : heapStats B [⟨heapSize - blockHeaderSize, true⟩] =
    { totalMemory := heapSize
      usedMemory := blockHeaderSize
      freeMemory := heapSize - blockHeaderSize
      numAllocations := 0
      numFreeBlocks := 1 } := by
  have hz : u64Sub (heapSize - blockHeaderSize) 0 = heapSize - blockHeaderSize := by decide
  simp only [heapStats, occupied, used_cons_free, used_nil, List.map_nil, List.sum_nil, hz,
    List.length_nil, Nat.add_zero]

theorem HeapInv.init (hh : h.memoryInitialized = false) :
    HeapInv B ∅ (memoryInit B h) [⟨heapSize - blockHeaderSize, true⟩] := by
  have he : memoryInit B h =
      { mem := store (store (store h.mem B.addr 8 (heapSize - blockHeaderSize)) (B.addr + 8) 4 1)
          (B.addr + 16) 8 0
        heapStart := B.addr
        memoryInitialized := true
        stats := heapStats B [⟨heapSize - blockHeaderSize, true⟩] } := by
    rw [memoryInit, if_neg (by rw [hh]; decide), heapStats_init]
  rw [he]
  refine ⟨⟨rfl, ⟨rfl, ?_, ?_, ?_⟩, rfl, ?_, .singleton _⟩, ?_, rfl⟩
  · rw [load_store_disjoint (by omega), load_store_disjoint (by omega)]
    exact load_store_same (by decide)
  · rw [load_store_disjoint (by omega)]
    exact load_store_same (by decide)
  · exact load_store_same (by decide)
  · intro s hs
    cases List.mem_singleton.1 hs
    decide
  · intro x
    constructor
    · intro hx
      exact hx.elim
    · rintro ⟨b, hb, _⟩
      exact absurd hb List.not_mem_nil

theorem kmalloc_zero (ht : Tiled B h ss) : ChipOS.kmalloc B h 0 = .ok (0, h) := by
  rw [ChipOS.kmalloc, ht.initialized, if_pos rfl]
  rfl

/-- A call of `kmalloc` returns null and changes nothing, or hands out a free block and
writes only inside it. -/
theorem HeapInv.kmalloc (hi : HeapInv B live h ss) (size : Nat) :
    (kmalloc B h size = .ok (0, h) ∧
      (size = 0 ∨ ∀ s ∈ ss, s.free = true → s.size < requestSize size)) ∨
    ∃ pre s post b n h', ss = pre ++ s :: post ∧ s.free = true ∧ requestSize size ≤ s.size ∧
      b = B.addr + span blockHeaderSize pre ∧ n = takenSize (requestSize size) s.size ∧
      kmalloc B h size = .ok (b + blockHeaderSize, h') ∧ loadSize B h'.mem b = .ok n ∧
      HeapInv B (insert ⟨b + blockHeaderSize, n⟩ live) h'
        (pre ++ (takeBlock (requestSize size) s.size ++ post)) ∧
      ∀ x ∈ live, ∀ a, x.ptr ≤ a → a < x.ptr + x.size → h'.mem a = h.mem a := by
  by_cases hn : size = 0
  · exact .inl ⟨hn ▸ kmalloc_zero hi.tiled, .inl hn⟩
  rcases kmalloc_spec hi.tiled hn with ⟨he, hall⟩ | ⟨pre, s, post, rfl, hsf, hle, he⟩
  · exact .inl ⟨he, .inr hall⟩
  · have hsz : heapSize = 1048576 := rfl
    have hh : blockHeaderSize = 24 := rfl
    have htop := B.addr_fits
    have hspan := hi.tiled.span
    simp only [span_append, span_cons] at hspan
    obtain ⟨hsize, _⟩ := hi.tiled.seg.mid
    have ht := Tiled.alloc (n := requestSize size) hi.tiled hsf
      (minBlockSize_le_requestSize size) (requestSize_mod size)
    have hused : used blockHeaderSize B.addr (pre ++ s :: post) = _ := used_mid_free hsf
    have hused' : used blockHeaderSize B.addr
      (pre ++ (takeBlock (requestSize size) s.size ++ post)) = _ := used_taken _ _
    refine .inr ⟨pre, s, post, _, _, _, rfl, hsf, hle, rfl, rfl, he, ?_, ⟨ht _, ?_, ?_⟩, ?_⟩
    · rw [loadSize, readField_eq (by omega) (by omega)]
      exact congrArg _ (takenMem_size hsize (by omega) (by omega))
    · intro x
      rw [hused']
      exact mem_live_insert (hused ▸ hi.mem_live)
    · simp only [hi.stats]
      exact heapStats_alloc (p := (_, ⟨takenSize (requestSize size) s.size, false⟩)) (ht h.stats)
        hused hused'
    · intro x hx a ha ha'
      have hd := hi.payload_disjoint hsf hx
      exact takenMem_outside (by omega) (by omega)

/-- `kfree` of a live pointer takes its allocation off the live set and changes no byte of a
payload, not even of the one it frees. -/
theorem HeapInv.kfree (hi : HeapInv B live h ss) (hx : x ∈ live) :
    ∃ pre post h', ss = pre ++ ⟨x.size, false⟩ :: post ∧
      x.ptr = B.addr + span blockHeaderSize pre + blockHeaderSize ∧
      kfree B h x.ptr = .ok h' ∧
      HeapInv B (live \ {x}) h' (coalesce blockHeaderSize (pre ++ ⟨x.size, true⟩ :: post)) ∧
      ∀ y ∈ live, ∀ a, y.ptr ≤ a → a < y.ptr + y.size → h'.mem a = h.mem a := by
  obtain ⟨b, hb, hp⟩ := hi.payload hx
  obtain ⟨pre, post, rfl, hbe⟩ := place_split hb
  simp only at hbe
  rw [hbe] at hp
  obtain ⟨m, he, hseg, hout⟩ := kfree_spec hi.tiled rfl
  have hused : used blockHeaderSize B.addr (pre ++ ⟨x.size, false⟩ :: post) = _ :=
    used_mid_busy rfl
  have hused' : used blockHeaderSize B.addr
      (coalesce blockHeaderSize (pre ++ ⟨x.size, true⟩ :: post)) = _ :=
    used_coalesce.trans (used_mid_free rfl)
  refine ⟨pre, post, _, rfl, hp, hp ▸ he, ⟨Tiled.release hi.tiled hseg, ?_, ?_⟩, ?_⟩
  · intro y
    have hxe : x = ⟨B.addr + span blockHeaderSize pre + blockHeaderSize, x.size⟩ := by
      rw [← hp]
    rw [hused', hxe]
    apply mem_live_erase (hused ▸ hi.mem_live)
    -- the blocks before end where this one starts, and those after start past its header
    intro p hmem he
    have hh : blockHeaderSize = 24 := rfl
    rcases List.mem_append.1 hmem with hmem | hmem
    · have := (used_bounds hmem).2
      omega
    · have := (used_bounds hmem).1
      omega
  · simp only [hi.stats]
    exact heapStats_release (p := (_, ⟨x.size, false⟩)) hi.tiled hused hused'
  · intro y hy a ha ha'
    obtain ⟨c, hc, hq⟩ := hi.payload hy
    exact hout a (outsideHeaders_payload hc (by omega) (by simp only; omega))

theorem kfree_null (h : Heap) : ChipOS.kfree B h 0 = .ok h := if_pos (.inl rfl)

theorem HeapInv.writeOutside (hi : HeapInv B live h ss) (hout : OutsideHeaders a B.addr ss) :
    HeapInv B live { h with mem := Function.update h.mem a v } ss := by
  refine ⟨⟨hi.tiled.initialized, ?_, hi.tiled.span, hi.tiled.sizes, hi.tiled.coalesced⟩,
    hi.mem_live, hi.stats⟩
  apply hi.tiled.seg.frame
  intro y _ _ hy
  apply Function.update_of_ne
  rintro rfl
  exact hy hout

theorem HeapInv.write (hi : HeapInv B live h ss) (hx : x ∈ live) (ha : x.ptr ≤ a)
    (ha' : a < x.ptr + x.size) :
    HeapInv B live { h with mem := Function.update h.mem a v } ss := by
  obtain ⟨b, hb, hp⟩ := hi.payload hx
  apply hi.writeOutside
  exact outsideHeaders_payload hb (by omega) (by simp only; omega)

theorem HeapInv.kmalloc_null (hi : HeapInv B live h ss)
    (he : ChipOS.kmalloc B h size = .ok (0, h')) : h' = h := by
  rcases hi.kmalloc size with ⟨hk, _⟩ | ⟨pre, s, post, b, n, h', _, _, _, _, _, hk, _⟩
  · cases hk.symm.trans he
    rfl
  · cases hk.symm.trans he

theorem HeapInv.kmalloc_some (hi : HeapInv B live h ss)
    (he : ChipOS.kmalloc B h size = .ok (p, h')) (hp : p ≠ 0)
    (hn : loadSize B h'.mem (p - blockHeaderSize) = .ok n) :
    ∃ ss', HeapInv B (insert ⟨p, n⟩ live) h' ss' := by
  rcases hi.kmalloc size with ⟨hk, _⟩ | ⟨pre, s, post, b, n, h', _, _, _, _, _, hk, hsize, hi', _⟩
  · cases hk.symm.trans he
    exact absurd rfl hp
  · cases hk.symm.trans he
    rw [Nat.add_sub_cancel, hsize] at hn
    cases hn
    exact ⟨_, hi'⟩

theorem HeapRun.inv (hr : HeapRun B allowed live h) : ∃ ss, HeapInv B live h ss := by
  induction hr with
  | init hh => exact ⟨_, .init hh⟩
  | kmallocNull _ _ he ih =>
    obtain ⟨ss, hi⟩ := ih
    cases hi.kmalloc_null he
    exact ⟨ss, hi⟩
  | kmalloc _ _ he hp hn ih =>
    obtain ⟨ss, hi⟩ := ih
    exact hi.kmalloc_some he hp hn
  | kfreeNull _ _ he ih =>
    obtain ⟨ss, hi⟩ := ih
    cases (kfree_null _).symm.trans he
    exact ⟨ss, hi⟩
  | kfree _ hx _ he ih =>
    obtain ⟨ss, hi⟩ := ih
    obtain ⟨pre, post, h', _, _, hk, hi', _⟩ := hi.kfree hx
    cases hk.symm.trans he
    exact ⟨_, hi'⟩
  | write _ hx ha ha' ih =>
    obtain ⟨ss, hi⟩ := ih
    exact ⟨ss, hi.write hx ha ha'⟩

theorem HeapInv.blocks (hi : HeapInv B live h ss) :
    ∃ bs, heapBlocks B h = .ok bs ∧
      bs.map (fun b => (b.addr, Seg.mk b.size b.isFree)) = place blockHeaderSize B.addr ss ∧
      bs.IsChain (fun b c => b.next = c.addr) ∧ ∀ b ∈ bs.getLast?, b.next = 0 :=
  blockList_spec hi.tiled.seg (Nat.le_refl _) hi.tiled.end_le hi.tiled.fuel

end

end ChipOS
