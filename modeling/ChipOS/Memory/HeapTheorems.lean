import ChipOS.Memory.HeapRuns
import Mathlib.Order.BooleanAlgebra.Set

namespace ChipOS
open ByteMemory Tiling Run
set_option autoImplicit true

/-- What the list nodes say about the tiling of `heap_memory`. -/
structure TilesHeap (B : HeapBase) (bs : List BlockInfo) : Prop where
  first : bs.head?.map BlockInfo.addr = some B.addr
  next : bs.IsChain fun b c => b.next = c.addr
  adjacent : bs.IsChain fun b c => c.addr = b.addr + blockHeaderSize + b.size
  last : ∀ b ∈ bs.getLast?, b.next = 0
  total : (bs.map fun b => blockHeaderSize + b.size).sum = heapSize
  sizes : ∀ b ∈ bs, b.size % 8 = 0 ∧ minBlockSize ≤ b.size
  separated : bs.IsChain fun b c => ¬(b.isFree = true ∧ c.isFree = true)

def BlockInfo.seg (b : BlockInfo) : Seg := ⟨b.size, b.isFree⟩

/-- Where `build/kernel.elf` has `heap_memory`. -/
def kernelHeapBase : HeapBase := ⟨0x8000b5c0, by decide, by decide⟩

def zeroHeap : Heap := ⟨fun _ => 0, 0, false, ⟨0, 0, 0, 0, 0⟩⟩

def blockView (B : HeapBase) (h : Heap) : Except Fault (List (Nat × Nat × Bool)) :=
  (heapBlocks B h).map fun bs => bs.map fun b => (b.addr, b.size, b.isFree)

structure SameHeap (B : HeapBase) (h h' : Heap) : Prop where
  blocks : blockView B h = blockView B h'
  used : h.stats.usedMemory = h'.stats.usedMemory
  free : h.stats.freeMemory = h'.stats.freeMemory
  allocations : h.stats.numAllocations = h'.stats.numAllocations

section
variable {B : HeapBase} {bs : List BlockInfo}

theorem sum_span (hmap : bs.map (fun b => (b.addr, b.seg)) = place h a ss) :
    (bs.map fun b => h + b.size).sum = span h ss := by
  induction ss generalizing a bs with
  | nil =>
    cases List.map_eq_nil_iff.1 hmap
    rfl
  | cons s ss ih =>
    obtain ⟨b, bs, rfl, hb, hrest⟩ := List.map_eq_cons_iff.1 hmap
    cases hb
    rw [List.map_cons, List.sum_cons, ih hrest]
    rfl

theorem span_mod (hss : ∀ s ∈ ss, s.size % 8 = 0) : span blockHeaderSize ss % 8 = 0 := by
  induction ss with
  | nil => rfl
  | cons s ss ih =>
    have hs := hss s List.mem_cons_self
    have hrest := ih fun t ht => hss t (List.mem_cons_of_mem _ ht)
    simp only [span_cons, blockHeaderSize] at hrest ⊢
    omega

theorem map_seg (hmap : bs.map (fun b => (b.addr, b.seg)) = place h a ss) :
    bs.map BlockInfo.seg = ss := by
  rw [← map_snd_place h a ss, ← hmap, List.map_map]
  rfl

theorem blocks_split (hmap : (pre ++ b :: post).map (fun b => (b.addr, b.seg)) = place h a ss) :
    ss = pre.map BlockInfo.seg ++ b.seg :: post.map BlockInfo.seg ∧
      b.addr = a + span h (pre.map BlockInfo.seg) := by
  have hseg := map_seg hmap
  rw [List.map_append, List.map_cons] at hseg
  refine ⟨hseg.symm, ?_⟩
  rw [← hseg, List.map_append, List.map_cons, place_append, place_cons] at hmap
  have hlen : (pre.map fun b => (b.addr, b.seg)).length =
      (place h a (pre.map BlockInfo.seg)).length := by
    rw [List.length_map, length_place, List.length_map]
  exact congrArg Prod.fst (List.cons.inj (List.append_inj hmap hlen).2).1

theorem HeapInv.tilesHeap (hi : HeapInv B live h ss)
    (hmap : bs.map (fun b => (b.addr, b.seg)) = place blockHeaderSize B.addr ss)
    (hnext : bs.IsChain fun b c => b.next = c.addr) (hlast : ∀ b ∈ bs.getLast?, b.next = 0) :
    TilesHeap B bs := by
  have hseg := map_seg hmap
  refine ⟨?_, hnext, ?_, hlast, (sum_span hmap).trans hi.tiled.span, ?_, ?_⟩
  · cases ss with
    | nil => cases hi.tiled.span
    | cons s ss =>
      obtain ⟨b, bs, rfl, hb, hrest⟩ := List.map_eq_cons_iff.1 hmap
      exact congrArg (some ·.1) hb
  · have hchain := place_chain blockHeaderSize B.addr ss
    rw [← hmap, List.isChain_map] at hchain
    exact hchain
  · intro b hb
    have := hi.tiled.sizes b.seg (hseg ▸ List.mem_map_of_mem hb)
    exact this.symm
  · have hc := hi.tiled.coalesced
    rw [← hseg] at hc
    exact (List.isChain_map _).1 hc

theorem HeapInv.mem_blocks (hi : HeapInv B live h ss)
    (hmap : bs.map (fun b => (b.addr, b.seg)) = place blockHeaderSize B.addr ss) :
    x ∈ live ↔ ∃ b ∈ bs, b.isFree = false ∧ x.ptr = b.addr + blockHeaderSize ∧ x.size = b.size := by
  rw [hi.mem_live]
  constructor
  · rintro ⟨a, ha, hp⟩
    rw [mem_used, ← hmap] at ha
    obtain ⟨b, hb, he⟩ := List.mem_map.1 ha.1
    obtain ⟨hba, hseg⟩ := Prod.mk.inj he
    exact ⟨b, hb, congrArg Seg.free hseg, hba ▸ hp, (congrArg Seg.size hseg).symm⟩
  · rintro ⟨b, hb, hfree, hp, hn⟩
    refine ⟨b.addr, mem_used.2 ⟨?_, rfl⟩, hp⟩
    rw [← hmap, hn, ← hfree]
    exact List.mem_map_of_mem hb

theorem HeapInv.ptr_bounds (hi : HeapInv B live h ss) (hx : x ∈ live) :
    (x.ptr - B.addr) % 8 = 0 ∧ B.addr + blockHeaderSize ≤ x.ptr ∧
      x.ptr + x.size ≤ B.addr + heapSize ∧ minBlockSize ≤ x.size := by
  obtain ⟨b, hb, hp⟩ := hi.payload hx
  obtain ⟨pre, post, rfl, hbe⟩ := place_split hb
  have hspan := hi.tiled.span
  have hsize := (hi.tiled.sizes _ (List.mem_append_right pre List.mem_cons_self)).1
  have hh : blockHeaderSize = 24 := rfl
  have hmod : span blockHeaderSize pre % 8 = 0 := by
    apply span_mod
    intro s hs
    exact (hi.tiled.sizes s (List.mem_append_left _ hs)).2
  simp only [span_append, span_cons] at hspan hbe hsize
  omega

theorem HeapInv.live_disjoint (hi : HeapInv B live h ss) (hx : x ∈ live) (hy : y ∈ live)
    (hne : x ≠ y) : x.ptr + x.size ≤ y.ptr ∨ y.ptr + y.size ≤ x.ptr := by
  obtain ⟨b, hb, hp⟩ := hi.payload hx
  obtain ⟨c, hc, hq⟩ := hi.payload hy
  by_cases hbc : b = c
  · have := place_inj (by decide) hb hc hbc
    cases x
    cases y
    cases this
    exact (hne (by rw [Allocation.mk.injEq]; exact ⟨hp.trans hq.symm, rfl⟩)).elim
  · rcases place_disjoint hb hc hbc with hd | hd
    · simp only at hd
      omega
    · simp only at hd
      omega

theorem HeapInv.ptr_inj (hi : HeapInv B live h ss) (hx : x ∈ live) (hy : y ∈ live)
    (he : x.ptr = y.ptr) : x = y := by
  by_contra hne
  have hmin : minBlockSize = 32 := rfl
  have := (hi.ptr_bounds hx).2.2.2
  have := (hi.ptr_bounds hy).2.2.2
  rcases hi.live_disjoint hx hy hne with hd | hd <;> omega

/-- In every heap reached from `memory_init` the block list tiles `heap_memory`, its blocks
in use are the live allocations, and no call writes inside a live payload. -/
theorem heap_tiling (hr : HeapRun B AnyOp live h) :
    (∃ bs, heapBlocks B h = .ok bs ∧ TilesHeap B bs ∧
      ∀ x, x ∈ live ↔ ∃ b ∈ bs, b.isFree = false ∧ x.ptr = b.addr + blockHeaderSize ∧
        x.size = b.size) ∧
    (∀ x ∈ live, (x.ptr - B.addr) % 8 = 0 ∧ B.addr + blockHeaderSize ≤ x.ptr ∧
      x.ptr + x.size ≤ B.addr + heapSize) ∧
    (∀ x ∈ live, ∀ y ∈ live, x ≠ y → x.ptr + x.size ≤ y.ptr ∨ y.ptr + y.size ≤ x.ptr) ∧
    (∀ size, ∃ p h', kmalloc B h size = .ok (p, h') ∧
      ∀ x ∈ live, ∀ a, x.ptr ≤ a → a < x.ptr + x.size → h'.mem a = h.mem a) ∧
    (∀ x ∈ live, ∃ h', kfree B h x.ptr = .ok h' ∧
      ∀ y ∈ live, ∀ a, y.ptr ≤ a → a < y.ptr + y.size → h'.mem a = h.mem a) ∧
    kfree B h 0 = .ok h := by
  obtain ⟨ss, hi⟩ := hr.inv
  obtain ⟨bs, hbs, hmap, hnext, hlast⟩ := hi.blocks
  refine ⟨⟨bs, hbs, hi.tilesHeap hmap hnext hlast, fun x => hi.mem_blocks hmap⟩, ?_, ?_, ?_, ?_,
    kfree_null h⟩
  · intro x hx
    obtain ⟨hmod, hlo, hhi, _⟩ := hi.ptr_bounds hx
    exact ⟨hmod, hlo, hhi⟩
  · intro x hx y hy hne
    exact hi.live_disjoint hx hy hne
  · intro size
    rcases hi.kmalloc size with ⟨hk, _⟩ | ⟨_, _, _, _, _, h', _, _, _, _, _, hk, _, _, hframe⟩
    · exact ⟨0, h, hk, fun x _ a _ _ => rfl⟩
    · exact ⟨_, h', hk, hframe⟩
  · intro x hx
    obtain ⟨_, _, h', _, _, hk, _, hframe⟩ := hi.kfree hx
    exact ⟨h', hk, hframe⟩

theorem HeapRun.first (size : Nat) (hz : size ≠ 0)
    (hle : requestSize size ≤ heapSize - blockHeaderSize)
    (hn : n = takenSize (requestSize size) (heapSize - blockHeaderSize)) :
    ∃ h, HeapRun B AnyOp {⟨B.addr + blockHeaderSize, n⟩} h ∧
      HeapInv B {⟨B.addr + blockHeaderSize, n⟩} h
        (takeBlock (requestSize size) (heapSize - blockHeaderSize)) := by
  have hi : HeapInv B ∅ (memoryInit B zeroHeap) _ := .init rfl
  rcases hi.kmalloc size with ⟨_, hall⟩ | ⟨pre, s, post, b, k, h', hss, _, _, rfl, hk, he, hs, hi', _⟩
  · rcases hall with hall | hall
    · exact absurd hall hz
    · exact absurd (hall _ List.mem_cons_self rfl) (Nat.not_lt.2 hle)
  · cases pre with
    | nil =>
      cases hss
      cases hk.trans hn.symm
      have hr : HeapRun B AnyOp _ _ := .kmalloc (.init rfl) trivial he (Nat.succ_ne_zero _) hs
      rw [insert_empty_eq] at hr hi'
      rw [List.nil_append, List.append_nil] at hi'
      exact ⟨h', hr, hi'⟩
    | cons t pre =>
      cases pre <;> cases hss

theorem heapRun_first : ∃ h, HeapRun kernelHeapBase AnyOp {⟨0x8000b5d8, 64⟩} h := by
  obtain ⟨h, hr, _⟩ := HeapRun.first (B := kernelHeapBase) 64 (by decide) (by decide) rfl
  exact ⟨h, hr⟩

theorem heap_tiling_first : ∃ h bs, HeapRun kernelHeapBase AnyOp {⟨0x8000b5d8, 64⟩} h ∧
    heapBlocks kernelHeapBase h = .ok bs ∧ TilesHeap kernelHeapBase bs := by
  obtain ⟨h, hr⟩ := heapRun_first
  obtain ⟨⟨bs, hbs, ht, _⟩, _⟩ := heap_tiling hr
  exact ⟨h, bs, hr, hbs, ht⟩

theorem HeapInv.blockView_eq (hi : HeapInv B live h ss) :
    blockView B h = .ok ((place blockHeaderSize B.addr ss).map
      fun p => (p.1, p.2.size, p.2.free)) := by
  obtain ⟨bs, hbs, hmap, _⟩ := hi.blocks
  rw [blockView, hbs, ← hmap, List.map_map]
  rfl

theorem HeapInv.unique (hi : HeapInv B live h ss) (hi' : HeapInv B live h' ss') : ss = ss' := by
  apply canonical (a := B.addr) (by decide) hi.tiled.coalesced hi'.tiled.coalesced
    (hi.tiled.span.trans hi'.tiled.span.symm)
  have seg_eq : ∀ {p : Nat × Seg}, p.2.free = false → (p.1, Seg.mk p.2.size false) = p := by
    intro p hf
    rw [← hf]
  have hmem : ∀ {h ss}, HeapInv B live h ss → ∀ p, p ∈ used blockHeaderSize B.addr ss ↔
      p.2.free = false ∧ ⟨p.1 + blockHeaderSize, p.2.size⟩ ∈ live := by
    intro h ss hi p
    rw [hi.mem_live]
    constructor
    · intro hp
      have hf := (mem_used.1 hp).2
      exact ⟨hf, p.1, seg_eq hf ▸ hp, rfl⟩
    · rintro ⟨hf, b, hb, he⟩
      cases Nat.add_right_cancel he
      exact seg_eq hf ▸ hb
  apply used_ext (by decide)
  intro p
  rw [hmem hi, hmem hi']

theorem HeapInv.sameHeap (hi : HeapInv B live h ss) (hi' : HeapInv B live h' ss') :
    SameHeap B h h' := by
  cases hi.unique hi'
  have hs := hi.stats.trans hi'.stats.symm
  exact ⟨hi.blockView_eq.trans hi'.blockView_eq.symm, by rw [hs], by rw [hs], by rw [hs]⟩

theorem exec_kfree (hr : HeapRun B AnyOp live h) (hnodup : ps.Nodup)
    (hps : ∀ p ∈ ps, ∃ x ∈ live, x.ptr = p) :
    ∃ h', exec (kfree B) h ps = .ok h' ∧ HeapRun B AnyOp {x ∈ live | x.ptr ∉ ps} h' := by
  induction ps generalizing live h with
  | nil =>
    refine ⟨h, rfl, ?_⟩
    have he : {x ∈ live | x.ptr ∉ []} = live := by
      ext x
      exact ⟨fun hx => hx.1, fun hx => ⟨hx, List.not_mem_nil⟩⟩
    rwa [he]
  | cons p ps ih =>
    obtain ⟨hnot, hrest⟩ := List.nodup_cons.1 hnodup
    obtain ⟨x, hx, rfl⟩ := hps p List.mem_cons_self
    obtain ⟨ss, hi⟩ := hr.inv
    obtain ⟨_, _, h₁, _, _, hk, _⟩ := hi.kfree hx
    have hr₁ := hr.kfree hx trivial hk
    obtain ⟨h', he, hr'⟩ := ih hr₁ hrest (by
      intro q hq
      obtain ⟨y, hy, rfl⟩ := hps q (List.mem_cons_of_mem _ hq)
      refine ⟨y, ⟨hy, ?_⟩, rfl⟩
      rintro rfl
      exact hnot hq)
    refine ⟨h', by rw [exec, hk, ok_bind, he], ?_⟩
    have hset : {y ∈ live \ {x} | y.ptr ∉ ps} = {y ∈ live | y.ptr ∉ x.ptr :: ps} := by
      ext y
      constructor
      · rintro ⟨⟨hy, hne⟩, hmem⟩
        refine ⟨hy, fun hcons => ?_⟩
        rcases List.mem_cons.1 hcons with he | hmem'
        · exact hne (hi.ptr_inj hy hx he)
        · exact hmem hmem'
      · rintro ⟨hy, hmem⟩
        refine ⟨⟨hy, ?_⟩, fun hmem' => hmem (List.mem_cons_of_mem _ hmem')⟩
        rintro rfl
        exact hmem List.mem_cons_self
    rwa [hset] at hr'

theorem HeapRun.sameHeap (hr : HeapRun B AnyOp live h) (hr' : HeapRun B AnyOp live h') :
    SameHeap B h h' := by
  obtain ⟨ss, hi⟩ := hr.inv
  obtain ⟨ss', hi'⟩ := hr'.inv
  exact hi.sameHeap hi'

/-- The order of the frees does not matter. -/
theorem exec_kfree_perm (hr : HeapRun B AnyOp live h) (hnodup : ps.Nodup)
    (hps : ∀ p ∈ ps, ∃ x ∈ live, x.ptr = p) (hperm : ps.Perm qs) :
    ∃ h₁ h₂, exec (kfree B) h ps = .ok h₁ ∧ exec (kfree B) h qs = .ok h₂ ∧ SameHeap B h₁ h₂ := by
  obtain ⟨h₁, he₁, hr₁⟩ := exec_kfree hr hnodup hps
  obtain ⟨h₂, he₂, hr₂⟩ := exec_kfree hr (hperm.nodup_iff.1 hnodup) fun p hp =>
    hps p (hperm.mem_iff.2 hp)
  have hset : {x ∈ live | x.ptr ∉ ps} = {x ∈ live | x.ptr ∉ qs} := by
    ext x
    exact and_congr_right fun _ => not_congr hperm.mem_iff
  rw [hset] at hr₁
  exact ⟨h₁, h₂, he₁, he₂, hr₁.sameHeap hr₂⟩

theorem HeapInv.ptr_fresh (hi : HeapInv B live h (pre ++ s :: post)) (hsf : s.free = true)
    (n : Nat) : (⟨B.addr + span blockHeaderSize pre + blockHeaderSize, n⟩ : Allocation) ∉ live := by
  intro hx
  have hd := hi.payload_disjoint hsf hx
  have hs := (hi.tiled.sizes s (List.mem_append_right _ List.mem_cons_self)).1
  have hmin : minBlockSize = 32 := rfl
  have hh : blockHeaderSize = 24 := rfl
  simp only at hd
  omega

/-- A free undoes the allocation before it, also one that failed. -/
theorem kmalloc_kfree (hi : HeapInv B live h ss) (size : Nat) :
    ∃ p h₁ h₂, kmalloc B h size = .ok (p, h₁) ∧ kfree B h₁ p = .ok h₂ ∧ SameHeap B h₂ h := by
  rcases hi.kmalloc size with
    ⟨hk, _⟩ | ⟨pre, s, post, b, n, h₁, rfl, hsf, _, rfl, hn, hk, _, hi₁, _⟩
  · exact ⟨0, h, h, hk, kfree_null h, hi.sameHeap hi⟩
  · have hmem := Set.mem_insert
      (⟨B.addr + span blockHeaderSize pre + blockHeaderSize, n⟩ : Allocation) live
    obtain ⟨_, _, h₂, _, _, hf, hi₂, _⟩ := hi₁.kfree hmem
    rw [Set.insert_sdiff_self_of_notMem (hi.ptr_fresh hsf n)] at hi₂
    exact ⟨_, h₁, h₂, hk, hf, hi₂.sameHeap hi⟩

theorem exec_kfree_all (hr : HeapRun B AnyOp live h) (hnodup : ps.Nodup)
    (hps : ∀ p, p ∈ ps ↔ ∃ x ∈ live, x.ptr = p) :
    ∃ h', exec (kfree B) h ps = .ok h' ∧ HeapRun B AnyOp ∅ h' := by
  obtain ⟨h', he, hr'⟩ := exec_kfree hr hnodup fun p hp => (hps p).1 hp
  have hset : {x ∈ live | x.ptr ∉ ps} = ∅ := by
    ext x
    constructor
    · rintro ⟨hx, hmem⟩
      exact hmem ((hps x.ptr).2 ⟨x, hx, rfl⟩)
    · intro hx
      exact hx.elim
  rw [hset] at hr'
  exact ⟨h', he, hr'⟩

/-- The heap depends on the live allocations only, not on the history: two runs with the same
live set agree, frees commute, a free undoes the allocation before it, and freeing
everything gives the initial heap back. -/
theorem heap_canonical (hr : HeapRun B AnyOp live h) :
    (∀ h', HeapRun B AnyOp live h' → SameHeap B h h') ∧
    (∀ ps qs : List Nat, ps.Nodup → (∀ p ∈ ps, ∃ x ∈ live, x.ptr = p) → ps.Perm qs →
      ∃ h₁ h₂, exec (kfree B) h ps = .ok h₁ ∧ exec (kfree B) h qs = .ok h₂ ∧ SameHeap B h₁ h₂) ∧
    (∀ size, ∃ p h₁ h₂, kmalloc B h size = .ok (p, h₁) ∧ kfree B h₁ p = .ok h₂ ∧
      SameHeap B h₂ h) ∧
    (∀ ps : List Nat, ps.Nodup → (∀ p, p ∈ ps ↔ ∃ x ∈ live, x.ptr = p) →
      ∃ h', exec (kfree B) h ps = .ok h' ∧
        blockView B h' = .ok [(B.addr, heapSize - blockHeaderSize, true)] ∧
        ∀ h₀, h₀.memoryInitialized = false → SameHeap B h' (memoryInit B h₀)) := by
  obtain ⟨ss, hi⟩ := hr.inv
  refine ⟨fun h' hr' => hr.sameHeap hr', fun ps qs => exec_kfree_perm hr, kmalloc_kfree hi, ?_⟩
  intro ps hnodup hps
  obtain ⟨h', he, hr'⟩ := exec_kfree_all hr hnodup hps
  have hinit : ∀ h₀ : Heap, h₀.memoryInitialized = false → SameHeap B h' (memoryInit B h₀) :=
    fun h₀ hh => hr'.sameHeap (.init hh)
  refine ⟨h', he, ?_, hinit⟩
  rw [(hinit zeroHeap rfl).blocks, (HeapInv.init rfl).blockView_eq]
  rfl

theorem heap_canonical_first : ∃ h h', HeapRun kernelHeapBase AnyOp {⟨0x8000b5d8, 64⟩} h ∧
    exec (kfree kernelHeapBase) h [0x8000b5d8] = .ok h' ∧
    blockView kernelHeapBase h' = .ok [(0x8000b5c0, 1048552, true)] := by
  obtain ⟨h, hr⟩ := heapRun_first
  obtain ⟨h', he, hb, _⟩ := (heap_canonical hr).2.2.2 [0x8000b5d8] (by decide) (by
    intro p
    constructor
    · intro hp
      exact ⟨_, rfl, (List.mem_singleton.1 hp).symm⟩
    · rintro ⟨x, rfl, rfl⟩
      exact List.mem_singleton.2 rfl)
  exact ⟨h, h', hr, he, hb⟩

end

end ChipOS
