import ChipOS.Memory.HeapTheorems

namespace ChipOS
open ByteMemory Tiling Run
set_option autoImplicit true

inductive ClientOp where
  | call (op : HeapOp)
  | write (addr : Nat) (value : UInt8)
deriving DecidableEq, Repr

/-- The heaps reached from `memory_init` by clients that free any pointer they like and store into
payloads they have freed, with the live and the freed allocations. -/
inductive ClientRun (B : HeapBase) (allowed : Set Allocation → Heap → ClientOp → Prop) :
    Set Allocation → Set Allocation → Heap → Prop
  | init : h.memoryInitialized = false → ClientRun B allowed ∅ ∅ (memoryInit B h)
  | kmallocNull : ClientRun B allowed live freed h → allowed live h (.call (.kmalloc size)) →
      kmalloc B h size = .ok (0, h') → ClientRun B allowed live freed h'
  | kmalloc : ClientRun B allowed live freed h → allowed live h (.call (.kmalloc size)) →
      kmalloc B h size = .ok (p, h') → p ≠ 0 → loadSize B h'.mem (p - blockHeaderSize) = .ok n →
      ClientRun B allowed (insert ⟨p, n⟩ live) freed h'
  | kfree : ClientRun B allowed live freed h → x ∈ live → allowed live h (.call (.kfree x.ptr)) →
      kfree B h x.ptr = .ok h' → ClientRun B allowed (live \ {x}) (insert x freed) h'
  | kfreeBad : ClientRun B allowed live freed h → (∀ x ∈ live, x.ptr ≠ p) →
      allowed live h (.call (.kfree p)) → kfree B h p = .ok h' → ClientRun B allowed live freed h'
  | write : ClientRun B allowed live freed h → x ∈ live ∪ freed → x.ptr ≤ a →
      a < x.ptr + x.size → allowed live h (.write a v) →
      ClientRun B allowed live freed { h with mem := Function.update h.mem a v }

def AnyUse (_ : Set Allocation) (_ : Heap) (_ : ClientOp) : Prop := True

/-- `kfree` returns, and leaves the headers in the list and the statistics as they are. -/
def FreeIgnored (B : HeapBase) (h : Heap) (ptr : Nat) : Prop :=
  ∃ h', kfree B h ptr = .ok h' ∧ heapBlocks B h' = heapBlocks B h ∧ h'.stats = h.stats

/-- The pointer is null, or what stands before it is no header inside `heap_memory`, or the word
at the place of `is_free` is not zero. -/
def Caught (B : HeapBase) (h : Heap) (ptr : Nat) : Prop :=
  let block := u64Sub ptr blockHeaderSize
  ptr = 0 ∨ block < B.addr ∨ B.addr + heapSize ≤ block ∨
    (block + 12 ≤ B.addr + heapSize ∧ load h.mem (block + 8) 4 ≠ 0)

/-- Only bad pointers that are caught are freed, and no store hits a header of the list. -/
def KeepsHeaders (B : HeapBase) (live : Set Allocation) (h : Heap) : ClientOp → Prop
  | .call (.kmalloc _) => True
  | .call (.kfree p) => (∃ x ∈ live, x.ptr = p) ∨ Caught B h p
  | .write a _ => ∀ bs, heapBlocks B h = .ok bs → ∀ b ∈ bs, a < b.addr ∨ b.addr + blockHeaderSize ≤ a

section
variable {B : HeapBase}

theorem u64Sub_one_ne (n : Nat) : u64Sub n 1 ≠ n := by
  rw [u64Sub]
  omega

theorem kfree_caught (hh : h.memoryInitialized = true) (hc : Caught B h p) :
    kfree B h p = .ok h := by
  rw [kfree, hh]
  split
  · rfl
  next hp =>
  dsimp only
  split
  · rfl
  next hblock =>
  obtain hz | hlo | hhi | ⟨hin, hword⟩ := hc
  · exact absurd (.inl hz) hp
  · exact absurd (.inl hlo) hblock
  · exact absurd (.inr hhi) hblock
  · rw [loadIsFree, readField_eq (by omega) (by omega), ok_bind, if_pos hword]
    rfl

theorem kfree_not_caught (hh : h.memoryInitialized = true) (hc : ¬Caught B h p)
    (he : kfree B h p = .ok h') :
    h'.stats.numAllocations = u64Sub h.stats.numAllocations 1 := by
  rw [kfree, hh] at he
  split at he
  · next hp => exact absurd (.inl (hp.resolve_right Bool.false_ne_true)) hc
  dsimp only at he
  split at he
  · next hblock => exact absurd (.inr (hblock.imp id .inl)) hc
  obtain ⟨isFree, hread, he⟩ := bind_eq_ok.1 he
  rw [loadIsFree, readField] at hread
  split at hread
  · next hin =>
    cases hread
    split at he
    · next hword => exact absurd (.inr (.inr (.inr ⟨by omega, hword⟩))) hc
    · obtain ⟨m, _, he⟩ := bind_eq_ok.1 he
      obtain ⟨size, _, he⟩ := bind_eq_ok.1 he
      obtain ⟨m', _, he⟩ := bind_eq_ok.1 he
      cases he
      rfl
  · cases hread

theorem freeIgnored_iff (hh : h.memoryInitialized = true) : FreeIgnored B h p ↔ Caught B h p := by
  constructor
  · rintro ⟨h', he, _, hstats⟩
    by_contra hc
    have hn := kfree_not_caught hh hc he
    rw [hstats] at hn
    exact u64Sub_one_ne _ hn.symm
  · intro hc
    exact ⟨h, kfree_caught hh hc, rfl, rfl⟩

theorem kmalloc_initialized (he : kmalloc B h size = .ok (p, h')) :
    h'.memoryInitialized = h.memoryInitialized := by
  rw [kmalloc] at he
  split at he
  · cases he
  split at he
  · cases he
    rfl
  obtain ⟨block, _, he⟩ := bind_eq_ok.1 he
  split at he
  · cases he
    rfl
  obtain ⟨_, _, he⟩ := bind_eq_ok.1 he
  obtain ⟨m, _, he⟩ := bind_eq_ok.1 he
  obtain ⟨m', _, he⟩ := bind_eq_ok.1 he
  obtain ⟨_, _, he⟩ := bind_eq_ok.1 he
  cases he
  rfl

theorem kfree_initialized (he : kfree B h p = .ok h') :
    h'.memoryInitialized = h.memoryInitialized := by
  rw [kfree] at he
  split at he
  · cases he
    rfl
  dsimp only at he
  split at he
  · cases he
    rfl
  obtain ⟨isFree, _, he⟩ := bind_eq_ok.1 he
  split at he
  · cases he
    rfl
  obtain ⟨m, _, he⟩ := bind_eq_ok.1 he
  obtain ⟨_, _, he⟩ := bind_eq_ok.1 he
  obtain ⟨m', _, he⟩ := bind_eq_ok.1 he
  cases he
  rfl

theorem ClientRun.initialized (hr : ClientRun B allowed live freed h) :
    h.memoryInitialized = true := by
  induction hr with
  | init hh => rw [memoryInit, if_neg (by rw [hh]; decide)]
  | kmallocNull _ _ he ih => exact (kmalloc_initialized he).trans ih
  | kmalloc _ _ he _ _ ih => exact (kmalloc_initialized he).trans ih
  | kfree _ _ _ he ih => exact (kfree_initialized he).trans ih
  | kfreeBad _ _ _ he ih => exact (kfree_initialized he).trans ih
  | write _ _ _ _ _ ih => exact ih

theorem HeapInv.outsideHeaders (hi : HeapInv B live h ss)
    (ha : ∀ bs, heapBlocks B h = .ok bs → ∀ b ∈ bs, a < b.addr ∨ b.addr + blockHeaderSize ≤ a) :
    OutsideHeaders a B.addr ss := by
  obtain ⟨bs, hbs, hmap, _⟩ := hi.blocks
  intro c hc
  rw [← hmap] at hc
  obtain ⟨b, hb, rfl⟩ := List.mem_map.1 hc
  exact ha bs hbs b hb

theorem HeapInv.not_caught (hi : HeapInv B live h ss) (hx : x ∈ live) : ¬Caught B h x.ptr := by
  intro hc
  obtain ⟨_, _, h', _, _, hk, hi', _⟩ := hi.kfree hx
  cases hk.symm.trans (kfree_caught hi.tiled.initialized hc)
  -- the same list would hold the block as live and as free
  obtain ⟨bs, hbs, hmap, _⟩ := hi.blocks
  obtain ⟨bs', hbs', hmap', _⟩ := hi'.blocks
  cases hbs'.symm.trans hbs
  have hx' : x ∈ live \ {x} := (hi'.mem_blocks hmap').2 ((hi.mem_blocks hmap).1 hx)
  exact hx'.2 rfl

theorem ClientRun.inv (hr : ClientRun B (KeepsHeaders B) live freed h) :
    ∃ ss, HeapInv B live h ss := by
  induction hr with
  | init hh => exact ⟨_, .init hh⟩
  | kmallocNull _ _ he ih =>
    obtain ⟨ss, hi⟩ := ih
    cases hi.kmalloc_null he
    exact ⟨ss, hi⟩
  | kmalloc _ _ he hp hn ih =>
    obtain ⟨ss, hi⟩ := ih
    exact hi.kmalloc_some he hp hn
  | kfree _ hx _ he ih =>
    obtain ⟨ss, hi⟩ := ih
    obtain ⟨pre, post, h', _, _, hk, hi', _⟩ := hi.kfree hx
    cases hk.symm.trans he
    exact ⟨_, hi'⟩
  | kfreeBad _ hbad hc he ih =>
    obtain ⟨ss, hi⟩ := ih
    rcases hc with ⟨x, hx, hp⟩ | hc
    · exact absurd hp (hbad x hx)
    · cases (kfree_caught hi.tiled.initialized hc).symm.trans he
      exact ⟨ss, hi⟩
  | write _ _ _ _ ha ih =>
    obtain ⟨ss, hi⟩ := ih
    exact ⟨ss, hi.writeOutside (hi.outsideHeaders ha)⟩

theorem HeapInv.caught_free (hi : HeapInv B live h (pre ++ s :: post)) (hsf : s.free = true) :
    Caught B h (B.addr + span blockHeaderSize pre + blockHeaderSize) := by
  have htop := B.addr_fits
  have hsz : heapSize = 1048576 := rfl
  have hh : blockHeaderSize = 24 := rfl
  have hend := hi.tiled.end_le
  simp only [span_append, span_cons] at hend
  have hword := hi.tiled.seg.mid.2
  have hblock : u64Sub (B.addr + span blockHeaderSize pre + blockHeaderSize) blockHeaderSize =
      B.addr + span blockHeaderSize pre := by
    rw [u64Sub_eq (by omega) (by omega), Nat.add_sub_cancel]
  refine .inr (.inr (.inr ?_))
  rw [hblock, hword, hsf]
  exact ⟨by omega, by decide⟩

theorem HeapInv.freeIgnored_block (hi : HeapInv B live h ss) (hbs : heapBlocks B h = .ok bs)
    (hb : b ∈ bs) : FreeIgnored B h (b.addr + blockHeaderSize) ↔ b.isFree = true := by
  obtain ⟨bs', hbs', hmap, _⟩ := hi.blocks
  cases hbs'.symm.trans hbs
  rw [freeIgnored_iff hi.tiled.initialized]
  constructor
  · intro hc
    by_contra hfree
    have hx : Allocation.mk (b.addr + blockHeaderSize) b.size ∈ live :=
      (hi.mem_blocks hmap).2 ⟨b, hb, Bool.eq_false_of_not_eq_true hfree, rfl, rfl⟩
    exact hi.not_caught hx hc
  · intro hfree
    obtain ⟨pre, post, rfl⟩ := List.append_of_mem hb
    obtain ⟨rfl, ha⟩ := blocks_split hmap
    rw [ha]
    exact hi.caught_free hfree

/-- Clients can store any word into a payload that is or was theirs. -/
theorem ClientRun.storeWord (hr : ClientRun B AnyUse live freed h) (hx : x ∈ live ∪ freed)
    (ha : x.ptr ≤ a) (ha' : a + n ≤ x.ptr + x.size) (v : Nat) :
    ∃ h', ClientRun B AnyUse live freed h' ∧ h'.mem = store h.mem a n v := by
  induction n generalizing h a v with
  | zero => exact ⟨h, hr, rfl⟩
  | succ n ih =>
    have hr := hr.write (v := UInt8.ofNat v) hx ha (by omega) trivial
    exact ih hr (by omega) (by omega) (v / 256)

/-- Where the word before a pointer lies in a payload, its clients decide whether `kfree` ignores
the pointer. -/
theorem ClientRun.bad_free_accepted (hr : ClientRun B AnyUse live freed h)
    (hx : x ∈ live ∪ freed) (hlo : B.addr + blockHeaderSize ≤ p)
    (hhi : p < B.addr + heapSize) (hp : x.ptr + 16 ≤ p) (hp' : p ≤ x.ptr + x.size + 12) :
    ∃ h', ClientRun B AnyUse live freed h' ∧ ¬FreeIgnored B h' p := by
  have htop := B.addr_fits
  have hpos := B.addr_pos
  have hsz : heapSize = 1048576 := rfl
  have hh : blockHeaderSize = 24 := rfl
  obtain ⟨h', hr', hm⟩ := hr.storeWord hx (a := p - 16) (n := 4) (by omega) (by omega) 0
  refine ⟨h', hr', ?_⟩
  rw [freeIgnored_iff hr'.initialized, Caught, u64Sub_eq (by omega) (by omega), hm]
  have hword : load (store h.mem (p - 16) 4 0) (p - blockHeaderSize + 8) 4 = 0 := by
    have he : p - blockHeaderSize + 8 = p - 16 := by omega
    rw [he]
    exact load_store_same (by decide)
  rw [hword]
  omega

theorem HeapRun.client (hr : HeapRun B AnyOp live h) :
    ∃ freed, ClientRun B (KeepsHeaders B) live freed h := by
  induction hr with
  | init hh => exact ⟨∅, .init hh⟩
  | kmallocNull _ _ he ih =>
    obtain ⟨freed, hr⟩ := ih
    exact ⟨freed, hr.kmallocNull trivial he⟩
  | kmalloc _ _ he hp hn ih =>
    obtain ⟨freed, hr⟩ := ih
    exact ⟨freed, hr.kmalloc trivial he hp hn⟩
  | kfreeNull _ _ he ih =>
    obtain ⟨freed, hr⟩ := ih
    cases (kfree_null _).symm.trans he
    exact ⟨freed, hr⟩
  | kfree _ hx _ he ih =>
    obtain ⟨freed, hr⟩ := ih
    exact ⟨insert _ freed, hr.kfree hx (.inl ⟨_, hx, rfl⟩) he⟩
  | @write live h x a v hr' hx ha ha' ih =>
    obtain ⟨freed, hr⟩ := ih
    refine ⟨freed, hr.write (.inl hx) ha ha' fun bs hbs b hb => ?_⟩
    obtain ⟨ss, hi⟩ := hr'.inv
    obtain ⟨c, hc, hp⟩ := hi.payload hx
    obtain ⟨bs', hbs', hmap, _⟩ := hi.blocks
    cases hbs'.symm.trans hbs
    exact outsideHeaders_payload hc (by omega) (by simp only; omega) (b.addr, b.seg)
      (hmap ▸ List.mem_map_of_mem hb)

theorem ClientRun.any (hr : ClientRun B allowed live freed h) :
    ClientRun B AnyUse live freed h := by
  induction hr with
  | init hh => exact .init hh
  | kmallocNull _ _ he ih => exact ih.kmallocNull trivial he
  | kmalloc _ _ he hp hn ih => exact ih.kmalloc trivial he hp hn
  | kfree _ hx _ he ih => exact ih.kfree hx trivial he
  | kfreeBad _ hbad _ he ih => exact ih.kfreeBad hbad trivial he
  | write _ hx ha ha' _ ih => exact ih.write hx ha ha' trivial

/-- `kfree` ignores a bad pointer exactly if it is caught, whatever the clients did before. While
bad pointers are caught and stores spare the headers, the list keeps tiling the heap, its blocks
in use are the live allocations, and the pointers of its free blocks are ignored. -/
theorem bad_free_ignored (B : HeapBase) :
    (∀ live freed h ptr, ClientRun B AnyUse live freed h → (∀ x ∈ live, x.ptr ≠ ptr) →
      (FreeIgnored B h ptr ↔ Caught B h ptr)) ∧
    ∀ live freed h, ClientRun B (KeepsHeaders B) live freed h →
      ∃ bs, heapBlocks B h = .ok bs ∧ TilesHeap B bs ∧
        (∀ x, x ∈ live ↔ ∃ b ∈ bs, b.isFree = false ∧ x.ptr = b.addr + blockHeaderSize ∧
          x.size = b.size) ∧
        ∀ b ∈ bs, FreeIgnored B h (b.addr + blockHeaderSize) ↔ b.isFree = true := by
  constructor
  · intro live freed h ptr hr _
    exact freeIgnored_iff hr.initialized
  · intro live freed h hr
    obtain ⟨ss, hi⟩ := hr.inv
    obtain ⟨bs, hbs, hmap, hnext, hlast⟩ := hi.blocks
    exact ⟨bs, hbs, hi.tilesHeap hmap hnext hlast, fun x => hi.mem_blocks hmap,
      fun b hb => hi.freeIgnored_block hbs hb⟩

/-- The only allocation freed, and freed once more. -/
theorem bad_free_ignored_twice : ∃ freed h,
    ClientRun kernelHeapBase (KeepsHeaders kernelHeapBase) ∅ freed h ∧
    FreeIgnored kernelHeapBase h 0x8000b5d8 ∧ Caught kernelHeapBase h 0x8000b5d8 := by
  obtain ⟨h₀, hr⟩ := heapRun_first
  obtain ⟨freed, hr⟩ := hr.client
  obtain ⟨x, hx⟩ : ∃ x : Allocation, x = ⟨0x8000b5d8, 64⟩ := ⟨_, rfl⟩
  have hlive : x ∈ ({⟨0x8000b5d8, 64⟩} : Set Allocation) := hx
  obtain ⟨ss, hi⟩ := hr.inv
  obtain ⟨_, _, h, _, _, he, _⟩ := hi.kfree hlive
  have hfreed := hr.kfree hlive (.inl ⟨x, hlive, rfl⟩) he
  have hnone : ({⟨0x8000b5d8, 64⟩} : Set Allocation) \ {x} = ∅ := by
    rw [hx, Set.sdiff_self]
  rw [hnone] at hfreed
  obtain ⟨hiff, hruns⟩ := bad_free_ignored kernelHeapBase
  obtain ⟨bs, hbs, ht, hmem, hfree⟩ := hruns _ _ h hfreed
  obtain ⟨b, hhead, haddr⟩ := Option.map_eq_some_iff.1 ht.first
  have hb := List.mem_of_mem_head? hhead
  have hignored : FreeIgnored kernelHeapBase h (b.addr + blockHeaderSize) := by
    rw [hfree b hb]
    by_contra hused
    have hmissing : Allocation.mk (b.addr + blockHeaderSize) b.size ∈ (∅ : Set Allocation) :=
      (hmem _).2 ⟨b, hb, Bool.eq_false_of_not_eq_true hused, rfl, rfl⟩
    exact hmissing
  rw [haddr] at hignored
  exact ⟨_, h, hfreed, hignored, (hiff _ _ h _ hfreed.any fun x hx => hx.elim).1 hignored⟩

/-- A pointer into the only live payload that `kfree` takes for a block in use. -/
theorem bad_free_not_ignored : ∃ freed h,
    ClientRun kernelHeapBase AnyUse {⟨0x8000b5d8, 64⟩} freed h ∧
    (∀ x ∈ ({⟨0x8000b5d8, 64⟩} : Set Allocation), x.ptr ≠ 0x8000b5f0) ∧
    ¬FreeIgnored kernelHeapBase h 0x8000b5f0 := by
  obtain ⟨h, hr⟩ := heapRun_first
  obtain ⟨freed, hr⟩ := hr.client
  obtain ⟨h', hr', hbad⟩ := hr.any.bad_free_accepted (x := ⟨0x8000b5d8, 64⟩) (p := 0x8000b5f0)
    (.inl rfl) (by decide) (by decide) (by decide) (by decide)
  refine ⟨freed, h', hr', ?_, hbad⟩
  rintro x rfl
  decide

end

end ChipOS
