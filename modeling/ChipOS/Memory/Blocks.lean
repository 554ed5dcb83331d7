import ChipOS.Memory.Heap
import ChipOS.Lib.Tiling

namespace ChipOS
open ByteMemory Tiling Run
set_option autoImplicit true

/-- The memory holds the headers of a run of adjacent blocks: the pointer `p` leads to the
first header, at `a`, and the last `next` is `q`. -/
def BlockSeg (m : Mem) : Nat → Nat → List Seg → Nat → Prop
  | p, _, [], q => p = q
  | p, a, s :: ss, q => p = a ∧ load m a 8 = s.size ∧ load m (a + 8) 4 = s.free.toNat ∧
      BlockSeg m (load m (a + 16) 8) (a + blockHeaderSize + s.size) ss q

/-- An address that lies in no header of the run. -/
def OutsideHeaders (x a : Nat) (ss : List Seg) : Prop :=
  ∀ b ∈ place blockHeaderSize a ss, x < b.1 ∨ b.1 + blockHeaderSize ≤ x

theorem u64_eq (h : x < 2 ^ 64) : u64 x = x := Nat.mod_eq_of_lt h

theorem u64Sub_eq (h : y ≤ x) (hx : x < 2 ^ 64) : u64Sub x y = x - y := by
  rw [u64Sub, Nat.mod_eq_of_lt (Nat.lt_of_le_of_lt h hx)]
  omega

theorem readField_eq {B : HeapBase} (hlo : B.addr ≤ a) (hhi : a + n ≤ B.addr + heapSize) :
    readField B m a n = .ok (load m a n) := if_pos ⟨hlo, hhi⟩

theorem writeField_eq {B : HeapBase} (hlo : B.addr ≤ a) (hhi : a + n ≤ B.addr + heapSize) :
    writeField B m a n v = .ok (store m a n v) := if_pos ⟨hlo, hhi⟩

theorem BlockSeg.frame (hs : BlockSeg m p a ss q)
    (hm : ∀ x, a ≤ x → x < a + span blockHeaderSize ss →
      ¬OutsideHeaders x a ss → m' x = m x) : BlockSeg m' p a ss q := by
  induction ss generalizing p a with
  | nil => exact hs
  | cons s ss ih =>
    obtain ⟨hp, hsize, hfree, hs⟩ := hs
    have hhead : ∀ x, a ≤ x → x < a + blockHeaderSize → m' x = m x := by
      intro x hx hx'
      apply hm x hx
      · simp only [span_cons]
        omega
      · intro ho
        have := ho _ List.mem_cons_self
        simp only at this
        omega
    simp only [blockHeaderSize] at hhead
    have hload : ∀ k n, k + n ≤ 24 → load m' (a + k) n = load m (a + k) n := by
      intro k n hk
      apply load_congr
      intro x hx hx'
      exact hhead x (by omega) (by omega)
    refine ⟨hp, (hload 0 8 (by omega)).trans hsize, (hload 8 4 (by omega)).trans hfree, ?_⟩
    rw [hload 16 8 (by omega)]
    apply ih hs
    intro x hx hx' ho
    apply hm x (by omega)
    · simp only [span_cons]
      omega
    · intro ho'
      exact ho fun b hb => ho' b (List.mem_cons_of_mem _ hb)

theorem blockSeg_append :
    BlockSeg m p a (xs ++ ys) q ↔
      ∃ r, BlockSeg m p a xs r ∧ BlockSeg m r (a + span blockHeaderSize xs) ys q := by
  induction xs generalizing p a with
  | nil =>
    constructor
    · intro h
      exact ⟨p, rfl, h⟩
    · rintro ⟨r, he, h⟩
      cases he
      exact h
  | cons x xs ih =>
    have he : a + blockHeaderSize + x.size + span blockHeaderSize xs =
        a + span blockHeaderSize (x :: xs) := by
      simp only [span_cons]
      omega
    constructor
    · intro h
      obtain ⟨hp, hsize, hfree, h⟩ := h
      obtain ⟨r, hx, hy⟩ := ih.1 h
      exact ⟨r, ⟨hp, hsize, hfree, hx⟩, he ▸ hy⟩
    · rintro ⟨r, ⟨hp, hsize, hfree, hx⟩, hy⟩
      exact ⟨hp, hsize, hfree, ih.2 ⟨r, hx, he ▸ hy⟩⟩

theorem OutsideHeaders.tail (h : OutsideHeaders x a (s :: ss)) :
    OutsideHeaders x (a + blockHeaderSize + s.size) ss :=
  fun b hb => h b (List.mem_cons_of_mem _ hb)

theorem outsideHeaders_append :
    OutsideHeaders x a (xs ++ ys) ↔
      OutsideHeaders x a xs ∧ OutsideHeaders x (a + span blockHeaderSize xs) ys := by
  simp only [OutsideHeaders, place_append, List.mem_append, or_imp, forall_and]

theorem outsideHeaders_of_outside (hx : x < a ∨ a + span blockHeaderSize ss ≤ x) :
    OutsideHeaders x a ss := by
  intro b hb
  have := place_bounds hb
  omega

theorem outsideHeaders_payload (hb : b ∈ place blockHeaderSize a ss)
    (hlo : b.1 + blockHeaderSize ≤ x) (hhi : x < b.1 + blockHeaderSize + b.2.size) :
    OutsideHeaders x a ss := by
  intro c hc
  by_cases he : b.1 = c.1
  · exact .inr (he ▸ hlo)
  · rcases place_disjoint hb hc he with hd | hd <;> omega

section
variable {B : HeapBase}

/-- What a loop of the allocator reads at the block at `p`, and where the rest of the run lies. -/
structure Visits (B : HeapBase) (m : Mem) (p : Nat) (s : Seg) (ss : List Seg) : Prop where
  ne_null : p ≠ 0
  size : loadSize B m p = .ok s.size
  isFree : loadIsFree B m p = .ok s.free.toNat
  next : loadNext B m p = .ok (load m (p + 16) 8)
  rest : BlockSeg m (load m (p + 16) 8) (p + blockHeaderSize + s.size) ss 0
  lo : B.addr ≤ p + blockHeaderSize + s.size
  hi : p + blockHeaderSize + s.size + span blockHeaderSize ss ≤ B.addr + heapSize

theorem BlockSeg.visits (hs : BlockSeg m p p (s :: ss) 0) (hlo : B.addr ≤ p)
    (hhi : p + span blockHeaderSize (s :: ss) ≤ B.addr + heapSize) : Visits B m p s ss := by
  obtain ⟨_, hsize, hfree, hs⟩ := hs
  have hpos := B.addr_pos
  have hh : blockHeaderSize = 24 := rfl
  simp only [span_cons] at hhi
  refine ⟨by omega, ?_, ?_, readField_eq (by omega) (by omega), hs, by omega, by omega⟩
  · rw [loadSize, readField_eq (by omega) (by omega), hsize]
  · rw [loadIsFree, readField_eq (by omega) (by omega), hfree]

theorem findFreeBlock_spec (size : Nat) (hs : BlockSeg m p a ss 0) (hlo : B.addr ≤ a)
    (hhi : a + span blockHeaderSize ss ≤ B.addr + heapSize) (hfuel : ss.length < fuel) :
    (findFreeBlock B m size fuel p = .ok 0 ∧ ∀ s ∈ ss, s.free = true → s.size < size) ∨
    ∃ pre s post, ss = pre ++ s :: post ∧ s.free = true ∧ size ≤ s.size ∧
      (∀ t ∈ pre, t.free = true → t.size < size) ∧
      findFreeBlock B m size fuel p = .ok (a + span blockHeaderSize pre) := by
  induction fuel generalizing p a ss with
  | zero => exact absurd hfuel (Nat.not_lt_zero _)
  | succ fuel ih =>
    cases ss with
    | nil =>
      cases hs
      exact .inl ⟨rfl, fun s hs => absurd hs List.not_mem_nil⟩
    | cons s ss =>
      obtain rfl := hs.1
      have hv := hs.visits hlo hhi
      have hfit : findFreeBlock B m size (fuel + 1) p =
          if s.free = true ∧ size ≤ s.size then .ok p
          else findFreeBlock B m size fuel (load m (p + 16) 8) := by
        rw [findFreeBlock, if_neg hv.ne_null, hv.isFree, hv.size, hv.next]
        cases hsf : s.free with
        | false => simp only [ok_bind, Bool.toNat_false, ne_eq, not_true_eq_false,
            ↓reduceIte, Bool.false_eq_true, false_and]
        | true => simp only [ok_bind, Bool.toNat_true, ne_eq, Nat.one_ne_zero,
            not_false_eq_true, ↓reduceIte, Except.map, decide_eq_true_eq, true_and, pure_eq_ok]
      rw [hfit]
      by_cases hc : s.free = true ∧ size ≤ s.size
      · refine .inr ⟨[], s, ss, rfl, hc.1, hc.2, fun t ht => absurd ht List.not_mem_nil, ?_⟩
        rw [if_pos hc, span_nil, Nat.add_zero]
      · rw [if_neg hc]
        have hhead : s.free = true → s.size < size := by
          intro hsf
          exact Nat.lt_of_not_le fun hle => hc ⟨hsf, hle⟩
        rcases ih hv.rest hv.lo hv.hi (Nat.lt_of_succ_lt_succ hfuel) with
          ⟨he, hall⟩ | ⟨pre, t, post, rfl, htf, hts, hpre, he⟩
        · exact .inl ⟨he, List.forall_mem_cons.2 ⟨hhead, hall⟩⟩
        · refine .inr ⟨s :: pre, t, post, rfl, htf, hts,
            List.forall_mem_cons.2 ⟨hhead, hpre⟩, ?_⟩
          rw [he]
          simp only [span_cons, Nat.add_assoc]

theorem blockList_spec (hs : BlockSeg m p a ss 0) (hlo : B.addr ≤ a)
    (hhi : a + span blockHeaderSize ss ≤ B.addr + heapSize) (hfuel : ss.length < fuel) :
    ∃ bs, blockList B m fuel p = .ok bs ∧
      bs.map (fun b => (b.addr, Seg.mk b.size b.isFree)) = place blockHeaderSize a ss ∧
      bs.IsChain (fun b c => b.next = c.addr) ∧ ∀ b ∈ bs.getLast?, b.next = 0 := by
  induction fuel generalizing p a ss with
  | zero => exact absurd hfuel (Nat.not_lt_zero _)
  | succ fuel ih =>
    cases ss with
    | nil =>
      cases hs
      exact ⟨[], rfl, rfl, .nil, fun b hb => nomatch hb⟩
    | cons s ss =>
      obtain rfl := hs.1
      have hv := hs.visits hlo hhi
      have hs := hv.rest
      obtain ⟨bs, hbs, hmap, hchain, hlast⟩ :=
        ih hv.rest hv.lo hv.hi (Nat.lt_of_succ_lt_succ hfuel)
      refine ⟨⟨p, s.size, s.free, load m (p + 16) 8⟩ :: bs, ?_, ?_, ?_, ?_⟩
      · rw [blockList, if_neg hv.ne_null, hv.size, hv.isFree, hv.next]
        simp only [ok_bind, hbs, pure_eq_ok]
        cases s.free <;> rfl
      · rw [List.map_cons, hmap, place_cons]
      · refine List.isChain_cons.2 ⟨fun c hc => ?_, hchain⟩
        cases ss with
        | nil => 
          cases bs with
          | nil => cases hc
          | cons b bs => cases hmap
        | cons t ss =>
          cases bs with
          | nil => cases hc
          | cons b bs =>
            cases hc
            simp only [List.map_cons, place_cons, List.cons.injEq, Prod.mk.injEq] at hmap
            exact hs.1.trans hmap.1.1.symm
      · cases bs with
        | nil =>
          intro b hb
          cases hb
          cases ss with
          | nil => exact hs
          | cons t ss => cases hmap
        | cons b bs => 
          intro c hc
          exact hlast c hc

theorem countFreeBlocks_spec (hs : BlockSeg m p a ss 0) (hlo : B.addr ≤ a)
    (hhi : a + span blockHeaderSize ss ≤ B.addr + heapSize) (hfuel : ss.length < fuel) :
    countFreeBlocks B m fuel p = .ok (ss.countP Seg.free) := by
  induction fuel generalizing p a ss with
  | zero => exact absurd hfuel (Nat.not_lt_zero _)
  | succ fuel ih =>
    cases ss with
    | nil =>
      cases hs
      rfl
    | cons s ss =>
      obtain rfl := hs.1
      have hv := hs.visits hlo hhi
      have hrest := ih hv.rest hv.lo hv.hi (Nat.lt_of_succ_lt_succ hfuel)
      rw [countFreeBlocks, if_neg hv.ne_null, hv.isFree, hv.next]
      simp only [ok_bind, hrest, pure_eq_ok, List.countP_cons]
      cases s.free <;> rfl

/-- The memory after the merge of the block at `p` with its successor at `b`. -/
def joinedMem (m : Mem) (p b size : Nat) : Mem :=
  let m := store m p 8 size
  store m (p + 16) 8 (load m (b + 16) 8)

theorem joinedMem_outside (hx : x < p ∨ p + 24 ≤ x) : joinedMem m p b n x = m x := by
  rw [joinedMem, store_outside (by omega), store_outside (by omega)]

theorem mergeFreeBlocks_cons_cons (hs : BlockSeg m p p (s :: t :: ss) 0) (hlo : B.addr ≤ p)
    (hhi : p + span blockHeaderSize (s :: t :: ss) ≤ B.addr + heapSize) :
    mergeFreeBlocks B (fuel + 1) m p =
      if (s.free && t.free) = true then
        mergeFreeBlocks B fuel
          (joinedMem m p (p + 24 + s.size) (s.size + (24 + t.size))) p
      else mergeFreeBlocks B fuel m (p + 24 + s.size) := by
  have hpos := B.addr_pos
  have htop := B.addr_fits
  have hsz : heapSize = 1048576 := rfl
  have hv := hs.visits hlo hhi
  obtain ⟨_, _, _, hnext, htsize, htfree, _⟩ := hs
  simp only [span_cons, blockHeaderSize] at hhi hnext htsize htfree
  rw [mergeFreeBlocks, if_neg hv.ne_null, hv.next, hnext]
  simp only [ok_bind]
  rw [if_neg (by omega), hv.isFree]
  cases hsf : s.free with
  | false => simp only [Bool.toNat_false, ok_bind, ne_eq, not_true_eq_false, ↓reduceIte,
      Bool.false_and, Bool.false_eq_true]
  | true =>
    simp only [Bool.toNat_true, ok_bind, ne_eq, Nat.one_ne_zero, not_false_eq_true,
      ↓reduceIte, Bool.true_and]
    rw [loadIsFree, readField_eq (by omega) (by omega), htfree]
    cases htf : t.free with
    | false => simp only [Bool.toNat_false, ok_bind, ↓reduceIte, Bool.false_eq_true]
    | true =>
      simp only [Bool.toNat_true, ok_bind, Nat.one_ne_zero, ↓reduceIte]
      rw [hv.size]
      simp only [ok_bind]
      have hend : u64 (p + blockHeaderSize + s.size) = p + 24 + s.size :=
        u64_eq (by simp only [blockHeaderSize]; omega)
      rw [if_pos hend, loadSize,
        readField_eq (by omega) (by omega), htsize]
      simp only [ok_bind]
      rw [u64_eq (by simp only [blockHeaderSize]; omega), storeSize,
        writeField_eq (by omega) (by omega)]
      simp only [ok_bind]
      rw [loadNext, readField_eq (by omega) (by omega)]
      simp only [ok_bind]
      rw [storeNext, writeField_eq (by omega) (by omega)]
      rfl

theorem BlockSeg.join (hs : BlockSeg m p p (s :: t :: ss) 0) (hf : (s.free && t.free) = true)
    (hfit : s.size + (24 + t.size) < 2 ^ 64) :
    BlockSeg (joinedMem m p (p + 24 + s.size) (s.size + (24 + t.size))) p p
      (⟨s.size + (24 + t.size), true⟩ :: ss) 0 := by
  obtain ⟨_, hsize, hfree, hnext, htsize, htfree, hs⟩ := hs
  simp only [blockHeaderSize] at hnext htsize htfree hs
  have hnn : load (joinedMem m p (p + 24 + s.size) (s.size + (24 + t.size))) (p + 16) 8 =
      load m (p + 24 + s.size + 16) 8 := by
    rw [joinedMem, load_store_same load_lt, load_store_disjoint (by omega)]
  refine ⟨rfl, ?_, ?_, ?_⟩
  · rw [joinedMem, load_store_disjoint (by omega)]
    exact load_store_same hfit
  · rw [joinedMem, load_store_disjoint (by omega), load_store_disjoint (by omega), hfree,
      (Bool.and_eq_true_iff.1 hf).1]
  · rw [hnn]
    simp only [blockHeaderSize]
    have hend : p + 24 + (s.size + (24 + t.size)) = p + 24 + s.size + 24 + t.size := by omega
    rw [hend]
    exact hs.frame fun x hx _ _ => joinedMem_outside (by omega)

theorem BlockSeg.cons_of_tail (hs : BlockSeg m p p (s :: ss) 0)
    (hm : ∀ x, p ≤ x → x < p + 24 → m' x = m x)
    (ht : BlockSeg m' (load m (p + 16) 8) (p + blockHeaderSize + s.size) ts 0) :
    BlockSeg m' p p (s :: ts) 0 := by
  obtain ⟨_, hsize, hfree, _⟩ := hs
  refine ⟨rfl, ?_, ?_, ?_⟩
  · rw [← hsize]
    exact load_congr fun x hx hx' => hm x (by omega) (by omega)
  · rw [← hfree]
    exact load_congr fun x hx hx' => hm x (by omega) (by omega)
  · rw [load_congr fun x hx hx' => hm x (by omega) (by omega)]
    exact ht

/-- One pass of the merge loop turns the list into its coalesced form and writes only
inside headers. -/
theorem mergeFreeBlocks_spec (hs : BlockSeg m p a ss 0) (hlo : B.addr ≤ a)
    (hhi : a + span blockHeaderSize ss ≤ B.addr + heapSize) (hfuel : ss.length < fuel) :
    ∃ m', mergeFreeBlocks B fuel m p = .ok m' ∧
      BlockSeg m' p a (coalesce blockHeaderSize ss) 0 ∧
      ∀ x, OutsideHeaders x a ss → m' x = m x := by
  induction fuel generalizing m p a ss with
  | zero => exact absurd hfuel (Nat.not_lt_zero _)
  | succ fuel ih =>
    have hpos := B.addr_pos
    have hsz : heapSize = 1048576 := rfl
    have hh : blockHeaderSize = 24 := rfl
    cases ss with
    | nil =>
      cases hs
      refine ⟨m, rfl, ?_, fun x _ => rfl⟩
      rw [coalesce_nil]
      rfl
    | cons s ss =>
      obtain rfl := hs.1
      simp only [List.length_cons] at hfuel
      cases ss with
      | nil =>
        refine ⟨m, ?_, ?_, fun x _ => rfl⟩
        · have hnext : load m (p + 16) 8 = 0 := hs.2.2.2
          have hv := hs.visits hlo hhi
          rw [mergeFreeBlocks, if_neg hv.ne_null, hv.next, hnext]
          simp only [ok_bind, ↓reduceIte, pure_eq_ok]
        · rw [coalesce_singleton]
          exact hs
      | cons t ss =>
        rw [mergeFreeBlocks_cons_cons hs hlo hhi]
        simp only [List.length_cons] at hfuel
        by_cases hf : (s.free && t.free) = true
        · have hspan : p + span blockHeaderSize (⟨s.size + (24 + t.size), true⟩ :: ss) =
              p + span blockHeaderSize (s :: t :: ss) := by
            simp only [span_cons]
            omega
          have htop := B.addr_fits
          rw [if_pos hf]
          simp only [span_cons] at hhi
          obtain ⟨m', he, hseg, hout⟩ := ih (hs.join hf (by omega)) hlo
            (by rw [hspan]; simp only [span_cons]; omega)
            (by simp only [List.length_cons]; omega)
          refine ⟨m', he, ?_, ?_⟩
          · rw [coalesce, if_pos hf]
            exact hseg
          · intro x hx
            have hp := hx _ List.mem_cons_self
            simp only [hh] at hp
            rw [hout x, joinedMem_outside hp]
            refine List.forall_mem_cons.2 ⟨by simp only [hh]; exact hp, ?_⟩
            have htail := hx.tail.tail
            simp only [hh] at htail ⊢
            have hend : p + 24 + (s.size + (24 + t.size)) = p + 24 + s.size + 24 + t.size := by
              omega
            rw [hend]
            exact htail
        · rw [if_neg hf]
          have hnext : load m (p + 16) 8 = p + blockHeaderSize + s.size := hs.2.2.2.1
          obtain ⟨m', he, hseg, hout⟩ := ih (hnext ▸ hs.2.2.2) (by omega)
            (by simp only [span_cons] at hhi ⊢; omega)
            (by simp only [List.length_cons]; omega)
          refine ⟨m', he, ?_, fun x hx => hout x hx.tail⟩
          rw [coalesce, if_neg hf]
          apply hs.cons_of_tail
          · intro x hx hx'
            exact hout x (outsideHeaders_of_outside (.inl (by omega)))
          · rw [hnext]
            exact hseg

end

end ChipOS
