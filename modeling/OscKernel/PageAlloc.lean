import OscKernel.PageRep
import OscKernel.PageSizes

/-!
# `_alloc` takes a free block

A call to `_alloc` either finds no block and changes nothing, or hands out a block of the least
order that covers the request. In terms of the pool, it takes the first block of the first
nonempty list and sheds upper halves until the order is reached.
-/

namespace OscKernel.Mm

open DyadicBlock

variable {st st' : State} {p p' : BlockPool} {B C : DyadicBlock}

structure Allocated (p p' : BlockPool) (B : DyadicBlock) : Prop where
  used : p'.used = insert B p.used
  owned : p'.owned = p.owned
  source : ∃ C ∈ p.free, B.pages ⊆ C.pages
  coalesced : p.Coalesced (maxOrder - 1) → p'.Coalesced (maxOrder - 1)

theorem Allocated.pages (h : Allocated p p' B) : B.pages ⊆ p.freePages := by
  obtain ⟨C, hC, hsub⟩ := h.source
  exact fun i hi => p.mem_freePages.2 ⟨C, hC, hsub hi⟩

theorem Allocated.not_used (h : Allocated p p' B) : B ∉ p.used := by
  intro hB
  exact Finset.disjoint_left.1 p.disjoint_freePages_usedPages (h.pages B.start_mem_pages)
    (p.mem_usedPages.2 ⟨B, hB, B.start_mem_pages⟩)

/-- One round of the split loop puts the upper half of the current block on its list. -/
theorem allocSplitStep_inserted {b i : ℕ} (hi : i < maxOrder) (hidx : (st.pageList b).idx = b) :
    Inserted st (allocSplitStep st b i) (b + 1 <<< i) i := by
  have hstep : allocSplitStep st b i = (addToFreeList
      (st.modify (b + 1 <<< i) fun e => { e with idx := b + 1 <<< i }) (b + 1 <<< i) i).modify
      (b + 1 <<< i) ((fun e => { e with entryInList := some (b + 1 <<< i) }) ∘
        fun e => { e with order := i }) := by
    unfold allocSplitStep
    rw [hidx, ← modify_modify]
    have hd := addToFreeList_sameData
      (st.modify (b + 1 <<< i) fun e => { e with idx := b + 1 <<< i }) (b + 1 <<< i) hi (b + 1 <<< i)
    simp only [modify_pageList, if_pos] at hd
    simp only [modify_pageList, hd.idx, if_pos]
  rw [hstep]
  refine inserted_of_add hi ?_ ?_ ?_
  · exact fun e => ⟨rfl, rfl⟩
  · exact fun e => ⟨rfl, rfl⟩
  · exact fun e he => ⟨he.idx, rfl, rfl, he.cacheOrder⟩

theorem bound_of_subset (hb : ∀ B ∈ p.blocks, B.order < maxOrder ∧ B.pages ⊆ Finset.range pageNum)
    (h : ∀ C ∈ p'.blocks, C ∈ p.blocks ∨ ∃ B ∈ p.blocks, C.pages ⊆ B.pages) :
    ∀ C ∈ p'.blocks, C.order < maxOrder ∧ C.pages ⊆ Finset.range pageNum := by
  intro C hC
  rcases h C hC with hC | ⟨B, hB, hsub⟩
  · exact hb C hC
  · exact ⟨(order_le_of_subset hsub).trans_lt (hb B hB).1, hsub.trans (hb B hB).2⟩

theorem RepExcept.splitStep (h : RepExcept (some B.start) st p) (hB : B ∈ p.used)
    (ho : 0 < B.order) (hidx : (st.pageList B.start).idx = B.start) :
    RepExcept (some B.start) (allocSplitStep st B.start (B.order - 1)) (p.shed B hB ho) := by
  have hBp := p.mem_blocks_of_used hB
  have hlow : B.lower.pages ⊆ B.pages := by
    rw [pages_halves ho]
    exact Finset.subset_union_left
  have hupp : B.upper.pages ⊆ B.pages := by
    rw [pages_halves ho]
    exact Finset.subset_union_right
  have hus : B.upper.start = B.start + 1 <<< (B.order - 1) := by
    rw [upper_start, Nat.one_shiftLeft]
  have hne : ∀ C ∈ p.blocks, C ≠ B → C.start ≠ B.upper.start := by
    intro C hC hCB he
    exact hCB (p.eq_of_mem hC hBp C.start_mem_pages (he ▸ hupp B.upper.start_mem_pages))
  have hins := allocSplitStep_inserted (i := B.order - 1)
    (lt_of_le_of_lt (Nat.sub_le _ _) (h.bound B hBp).1) hidx
  rw [← hus] at hins
  apply h.insert (B := B.upper) hins _ rfl _ _ (fun i hi _ => hi)
  · intro C hC
    exact hne C (p.mem_blocks_of_free hC) (fun he => p.not_free_of_used hB (he ▸ hC))
  · apply bound_of_subset h.bound
    intro C hC
    simp only [BlockPool.blocks, BlockPool.shed, Finset.mem_union, Finset.mem_insert,
      Finset.mem_erase] at hC ⊢
    rcases hC with (rfl | hC) | rfl | hC
    · exact Or.inr ⟨B, Or.inr hB, hupp⟩
    · exact Or.inl (Or.inl hC)
    · exact Or.inr ⟨B, Or.inr hB, hlow⟩
    · exact Or.inl (Or.inr hC.2)
  · intro C hC hcC
    rcases Finset.mem_insert.1 hC with rfl | hC
    · exact absurd rfl hcC
    · obtain ⟨hCB, hCu⟩ := Finset.mem_erase.1 hC
      exact ⟨hCu, hne C (p.mem_blocks_of_used hCu) hCB⟩

/-- The split loop leaves a used block of the wanted order in place of the one it started with. -/
theorem allocSplit_spec (order d : ℕ) (h : RepExcept (some B.start) st p) (hB : B ∈ p.used)
    (ho : B.order = order + d) (hidx : (st.pageList B.start).idx = B.start) :
    ∃ p' C, C.start = B.start ∧ C.order = order ∧
      RepExcept (some B.start) (allocSplit B.start order d st) p' ∧
      ((allocSplit B.start order d st).pageList B.start).idx = B.start ∧
      p'.used = insert C (p.used.erase B) ∧ p'.owned = p.owned ∧
      (p.Coalesced (maxOrder - 1) → p'.Coalesced (maxOrder - 1)) := by
  induction d generalizing st p B with
  | zero => exact ⟨p, B, rfl, ho, h, hidx, (Finset.insert_erase hB).symm, rfl, id⟩
  | succ d ih =>
      have hpos : 0 < B.order := by omega
      have hord : B.order - 1 = order + d := by omega
      have hrep := h.splitStep hB hpos hidx
      rw [hord] at hrep
      have hne : B.start ≠ B.start + 1 <<< (order + d) := by
        rw [Nat.one_shiftLeft]
        have : 0 < 2 ^ (order + d) := by positivity
        omega
      have hord' : order + d < maxOrder := by
        have := (h.bound B (p.mem_blocks_of_used hB)).1
        omega
      have hidx' := (allocSplitStep_inserted hord' hidx).elsewhere B.start hne
      obtain ⟨p', C, hCs, hCo, hr, hi, hu, hown, hco⟩ := ih (B := B.lower) hrep
        (Finset.mem_insert_self _ _) (by rw [lower_order, hord]) (hidx'.idx.trans hidx)
      refine ⟨p', C, hCs, hCo, hr, hi, ?_, ?_, fun hc => hco (hc.shed hB hpos)⟩
      · rw [hu]
        congr 1
        apply Finset.erase_insert
        intro hl
        exact p.lower_not_mem (p.mem_blocks_of_used hB) hpos
          (p.mem_blocks_of_used (Finset.mem_of_mem_erase hl))
      · rw [hown, BlockPool.owned_shed]

def firstFit (st : State) : ℕ → ℕ → Option ℕ
  | 0, _ => none
  | n + 1, i => (st.freeList i).or (firstFit st n (i + 1))

theorem allocSearch_none (h : Rep st p) (order n i : ℕ) (hn : i + n = maxOrder)
    (hff : firstFit st n i = none) :
    allocSearch st order n i = (st, 0) ∧ ∀ B ∈ p.free, B.order < i := by
  induction n generalizing i with
  | zero =>
      refine ⟨rfl, fun B hB => ?_⟩
      have := (h.bound B (p.mem_blocks_of_free hB)).1
      omega
  | succ n ih =>
      obtain ⟨hhead, hrest⟩ := Option.or_eq_none_iff.1 hff
      obtain ⟨heq, hfree⟩ := ih (i + 1) (by omega) hrest
      simp only [allocSearch, hhead]
      refine ⟨heq, fun B hB => ?_⟩
      have := hfree B hB
      have := h.no_free_of_head_none (by omega) hhead B hB
      omega

theorem allocSearch_some (h : Rep st p) (order n i : ℕ) (hoi : order ≤ i) (hn : i + n = maxOrder)
    {b : ℕ} (hff : firstFit st n i = some b) : ∃ st' p' B,
      allocSearch st order n i = (st', b * pageSize) ∧ Rep st' p' ∧ Allocated p p' B ∧
      B.start = b ∧ B.order = order := by
  induction n generalizing i with
  | zero => exact absurd hff (by simp [firstFit])
  | succ n ih =>
      have hi : i < maxOrder := by omega
      cases hhead : st.freeList i with
      | none =>
          rw [firstFit, hhead, Option.none_or] at hff
          simp only [allocSearch, hhead]
          exact ih (i + 1) (by omega) (by omega) hff
      | some b' =>
          rw [firstFit, hhead, Option.some_or, Option.some.injEq] at hff
          subst hff
          obtain ⟨B, hB, rfl, rfl⟩ := h.head_free hi hhead
          have hrm := removed_rm st (b := B.start) hi
          have hBt : B ∈ (p.take B hB).used := Finset.mem_insert_self _ _
          obtain ⟨p', C, hCs, hCo, hr, hci, hu, hown, hco⟩ :=
            allocSplit_spec order (B.order - order) (h.remove hB hrm) hBt (by omega)
              (hrm.idx.trans (h.freeEntry B hB).1)
          have hCp : C ∈ p'.used := hu ▸ Finset.mem_insert_self _ _
          rw [← hCs] at hr
          have hset := hr.settle hCp (f := (fun e : PageInfo => { e with entryInList := none }) ∘
            fun e => { e with order := order }) (fun e => ⟨rfl, rfl⟩)
            (fun e => ⟨by rw [hCo]; rfl, rfl⟩)
          refine ⟨_, p', C, ?_, hset, ?_, hCs, hCo⟩
          · rw [← modify_modify, hCs]
            simp only [allocSearch, hhead, hci, modify_pageList, if_pos, memoryStart, Nat.zero_add]
          · refine ⟨?_, ?_, ?_, fun hc => hco (hc.mono (Finset.erase_subset _ _))⟩
            · rw [hu]
              congr 1
              exact Finset.erase_insert (fun hBu => p.not_free_of_used hBu hB)
            · rw [hown, BlockPool.owned_take]
            · refine ⟨B, hB, subset_of_mem_of_order_le (by omega) C.start_mem_pages ?_⟩
              rw [hCs]
              exact B.start_mem_pages

/-- The page that `_alloc` would hand out for a request of `size` bytes. -/
def candidate (st : State) (size : ℕ) : Option ℕ :=
  if size = 0 ∨ maxAllocSize < size then none
  else firstFit st (maxOrder - reqOrder size) (reqOrder size)

theorem alloc_none (h : Rep st p) {size : ℕ} (hc : candidate st size = none) :
    alloc st size = (st, 0) := by
  unfold alloc
  unfold candidate at hc
  split_ifs at hc ⊢ with hs
  · rfl
  · have hlt := reqOrder_lt (show size ≤ maxAllocSize by omega)
    exact (allocSearch_none h _ _ _ (by omega) hc).1

theorem alloc_some (h : Rep st p) {size b : ℕ} (hc : candidate st size = some b) :
    0 < size ∧ size ≤ maxAllocSize ∧ ∃ st' p' B, alloc st size = (st', b * pageSize) ∧ Rep st' p' ∧
      Allocated p p' B ∧ B.start = b ∧ B.order = reqOrder size := by
  unfold alloc
  unfold candidate at hc
  split_ifs at hc ⊢ with hs
  have hlt : getOrder (round size) < maxOrder := reqOrder_lt (by omega)
  exact ⟨by omega, by omega, allocSearch_some h _ _ _ le_rfl (by omega) hc⟩

/-- `_alloc` finds a block whenever some free block is large enough. -/
theorem candidate_none_iff (h : Rep st p) {size : ℕ} (hs : 0 < size) (hmax : size ≤ maxAllocSize) :
    candidate st size = none ↔ ∀ B ∈ p.free, B.order < reqOrder size := by
  have hlt := reqOrder_lt hmax
  rw [candidate, if_neg (by omega)]
  constructor
  · exact fun hff => (allocSearch_none h (reqOrder size) _ _ (by omega) hff).2
  · intro hfree
    cases hff : firstFit st (maxOrder - reqOrder size) (reqOrder size) with
    | none => rfl
    | some b =>
        obtain ⟨st', p', B, -, -, hal, rfl, ho⟩ :=
          allocSearch_some h (reqOrder size) _ _ le_rfl (by omega) hff
        obtain ⟨C, hC, hsub⟩ := hal.source
        have := hfree C hC
        have := order_le_of_subset hsub
        omega

end OscKernel.Mm
