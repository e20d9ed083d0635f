import OscKernel.PageSafety

/-!
# When the page allocator conserves pages

Right after `mm_init` every page belongs to a free block. Two things lose pages for good. `_alloc`
may hand out the block at page 0, whose address is the null pointer. And `_free` drops a block that
starts at the maximum order or merges up to it, which happens when nothing else is held in the
largest block around it. In every other step all pages stay accounted for.
-/

namespace OscKernel.Mm

open DyadicBlock Linked Relation

variable {p p' : BlockPool} {B C : DyadicBlock} {s : Sys}

def Owner (s : Sys) (B : DyadicBlock) : Prop :=
  (B.order < maxOrder ∧ OnList s.mm B.order B.start) ∨ ∃ a ∈ s.live, liveBlock a = B

structure Conserved (s : Sys) : Prop where
  owner : ∀ i < pageNum, ∃! B, i ∈ pages B ∧ Owner s B
  restored : s.live = [] → ∀ k < maxOrder, ∀ i, OnList s.mm k i ↔
    k = maxOrder - 1 ∧ ∃ j < pageNum / maxBlockSize, i = j * maxBlockSize

def PageZeroNext (st : State) (size : ℕ) : Prop :=
  0 < size ∧ size ≤ maxAllocSize ∧ ∃ k < maxOrder, reqOrder size ≤ k ∧
    (∀ j, reqOrder size ≤ j → j < k → st.freeList j = none) ∧ st.freeList k = some 0

/-- `_alloc` is not about to use the block at page 0, and `_free` gets a block whose region holds a
page of another held block. -/
def Keeps (s : Sys) : Op → Prop
  | .alloc size => ¬ PageZeroNext s.mm size
  | .free ptr size => ∃ b ∈ s.live, b ≠ (ptr, size) ∧
      ¬ Disjoint (liveSpan b) (region (ptr / pageSize)).pages

theorem firstFit_eq_some (st : State) (n i b : ℕ) : firstFit st n i = some b ↔
    ∃ k < i + n, i ≤ k ∧ (∀ j, i ≤ j → j < k → st.freeList j = none) ∧ st.freeList k = some b := by
  induction n generalizing i with
  | zero =>
      refine ⟨fun h => absurd h (by simp [firstFit]), ?_⟩
      rintro ⟨k, hk, hik, -⟩
      omega
  | succ n ih =>
      rw [firstFit]
      cases hhead : st.freeList i with
      | some b' =>
          rw [Option.some_or]
          constructor
          · exact fun h => ⟨i, by omega, le_rfl, fun j hj hlt => by omega, hhead.trans h⟩
          · rintro ⟨k, -, hik, hbelow, hk⟩
            rcases Nat.eq_or_lt_of_le hik with rfl | hlt
            · exact hhead.symm.trans hk
            · exact absurd (hhead.symm.trans (hbelow i le_rfl hlt)) (by simp)
      | none =>
          rw [Option.none_or, ih]
          constructor
          · rintro ⟨k, hk, hik, hbelow, hb⟩
            refine ⟨k, by omega, by omega, fun j hj hlt => ?_, hb⟩
            rcases Nat.eq_or_lt_of_le hj with rfl | hj'
            · exact hhead
            · exact hbelow j hj' hlt
          · rintro ⟨k, hk, hik, hbelow, hb⟩
            have hne : i ≠ k := by
              rintro rfl
              exact absurd (hhead.symm.trans hb) (by simp)
            exact ⟨k, by omega, by omega, fun j hj hlt => hbelow j (by omega) hlt, hb⟩

theorem pageZeroNext_iff (st : State) (size : ℕ) : PageZeroNext st size ↔ candidate st size = some 0 := by
  unfold PageZeroNext candidate
  by_cases hs : size = 0 ∨ maxAllocSize < size
  · rw [if_pos hs]
    refine ⟨fun h => ?_, fun h => absurd h (by simp)⟩
    rcases hs with hs | hs
    · exact absurd h.1 (by omega)
    · exact absurd h.2.1 (by omega)
  · have hlt := reqOrder_lt (show size ≤ maxAllocSize by omega)
    rw [if_neg hs, firstFit_eq_some, Nat.add_sub_cancel' hlt.le]
    exact ⟨fun h => h.2.2, fun h => ⟨by omega, by omega, h⟩⟩

structure Whole (s : Sys) (p : BlockPool) : Prop where
  tracks : Tracks ∅ s p
  owned : p.owned = Finset.range pageNum
  coalesced : p.Coalesced (maxOrder - 1)

theorem Tracks.used_iff (h : Tracks ∅ s p) : B ∈ p.used ↔ ∃ a ∈ s.live, liveBlock a = B := by
  rw [h.used, Finset.empty_union, List.mem_toFinset, List.mem_map]

theorem Tracks.owner_iff (h : Tracks ∅ s p) : Owner s B ↔ B ∈ p.blocks := by
  rw [BlockPool.blocks, Finset.mem_union, h.used_iff, Owner]
  refine or_congr ⟨?_, fun hB => ?_⟩ Iff.rfl
  · rintro ⟨hk, hl⟩
    obtain ⟨C, hC, ho, hs⟩ := (onList_iff h.rep hk B.start).1 hl
    exact DyadicBlock.ext hs ho ▸ hC
  · have hk := (h.rep.bound B (p.mem_blocks_of_free hB)).1
    exact ⟨hk, (onList_iff h.rep hk _).2 ⟨B, hB, rfl, rfl⟩⟩

theorem region_eq_topBlock (i : ℕ) : region i = topBlock (i / maxBlockSize) := by
  refine DyadicBlock.ext ?_ rfl
  rw [topBlock_start, maxBlockSize_eq]
  rfl

theorem region_subset {i : ℕ} (hi : i < pageNum) : (region i).pages ⊆ Finset.range pageNum := by
  have hlast : (pageNum / maxBlockSize) * maxBlockSize = pageNum := by decide
  rw [region_eq_topBlock]
  refine (topBlock_bound ?_).2
  apply Nat.div_lt_of_lt_mul
  rw [Nat.mul_comm, hlast]
  exact hi

theorem Whole.conserved (h : Whole s p) : Conserved s := by
  constructor
  · intro i hi
    rw [← Finset.mem_range, ← h.owned, p.mem_owned] at hi
    obtain ⟨B, hB, hiB⟩ := hi
    refine ⟨B, ⟨hiB, h.tracks.owner_iff.2 hB⟩, ?_⟩
    rintro C ⟨hiC, hC⟩
    exact p.eq_of_mem (h.tracks.owner_iff.1 hC) hB hiC hiB
  · intro hlive k hk i
    have hused : p.used = ∅ := by
      rw [h.tracks.used, hlive]
      rfl
    have hfree : p.freePages = Finset.range pageNum := by
      rw [← h.owned, BlockPool.owned, BlockPool.usedPages, hused, Finset.biUnion_empty,
        Finset.union_empty]
    -- with everything free, every region is one free block
    have htop : ∀ i < pageNum, region i ∈ p.free := by
      intro i hi
      obtain ⟨C, hC, hsub⟩ := h.coalesced.mem_free_of_subset (B := region i)
        (hfree ▸ region_subset hi) le_rfl
      have hCo : (region i).order = C.order := by
        have hle := order_le_of_subset hsub
        have hlt := (h.tracks.rep.bound C (p.mem_blocks_of_free hC)).1
        rw [containing_order] at hle ⊢
        omega
      exact eq_of_mem_of_order_eq hCo (mem_containing _ _) (hsub (mem_containing _ _)) ▸ hC
    rw [onList_iff h.tracks.rep hk]
    constructor
    · rintro ⟨B, hB, rfl, rfl⟩
      have hs : B.start < pageNum :=
        Finset.mem_range.1 (hfree ▸ p.mem_freePages.2 ⟨B, hB, B.start_mem_pages⟩)
      have hBr : B = region B.start := p.eq_of_mem (p.mem_blocks_of_free hB)
        (p.mem_blocks_of_free (htop _ hs)) B.start_mem_pages (mem_containing _ _)
      refine ⟨by rw [hBr, containing_order], B.start / maxBlockSize, ?_, ?_⟩
      · apply Nat.div_lt_of_lt_mul
        rw [Nat.mul_comm, show (pageNum / maxBlockSize) * maxBlockSize = pageNum by decide]
        exact hs
      · conv_lhs => rw [hBr, region_eq_topBlock, topBlock_start]
    · rintro ⟨rfl, j, hj, rfl⟩
      have hjs := Finset.mem_range.1 ((topBlock_bound hj).2 (topBlock j).start_mem_pages)
      rw [topBlock_start] at hjs
      refine ⟨_, htop _ hjs, rfl, ?_⟩
      rw [region_eq_topBlock, topBlock_start, Nat.mul_div_cancel _ (by decide)]

/-- A client that frees the only held block of a region has the whole region free afterwards. -/
theorem Whole.region_covered (h : Whole s p) {ptr size : ℕ} (ha : (ptr, size) ∈ s.live)
    (hk : ¬ Keeps s (.free ptr size)) :
    (region (liveBlock (ptr, size)).start).pages ⊆ p.freePages ∪ (liveBlock (ptr, size)).pages := by
  intro i hi
  have hstart : (liveBlock (ptr, size)).start < pageNum := by
    have hb := (h.tracks.rep.bound _ (p.mem_blocks_of_used (h.tracks.mem_used ha))).2
    exact Finset.mem_range.1 (hb (liveBlock (ptr, size)).start_mem_pages)
  have hown : i ∈ p.owned := h.owned ▸ region_subset hstart hi
  rw [Finset.mem_union]
  rcases Finset.mem_union.1 hown with hf | hu
  · exact Or.inl hf
  · obtain ⟨C, hC, hiC⟩ := p.mem_usedPages.1 hu
    obtain ⟨b, hb, rfl⟩ := h.tracks.used_iff.1 hC
    by_cases hne : b = (ptr, size)
    · exact Or.inr (hne ▸ hiC)
    · refine absurd ⟨b, hb, hne, ?_⟩ hk
      rw [h.tracks.liveSpan_eq hb, show ptr / pageSize = (liveBlock (ptr, size)).start from
        h.tracks.start_eq ha]
      exact Finset.not_disjoint_iff.2 ⟨i, hiC, hi⟩

theorem Whole.region_not_covered (h : Whole s p) {ptr size : ℕ} (ha : (ptr, size) ∈ s.live)
    (hk : Keeps s (.free ptr size)) :
    ¬ (region (liveBlock (ptr, size)).start).pages ⊆
      p.freePages ∪ (liveBlock (ptr, size)).pages := by
  intro hsub
  obtain ⟨b, hb, hne, hmeet⟩ := hk
  rw [h.tracks.liveSpan_eq hb, show ptr / pageSize = (liveBlock (ptr, size)).start from
    h.tracks.start_eq ha] at hmeet
  obtain ⟨i, hib, hi⟩ := Finset.not_disjoint_iff.1 hmeet
  have hbu := h.tracks.mem_used hb
  rcases Finset.mem_union.1 (hsub hi) with hf | hB
  · exact Finset.disjoint_left.1 p.disjoint_freePages_usedPages hf
      (p.mem_usedPages.2 ⟨_, hbu, hib⟩)
  · apply hne
    apply List.inj_on_of_nodup_map h.tracks.nodup hb ha
    exact p.eq_of_mem (p.mem_blocks_of_used hbu)
      (p.mem_blocks_of_used (h.tracks.mem_used ha)) hib hB

theorem Whole.step (h : Whole s p) {op : Op} (hv : op.Valid s) (hk : Keeps s op) :
    ∃ p', Whole (s.step op) p' := by
  cases op with
  | alloc size =>
      cases hc : candidate s.mm size with
      | none => exact ⟨p, (h.tracks.alloc_null hc).symm ▸ h⟩
      | some b =>
          have hb : b ≠ 0 := fun h0 => hk ((pageZeroNext_iff _ _).2 (h0 ▸ hc))
          obtain ⟨p', B, ht, hal, -⟩ := h.tracks.alloc_some hc hb
          exact ⟨p', ht, hal.owned.trans h.owned, hal.coalesced h.coalesced⟩
  | free ptr size =>
      obtain ⟨p', ht, hf | hl⟩ := h.tracks.free hv
      · exact ⟨p', ht, hf.owned.trans h.owned, hf.coalesced h.coalesced⟩
      · exact absurd hl.rest (h.region_not_covered hv hk)

theorem Whole.step_not_conserved (h : Whole s p) {op : Op} (hv : op.Valid s) (hk : ¬ Keeps s op) :
    ¬ Conserved (s.step op) := by
  intro hcons
  cases op with
  | alloc size =>
      have hc := (pageZeroNext_iff _ _).1 (not_not.1 hk)
      obtain ⟨-, -, st', p', B, heq, hrep, hal, hB, -⟩ := alloc_some h.tracks.rep hc
      have hstep : s.step (.alloc size) = ⟨st', s.live⟩ := by
        simp only [Sys.step, heq, Nat.zero_mul, if_true]
      have hBu : B ∈ p'.used := hal.used ▸ Finset.mem_insert_self _ _
      have h0B : 0 ∈ B.pages := hB ▸ B.start_mem_pages
      obtain ⟨C, ⟨h0C, hC⟩, -⟩ := hcons.owner 0 (by decide)
      rw [hstep] at hC
      -- page 0 lies in the block that was handed out as the null pointer
      rcases hC with ⟨hko, hl⟩ | ⟨a, ha, rfl⟩
      · obtain ⟨D, hD, ho, hs⟩ := (onList_iff hrep hko C.start).1 hl
        have hDC : D = C := DyadicBlock.ext hs ho
        have heq := p'.eq_of_mem (p'.mem_blocks_of_free (hDC ▸ hD)) (p'.mem_blocks_of_used hBu) h0C h0B
        exact p'.not_free_of_used hBu (heq ▸ hDC ▸ hD)
      · have hau := h.tracks.mem_used ha
        have hau' : liveBlock a ∈ p'.used := hal.used ▸ Finset.mem_insert_of_mem hau
        have heq := p'.eq_of_mem (p'.mem_blocks_of_used hau') (p'.mem_blocks_of_used hBu) h0C h0B
        exact hal.not_used (heq ▸ hau)
  | free ptr size =>
      have hcov := h.region_covered hv hk
      obtain ⟨p', ht, hf | hl⟩ := h.tracks.free hv
      · exact hf.blocked h.coalesced hcov
      · have hs : (liveBlock (ptr, size)).start < pageNum := by
          have hb := (h.tracks.rep.bound _ (p.mem_blocks_of_used (h.tracks.mem_used hv))).2
          exact Finset.mem_range.1 (hb (liveBlock (ptr, size)).start_mem_pages)
        obtain ⟨C, ⟨hiC, hC⟩, -⟩ := hcons.owner _ hs
        have hown := p'.mem_owned.2 ⟨C, ht.owner_iff.1 hC, hiC⟩
        rw [hl.owned, Finset.mem_sdiff] at hown
        exact hown.2 (mem_containing _ _)

theorem whole_init : Whole ⟨mmInit, []⟩ (initPool (pageNum / maxBlockSize)) := by
  refine ⟨⟨mmInit_spec.1, rfl, List.nodup_nil, ?_, ?_⟩, initPool_owned, initPool_coalesced _⟩
  · exact fun a ha => absurd ha List.not_mem_nil
  · exact fun a ha => absurd ha List.not_mem_nil

/-- While all steps keep pages, the allocator conserves them, and it stops to with the first step
that does not. -/
theorem pageAllocator_conserves {s : Sys} (hrun : ReflTransGen (Sys.Step Keeps) ⟨mmInit, []⟩ s) :
    Conserved s ∧ ∀ op : Op, op.Valid s → (Conserved (s.step op) ↔ Keeps s op) := by
  have hstable : Runs.Stable (Sys.Step Keeps) fun s => ∃ p, Whole s p := by
    rintro s _ ⟨p, h⟩ ⟨op, hv, hk, rfl⟩
    exact h.step hv hk
  obtain ⟨p, h⟩ := hstable.run ⟨_, whole_init⟩ hrun
  refine ⟨h.conserved, fun op hv => ⟨fun hcons => ?_, fun hk => ?_⟩⟩
  · by_contra hk
    exact h.step_not_conserved hv hk hcons
  · obtain ⟨p', h'⟩ := h.step hv hk
    exact h'.conserved

theorem not_pageZeroNext_mmInit (size : ℕ) : ¬ PageZeroNext mmInit size := by
  rintro ⟨-, -, k, hk, -, -, hhead⟩
  have hall : ∀ k < maxOrder, mmInit.freeList k ≠ some 0 := by decide
  exact hall k hk hhead

theorem pageAllocator_conserves_one_page :
    Conserved (Sys.step ⟨mmInit, []⟩ (.alloc pageSize)) :=
  (pageAllocator_conserves (ReflTransGen.single
    ⟨.alloc pageSize, trivial, not_pageZeroNext_mmInit pageSize, rfl⟩)).1

/-- A largest block is lost as soon as it is freed. -/
theorem largest_block_lost : ¬ ∀ s, ReflTransGen (Sys.Step fun _ _ => True) ⟨mmInit, []⟩ s →
    Conserved s := by
  intro hall
  set a : ℕ × ℕ := (29 * maxBlockSize * pageSize, maxAllocSize)
  have hc : candidate mmInit maxAllocSize = some (29 * maxBlockSize) := by decide
  obtain ⟨p', B, h, -, hlive, -⟩ := whole_init.tracks.alloc_some hc (by decide)
  have hkeep : Keeps ⟨mmInit, []⟩ (.alloc maxAllocSize) := not_pageZeroNext_mmInit maxAllocSize
  obtain ⟨q, hq⟩ := whole_init.step (show Op.Valid ⟨mmInit, []⟩ (.alloc maxAllocSize) from trivial) hkeep
  have hv : Op.Valid (Sys.step ⟨mmInit, []⟩ (.alloc maxAllocSize)) (.free a.1 a.2) := by
    change (a.1, a.2) ∈ _
    rw [hlive]
    exact List.mem_cons_self
  refine hq.step_not_conserved hv ?_ (hall _ ?_)
  · rintro ⟨b, hb, hne, -⟩
    rw [hlive] at hb
    exact hne (List.mem_singleton.1 hb)
  · exact (ReflTransGen.single ⟨.alloc maxAllocSize, trivial, trivial, rfl⟩).tail ⟨_, hv, trivial, rfl⟩

end OscKernel.Mm
