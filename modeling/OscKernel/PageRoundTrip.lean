import OscKernel.PageCoalescing

/-!
# Blocks that are given back

After a call of `_alloc` and a call of `_free` for what it has returned, the free lists hold the same
blocks as before, unless the block was cut from a free block of the largest order: that one does not come
back. So a client that takes any number of blocks and frees them all, in any order, leaves no trace as
long as no block of the largest order is cut.
-/

namespace OscKernel.Mm

open DyadicBlock Linked Relation

variable {p p' : BlockPool} {B C : DyadicBlock} {fixed : Finset DyadicBlock} {s : Sys} {size b : ℕ}

def ServedBelow (st : State) (size : ℕ) : Prop :=
  ∃ k, reqOrder size ≤ k ∧ k < maxOrder - 1 ∧ st.freeList k ≠ none

theorem Allocated.freePages (h : Allocated p p' B) : p'.freePages = p.freePages \ B.pages := by
  rw [p'.freePages_eq, p.freePages_eq, h.owned, BlockPool.usedPages, h.used, Finset.biUnion_insert,
    BlockPool.usedPages, Finset.union_comm, sdiff_sdiff_left, Finset.sup_eq_union]

/-- The free block that `_alloc` takes its page from. -/
theorem candidate_block (h : Tidy fixed s p) (hc : candidate s.mm size = some b) :
    ∃ C ∈ p.free, C.start = b ∧ (C.order < maxOrder - 1 ↔ ServedBelow s.mm size) := by
  rw [candidate] at hc
  split_ifs at hc with hs
  have hlt : reqOrder size < maxOrder := reqOrder_lt (by omega)
  obtain ⟨k, hk, hle, hbelow, hhead⟩ := (firstFit_eq_some _ _ _ _).1 hc
  rw [Nat.add_sub_cancel' hlt.le] at hk
  obtain ⟨C, hC, rfl, rfl⟩ := h.tracks.rep.head_free hk hhead
  refine ⟨C, hC, rfl, fun hlt => ⟨C.order, hle, hlt, by rw [hhead]; simp⟩, ?_⟩
  rintro ⟨j, hj, hjlt, hne⟩
  by_contra hge
  exact hne (hbelow j hj (by omega))

/-- The region around a free block is free as a whole only when the block has the largest order. -/
theorem Tidy.region_free_iff (h : Tidy fixed s p) (hC : C ∈ p.free) :
    (region C.start).pages ⊆ p.freePages ↔ ¬ C.order < maxOrder - 1 := by
  have hle := h.order_le C hC
  constructor
  · intro hsub hlt
    obtain ⟨D, hD, hRD⟩ := h.coalesced.mem_free_of_subset hsub le_rfl
    have hmem : C.start ∈ (region C.start).pages := mem_containing _ _
    have heq := p.eq_of_mem (p.mem_blocks_of_free hC) (p.mem_blocks_of_free hD) C.start_mem_pages
      (hRD hmem)
    have hge := order_le_of_subset hRD
    rw [← heq, containing_order] at hge
    omega
  · intro hge
    have heq : region C.start = C :=
      eq_of_mem_of_order_eq (by rw [containing_order]; omega) (mem_containing _ _) C.start_mem_pages
    rw [heq]
    exact fun i hi => p.mem_freePages.2 ⟨C, hC, hi⟩

/-- The free pages after a block was taken and freed again. -/
theorem freedPages_taken {F : Finset ℕ} (hB : B.pages ⊆ F) :
    freedPages (F \ B.pages) B = if (region B.start).pages ⊆ F then F \ (region B.start).pages else F := by
  rw [freedPages, settle, Finset.sdiff_union_of_subset hB]

theorem Tidy.alloc_free (h : Tidy fixed s p) (hc : candidate s.mm size = some b) (hb : b ≠ 0) :
    SameBlocks ((s.step (.alloc size)).step (.free (b * pageSize) size)) s ↔ ServedBelow s.mm size := by
  obtain ⟨p', B, htracks, hal, hlive, hblock⟩ := h.tracks.alloc_some hc hb
  have h' : Tidy fixed (s.step (.alloc size)) p' := ⟨htracks, hal.coalesced h.coalesced⟩
  obtain ⟨q, hq, hpages⟩ := h'.free (a := (b * pageSize, size)) (hlive ▸ List.mem_cons_self)
  obtain ⟨C, hC, hCb, hserved⟩ := candidate_block h hc
  have hstart : B.start = C.start := by
    have haddr := (htracks.addr (b * pageSize, size) (hlive ▸ List.mem_cons_self)).1
    rw [hblock] at haddr
    exact (Nat.eq_of_mul_eq_mul_right pageSize_pos haddr).symm.trans hCb.symm
  rw [hblock, hal.freePages, freedPages_taken hal.pages, hstart] at hpages
  rw [← hserved, ← not_not (a := C.order < maxOrder - 1), ← h.region_free_iff hC]
  constructor
  · intro hsame hsub
    rw [if_pos hsub] at hpages
    have heq := hsame.free.freePages hq.tracks.rep h.tracks.rep
    have hmem : C.start ∈ p.freePages := hsub (mem_containing _ _)
    rw [← heq, hpages, Finset.mem_sdiff] at hmem
    exact hmem.2 (mem_containing _ _)
  · intro hsub
    rw [if_neg hsub] at hpages
    refine ⟨hq.sameFree h hpages, ?_⟩
    change (s.step (.alloc size)).live.erase _ = _
    rw [hlive, List.erase_cons_head]

theorem Tidy.candidate_of_ne (h : Tidy fixed s p) (hne : (alloc s.mm size).2 ≠ 0) :
    ∃ b, candidate s.mm size = some b ∧ b ≠ 0 ∧ (alloc s.mm size).2 = b * pageSize := by
  rw [ne_eq, alloc_eq_null_iff h.tracks.rep, not_or] at hne
  obtain ⟨b, hb⟩ := Option.ne_none_iff_exists'.1 hne.1
  obtain ⟨-, -, st', p', B, heq, -⟩ := Mm.alloc_some h.tracks.rep hb
  refine ⟨b, hb, ?_, by rw [heq]⟩
  rintro rfl
  exact hne.2 hb

/-- In every reachable state, a block that `_alloc` returns and that is given straight back leaves the free
lists and the held blocks as they were, exactly if a list below the largest order could serve the request. -/
theorem alloc_free_restores_iff (h : Reachable s) (hne : (alloc s.mm size).2 ≠ 0) :
    SameBlocks ((s.step (.alloc size)).step (.free (alloc s.mm size).2 size)) s ↔
      ServedBelow s.mm size := by
  obtain ⟨fixed, p, hs⟩ := h.tidy
  obtain ⟨b, hc, hb, hptr⟩ := hs.candidate_of_ne hne
  rw [hptr]
  exact hs.alloc_free hc hb

/-- With two pages held, a third one comes from a list below the largest order. -/
theorem alloc_free_restores_third :
    SameBlocks ((twoPages.step (.alloc pageSize)).step (.free (alloc twoPages.mm pageSize).2 pageSize))
        twoPages ↔ ServedBelow twoPages.mm pageSize :=
  alloc_free_restores_iff twoPages_reachable (by decide +kernel)

def allocAll (s : Sys) (sizes : List ℕ) : Sys := sizes.foldl (fun s size => s.step (.alloc size)) s

def gained (s : Sys) : List ℕ → List (ℕ × ℕ)
  | [] => []
  | size :: sizes => gained (s.step (.alloc size)) sizes ++ [((alloc s.mm size).2, size)]

/-- Every call returns a block, and no block of the largest order is cut for it. -/
def ServedAll (s : Sys) : List ℕ → Prop
  | [] => True
  | size :: sizes =>
      (alloc s.mm size).2 ≠ 0 ∧ ServedBelow s.mm size ∧ ServedAll (s.step (.alloc size)) sizes

variable {sizes : List ℕ} {l : List (ℕ × ℕ)}

theorem step_alloc_live (hne : (alloc s.mm size).2 ≠ 0) :
    (s.step (.alloc size)).live = ((alloc s.mm size).2, size) :: s.live := by
  simp only [Sys.step, if_neg hne]

theorem allocAll_live (hs : ServedAll s sizes) :
    (allocAll s sizes).live = gained s sizes ++ s.live := by
  induction sizes generalizing s with
  | nil => rfl
  | cons size sizes ih =>
      obtain ⟨hne, -, hrest⟩ := hs
      rw [gained, List.append_assoc, List.singleton_append, ← step_alloc_live hne]
      exact ih hrest

theorem freeAll_append (s : Sys) (l l' : List (ℕ × ℕ)) : freeAll s (l ++ l') = freeAll (freeAll s l) l' := by
  rw [freeAll, List.foldl_append]
  rfl

/-- The blocks are freed in the reverse order. -/
theorem Tidy.freeAll_gained (h : Tidy fixed s p) (hs : ServedAll s sizes) :
    (∃ q, Tidy fixed (allocAll s sizes) q) ∧
      (∃ q, Tidy fixed (freeAll (allocAll s sizes) (gained s sizes)) q) ∧
      SameBlocks (freeAll (allocAll s sizes) (gained s sizes)) s := by
  induction sizes generalizing s p with
  | nil => exact ⟨⟨p, h⟩, ⟨p, h⟩, SameBlocks.refl s⟩
  | cons size sizes ih =>
      obtain ⟨hne, hserved, hrest⟩ := hs
      obtain ⟨b, hc, hb, hptr⟩ := h.candidate_of_ne hne
      obtain ⟨p₁, B, htracks, hal, -⟩ := h.tracks.alloc_some hc hb
      have h₁ : Tidy fixed (s.step (.alloc size)) p₁ := ⟨htracks, hal.coalesced h.coalesced⟩
      obtain ⟨hall, ⟨p₂, h₂⟩, hback⟩ := ih h₁ hrest
      have hmem : ((alloc s.mm size).2, size) ∈ (s.step (.alloc size)).live := by
        rw [step_alloc_live hne]
        exact List.mem_cons_self
      have hmem₂ := hback.live ▸ hmem
      obtain ⟨q, hq, -⟩ := h₂.free hmem₂
      rw [gained, freeAll_append]
      refine ⟨hall, ⟨q, hq⟩, (h₂.free_congr h₁ hback hmem₂).trans ?_⟩
      rw [hptr]
      exact (h.alloc_free hc hb).2 hserved

/-- A client of any reachable state that gets blocks of any sizes, none of them cut from a block of the
largest order, and frees them all in any order leaves the free lists and the held blocks as they were. -/
theorem allocs_freed_restore (h : Reachable s) (hs : ServedAll s sizes) (hl : l.Perm (gained s sizes)) :
    SameBlocks (freeAll (allocAll s sizes) l) s := by
  obtain ⟨fixed, p, ht⟩ := h.tidy
  obtain ⟨⟨q, hq⟩, -, hback⟩ := ht.freeAll_gained hs
  have hnodup : (allocAll s sizes).live.Nodup := List.Nodup.of_map _ hq.tracks.nodup
  rw [allocAll_live hs] at hnodup
  have hsub : l ⊆ (allocAll s sizes).live := by
    intro a ha
    rw [allocAll_live hs]
    exact List.mem_append_left _ (hl.mem_iff.1 ha)
  exact (hq.freeAll_perm hl (hl.nodup_iff.2 (List.nodup_append.1 hnodup).1) hsub).trans hback

/-- Two blocks more for a client that holds two pages, and freed in the order of their calls. -/
theorem allocs_freed_restore_two :
    SameBlocks (freeAll (allocAll twoPages [pageSize, 2 * pageSize])
      (gained twoPages [pageSize, 2 * pageSize]).reverse) twoPages := by
  have hserved : ServedAll twoPages [pageSize, 2 * pageSize] := by
    refine ⟨by decide +kernel, ⟨1, by decide, by decide, by decide +kernel⟩, by decide +kernel,
      ⟨2, by decide, by decide, by decide +kernel⟩, trivial⟩
  exact allocs_freed_restore twoPages_reachable hserved (List.reverse_perm _)

end OscKernel.Mm
