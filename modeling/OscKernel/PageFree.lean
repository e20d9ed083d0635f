import OscKernel.PageAlloc

/-!
# `_free` gives a block back, or loses it

The merge loop of `_free` lets the freed block absorb its buddy as long as the buddy is free. It
puts the result on a list when it stops below the maximum order. A block that starts at the maximum
order, or reaches it, leaves the loop without being put anywhere: its pages drop out of the pool.
-/

namespace OscKernel.Mm

open DyadicBlock

variable {st st' : State} {p p' : BlockPool} {B C : DyadicBlock}

abbrev region (i : ℕ) : DyadicBlock := containing i (maxOrder - 1)

structure Freed (p p' : BlockPool) (B : DyadicBlock) : Prop where
  used : p'.used = p.used.erase B
  owned : p'.owned = p.owned
  coalesced : p.Coalesced (maxOrder - 1) → p'.Coalesced (maxOrder - 1)
  blocked : p.Coalesced (maxOrder - 1) → ¬ (region B.start).pages ⊆ p.freePages ∪ B.pages

/-- `_free` merged the block with the rest of its region and lost the region. -/
structure Lost (p p' : BlockPool) (B : DyadicBlock) : Prop where
  used : p'.used = p.used.erase B
  owned : p'.owned = p.owned \ (region B.start).pages
  coalesced : p.Coalesced (maxOrder - 1) → p'.Coalesced (maxOrder - 1)
  rest : (region B.start).pages ⊆ p.freePages ∪ B.pages

theorem freeInsert_inserted {b k : ℕ} (hk : k < maxOrder) : Inserted st (freeInsert st b k) b k := by
  unfold freeInsert
  rw [modify_modify]
  refine inserted_of_add hk ?_ ?_ ?_
  · exact fun e => ⟨rfl, rfl⟩
  · exact fun e => ⟨rfl, rfl⟩
  · exact fun e he => ⟨he.idx, rfl, rfl, he.cacheOrder⟩

theorem RepExcept.release (h : RepExcept (some B.start) st p) (hB : B ∈ p.used)
    (hins : Inserted st st' B.start B.order) : Rep st' (p.release B hB) := by
  have hne : ∀ C ∈ p.blocks, C ≠ B → C.start ≠ B.start := fun C hC =>
    start_ne_of_ne hC (p.mem_blocks_of_used hB)
  apply h.insert hins _ rfl
  · apply bound_of_subset h.bound
    intro C hC
    simp only [BlockPool.blocks, BlockPool.release, Finset.mem_union, Finset.mem_insert,
      Finset.mem_erase] at hC ⊢
    rcases hC with (rfl | hC) | hC
    · exact Or.inl (Or.inr hB)
    · exact Or.inl (Or.inl hC)
    · exact Or.inl (Or.inr hC.2)
  · intro C hC _
    obtain ⟨hCB, hCu⟩ := Finset.mem_erase.1 hC
    exact ⟨hCu, hne C (p.mem_blocks_of_used hCu) hCB⟩
  · intro i _ hi he
    exact hi (Option.some.inj he).symm
  · intro C hC
    exact hne C (p.mem_blocks_of_free hC) (fun he => p.not_free_of_used hB (he ▸ hC))

/-- The buddy of a used block that is not free has a page that is not free. -/
theorem buddy_not_covered (hco : p.Coalesced (maxOrder - 1)) (hB : B ∈ p.used)
    (ho : B.order ≤ maxOrder - 1) (hb : B.buddy ∉ p.free) : ¬ B.buddy.pages ⊆ p.freePages := by
  intro hsub
  obtain ⟨C, hC, hBC⟩ := hco.mem_free_of_subset hsub ho
  have hle : B.order ≤ C.order := order_le_of_subset (B := B.buddy) hBC
  have hCB : B.buddy.start ∈ C.pages := hBC B.buddy.start_mem_pages
  rcases Nat.lt_or_ge B.order C.order with hlt | hge
  · -- a larger free block around the buddy would contain the used block
    have hpar : B.parent.pages ⊆ C.pages := by
      apply subset_of_mem_of_order_le (B := B.parent) (by rw [parent_order]; omega) _ hCB
      rw [pages_parent]
      exact Finset.mem_union_right _ B.buddy.start_mem_pages
    have hBC' : B.start ∈ C.pages := hpar (by
      rw [pages_parent]
      exact Finset.mem_union_left _ B.start_mem_pages)
    have heq := p.eq_of_mem (p.mem_blocks_of_used hB) (p.mem_blocks_of_free hC) B.start_mem_pages
      hBC'
    exact p.not_free_of_used hB (heq ▸ hC)
  · have heq : C = B.buddy := eq_of_mem_of_order_eq (by rw [buddy_order]; omega) hCB
      B.buddy.start_mem_pages
    exact hb (heq ▸ hC)

theorem parent_pages_subset_region (ho : B.order < maxOrder - 1) :
    B.parent.pages ⊆ (region B.start).pages := by
  have hs : B.start ∈ B.parent.pages := by
    rw [pages_parent]
    exact Finset.mem_union_left _ B.start_mem_pages
  apply subset_of_mem_of_order_le _ hs (mem_containing _ _)
  rw [parent_order, containing_order]
  omega

theorem buddy_pages_subset_region (ho : B.order < maxOrder - 1) :
    B.buddy.pages ⊆ (region B.start).pages := by
  have hpar := parent_pages_subset_region ho
  rw [pages_parent] at hpar
  exact Finset.subset_union_right.trans hpar

theorem freed_release (hB : B ∈ p.used) (ho : B.order < maxOrder - 1) (hb : B.buddy ∉ p.free) :
    Freed p (p.release B hB) B := by
  refine ⟨rfl, BlockPool.owned_release hB, fun hco => hco.insert rfl (fun _ => hb), ?_⟩
  intro hco hsub
  apply buddy_not_covered hco hB ho.le hb
  intro i hi
  rcases Finset.mem_union.1 (hsub (buddy_pages_subset_region ho hi)) with hf | hBi
  · exact hf
  · exact absurd hi (Finset.disjoint_left.1 B.disjoint_buddy hBi)

theorem RepExcept.drop (h : RepExcept (some B.start) st p)
    (horder : (st.pageList B.start).order = (maxOrder - 1 : ℕ)) (hB : B ∈ p.used) :
    Rep st (p.drop B) := by
  refine ⟨h.lists, ?_, h.freeEntry, ?_, ?_⟩
  · intro C hC
    apply h.bound
    rcases Finset.mem_union.1 hC with hC | hC
    · exact p.mem_blocks_of_free hC
    · exact p.mem_blocks_of_used (Finset.mem_of_mem_erase hC)
  · intro C hC _
    obtain ⟨hCB, hCu⟩ := Finset.mem_erase.1 hC
    have hs := start_ne_of_ne (p.mem_blocks_of_used hCu) (p.mem_blocks_of_used hB) hCB
    exact h.usedEntry C hCu (fun he => hs (Option.some.inj he).symm)
  · intro i _ hentry
    by_cases hi : i = B.start
    · exact Or.inr (hi ▸ horder)
    · exact h.heads i (fun he => hi (Option.some.inj he).symm) hentry

theorem lost_drop (hB : B ∈ p.used) (ho : B.order = maxOrder - 1) : Lost p (p.drop B) B := by
  have hreg : region B.start = B :=
    eq_of_mem_of_order_eq (by rw [containing_order, ho]) (mem_containing _ _) B.start_mem_pages
  refine ⟨rfl, ?_, id, ?_⟩
  · rw [BlockPool.owned_drop hB, hreg]
  · rw [hreg]
    exact Finset.subset_union_right

structure Joined (st st' : State) (b buddy k : ℕ) : Prop where
  lists : ∀ F, ListsHold st F → F k buddy → ListsHold st' fun j i => F j i ∧ i ≠ buddy
  elsewhere : ∀ i, i ≠ b → i ≠ buddy → SameData (st.pageList i) (st'.pageList i)
  lower : (st'.pageList (min b buddy)).order = (k + 1 : ℕ)
  upper : (st'.pageList (max b buddy)).entryInList = none
  cache : ∀ i, (st'.pageList i).cacheOrder = (st.pageList i).cacheOrder

theorem freeJoin_joined {b buddy k : ℕ} (hk : k < maxOrder) (hne : b ≠ buddy) :
    Joined st (freeJoin st buddy b buddy k) b buddy k := by
  have hsame := rmFromFreeList_sameData st buddy hk
  have hminmax : min b buddy ≠ max b buddy := by omega
  unfold freeJoin
  rw [modify_modify]
  constructor
  · intro F hF hb
    refine ListsHold.modify (ListsHold.modify (hF.rm hk hb (fun j i => Iff.rfl)) ?_) ?_
    · exact fun e => ⟨rfl, rfl⟩
    · exact fun e => ⟨rfl, rfl⟩
  · intro i hib hibuddy
    have hmin : i ≠ min b buddy := by omega
    have hmax : i ≠ max b buddy := by omega
    rw [modify_pageList, if_neg hmax, modify_pageList, if_neg hmin]
    exact hsame i
  · rw [modify_pageList, if_neg hminmax, modify_pageList, if_pos rfl]
  · rw [modify_pageList, if_pos rfl]
    rfl
  · intro i
    rw [modify_pageList, modify_pageList]
    split_ifs <;> exact (hsame i).cacheOrder

theorem RepExcept.join (h : RepExcept (some B.start) st p) (hB : B ∈ p.used)
    (hb : B.buddy ∈ p.free) (ho : B.order + 1 < maxOrder)
    (hj : Joined st st' B.start B.buddy.start B.order) :
    RepExcept (some B.parent.start) st' (p.join B hB hb) := by
  have hBp := p.mem_blocks_of_used hB
  have hbp := p.mem_blocks_of_free hb
  have hsame : ∀ C ∈ p.blocks, C ≠ B → C ≠ B.buddy →
      SameData (st.pageList C.start) (st'.pageList C.start) := fun C hC hCB hCb =>
    hj.elsewhere C.start (start_ne_of_ne hC hBp hCB) (start_ne_of_ne hC hbp hCb)
  refine ⟨?_, ?_, ?_, ?_, ?_⟩
  · exact (hj.lists _ h.lists ⟨_, hb, rfl, rfl⟩).iff (freeAt_erase hb rfl)
  · intro C hC
    simp only [BlockPool.blocks, BlockPool.join, Finset.mem_union, Finset.mem_erase,
      Finset.mem_insert] at hC
    rcases hC with hC | rfl | hC
    · exact h.bound C (p.mem_blocks_of_free hC.2)
    · refine ⟨ho, ?_⟩
      rw [pages_parent]
      exact Finset.union_subset (h.bound B hBp).2 (h.bound B.buddy hbp).2
    · exact h.bound C (p.mem_blocks_of_used hC.2)
  · intro C hC
    obtain ⟨hne, hCf⟩ := Finset.mem_erase.1 hC
    have hs := hsame C (p.mem_blocks_of_free hCf) (fun he => p.not_free_of_used hB (he ▸ hCf)) hne
    rw [hs.idx, hs.order, hs.entryInList]
    exact h.freeEntry C hCf
  · intro C hC hcC
    rcases Finset.mem_insert.1 hC with rfl | hC
    · exact absurd rfl hcC
    · obtain ⟨hne, hCu⟩ := Finset.mem_erase.1 hC
      have hs := hsame C (p.mem_blocks_of_used hCu) hne (fun he => p.not_free_of_used hCu (he ▸ hb))
      rw [hs.order, hs.entryInList]
      refine h.usedEntry C hCu (fun he => ?_)
      exact start_ne_of_ne (p.mem_blocks_of_used hCu) hBp hne (Option.some.inj he).symm
  · intro i hi hentry
    have hmin : i ≠ min B.start B.buddy.start := fun he => hi (congrArg some he.symm)
    by_cases hmax : i = max B.start B.buddy.start
    · rw [hmax, hj.upper] at hentry
      exact absurd rfl hentry
    · have hiB : i ≠ B.start := by omega
      have hib : i ≠ B.buddy.start := by omega
      have hs := hj.elsewhere i hiB hib
      rw [hs.entryInList] at hentry
      rw [hs.order]
      rcases h.heads i (fun he => hiB (Option.some.inj he).symm) hentry with ⟨C, hC, hCi⟩ | hmax'
      · refine Or.inl ⟨C, Finset.mem_erase.2 ⟨fun he => hib ?_, hC⟩, hCi⟩
        rw [← hCi, he]
      · exact Or.inr hmax'

theorem join_cover (hB : B ∈ p.used) (hb : B.buddy ∈ p.free) :
    (p.join B hB hb).freePages ∪ B.parent.pages = p.freePages ∪ B.pages := by
  ext i
  simp only [Finset.mem_union, BlockPool.mem_freePages, pages_parent, BlockPool.join,
    Finset.mem_erase]
  constructor
  · rintro (⟨C, hC, hi⟩ | hi | hi)
    · exact Or.inl ⟨C, hC.2, hi⟩
    · exact Or.inr hi
    · exact Or.inl ⟨_, hb, hi⟩
  · rintro (⟨C, hC, hi⟩ | hi)
    · by_cases he : C = B.buddy
      · exact Or.inr (Or.inr (he ▸ hi))
      · exact Or.inl ⟨C, ⟨he, hC⟩, hi⟩
    · exact Or.inr (Or.inl hi)

theorem region_parent (ho : B.order < maxOrder - 1) : region B.parent.start = region B.start := by
  have hord : (region B.parent.start).order = (region B.start).order := by
    rw [containing_order, containing_order]
  exact eq_of_mem_of_order_eq hord (mem_containing _ _)
    (parent_pages_subset_region ho B.parent.start_mem_pages)

theorem used_join (hB : B ∈ p.used) (hb : B.buddy ∈ p.free) :
    (p.join B hB hb).used.erase B.parent = p.used.erase B := by
  apply Finset.erase_insert
  intro hp
  have hs : B.start ∈ B.parent.pages := by
    rw [pages_parent]
    exact Finset.mem_union_left _ B.start_mem_pages
  have heq := p.eq_of_mem (p.mem_blocks_of_used (Finset.mem_of_mem_erase hp))
    (p.mem_blocks_of_used hB) hs B.start_mem_pages
  exact (Finset.mem_erase.1 hp).1 heq

theorem freeMerge_spec (n : ℕ) (h : RepExcept (some B.start) st p) (hB : B ∈ p.used)
    (horder : (st.pageList B.start).order = B.order) (hn : B.order + n = maxOrder - 1) :
    ∃ p', Rep (freeMerge n st B.start B.order) p' ∧ (Freed p p' B ∨ Lost p p' B) := by
  induction n generalizing st p B with
  | zero =>
      have ho : B.order = maxOrder - 1 := by omega
      exact ⟨p.drop B, h.drop (by rw [horder, ho]) hB, Or.inr (lost_drop hB ho)⟩
  | succ n ih =>
      have hlt : B.order < maxOrder - 1 := by omega
      have hpos : 0 < maxOrder := by decide
      have hne : B.start ≠ B.buddy.start := (B.buddy_start_ne).symm
      have hcb : some B.start ≠ some B.buddy.start := fun he => hne (Option.some.inj he)
      -- the loop stops exactly when the buddy is not a free block
      have hstop : B.buddy ∉ p.free → freeMerge (n + 1) st B.start B.order =
          freeInsert st B.start B.order := by
        intro hb
        simp only [freeMerge, getBuddy_start]
        cases hentry : (st.pageList B.buddy.start).entryInList with
        | none => rfl
        | some e =>
            refine if_neg (fun heq => hb ?_)
            rw [horder] at heq
            obtain ⟨C, hC, hCs, hCo⟩ := h.free_of_entry hcb (by simp [hentry]) (by omega) heq
            have hCb : C = B.buddy := DyadicBlock.ext hCs hCo
            exact hCb ▸ hC
      by_cases hb : B.buddy ∈ p.free
      · obtain ⟨-, hborder, hbentry⟩ := h.freeEntry B.buddy hb
        have hstep : freeMerge (n + 1) st B.start B.order =
            freeMerge n (freeJoin st B.buddy.start B.start B.buddy.start B.order)
              B.parent.start B.parent.order := by
          simp only [freeMerge, getBuddy_start, hbentry, hborder, horder, buddy_order, if_pos]
          rfl
        have hj : Joined st (freeJoin st B.buddy.start B.start B.buddy.start B.order) B.start
            B.buddy.start B.order := freeJoin_joined (by omega) hne
        obtain ⟨p', hrep, hres⟩ := ih (B := B.parent) (h.join hB hb (by omega) hj)
          (Finset.mem_insert_self _ _) hj.lower (by rw [parent_order]; omega)
        refine ⟨p', hstep ▸ hrep, ?_⟩
        have hco : p.Coalesced (maxOrder - 1) → (p.join B hB hb).Coalesced (maxOrder - 1) :=
          fun hc => hc.mono (Finset.erase_subset _ _)
        rcases hres with hf | hl
        · refine Or.inl ⟨?_, ?_, fun hc => hf.coalesced (hco hc), fun hc hsub => ?_⟩
          · rw [hf.used, used_join]
          · rw [hf.owned, BlockPool.owned_join]
          · apply hf.blocked (hco hc)
            rw [join_cover, region_parent hlt]
            exact hsub
        · refine Or.inr ⟨?_, ?_, fun hc => hl.coalesced (hco hc), ?_⟩
          · rw [hl.used, used_join]
          · rw [hl.owned, BlockPool.owned_join, region_parent hlt]
          · have hrest := hl.rest
            rwa [join_cover, region_parent hlt] at hrest
      · rw [hstop hb]
        exact ⟨p.release B hB, h.release hB (freeInsert_inserted (by omega)),
          Or.inl (freed_release hB hlt hb)⟩

/-- `_free` on the address of a used block. -/
theorem free_spec (h : Rep st p) (hB : B ∈ p.used) (hpos : 0 < B.start) :
    ∃ p', Rep (free st (B.start * pageSize)) p' ∧ (Freed p p' B ∨ Lost p p' B) := by
  obtain ⟨horder, hentry⟩ := h.usedEntry B hB (by simp)
  obtain ⟨hlt, hsub⟩ := h.bound B (p.mem_blocks_of_used hB)
  have hin : B.start < pageNum := Finset.mem_range.1 (hsub B.start_mem_pages)
  have hexcept : RepExcept (some B.start) st p :=
    ⟨h.lists, h.bound, h.freeEntry, fun C hC _ => h.usedEntry C hC (by simp),
      fun i _ => h.heads i (by simp)⟩
  have hne : B.start * pageSize ≠ 0 := (Nat.mul_pos hpos pageSize_pos).ne'
  have hcall : free st (B.start * pageSize) =
      freeMerge (maxOrder - 1 - B.order) st B.start B.order := by
    have hcond : ¬ ((B.start : ℤ) < 0 ∨ (pageNum : ℤ) ≤ B.start ∨
        (st.pageList B.start).entryInList ≠ none) := by
      rintro (hneg | hge | hent)
      · omega
      · omega
      · exact hent hentry
    have hneg : ¬ (B.order : ℤ) < 0 := by omega
    simp only [free, if_neg hne, pageIdx_page hin, Int.toNat_natCast, if_neg hcond, horder,
      if_neg hneg]
  rw [hcall]
  exact freeMerge_spec _ hexcept hB horder (by omega)

end OscKernel.Mm
