import OscKernel.PageFree

/-!
# `reserve` takes a range of pages out of the pool

`reserve` splits the free blocks around the two ends of the range down to single pages and then
takes the blocks of the range off their lists. It runs before the first `_alloc`, when no page
carries a stale order: the split loop relies on that, since it looks at orders only.
-/

namespace OscKernel.Mm

open DyadicBlock

variable {st st' : State} {p p' : BlockPool} {B C : DyadicBlock}

def Clean (st : State) (p : BlockPool) : Prop :=
  ∀ i, 0 < (st.pageList i).order → ∃ B ∈ p.blocks, B.start = i

def FineAt (p : BlockPool) (i n : ℕ) : Prop := ∀ C ∈ p.free, i ∈ C.pages → C.order ≤ n

theorem RepExcept.close (h : RepExcept (some B.start) st p)
    (ho : (st.pageList B.start).order = B.order)
    (he : (st.pageList B.start).entryInList = none) (hB : B ∈ p.used) : Rep st p := by
  refine ⟨h.lists, h.bound, h.freeEntry, ?_, ?_⟩
  · intro C hC _
    by_cases hCB : C = B
    · exact hCB ▸ ⟨ho, he⟩
    · have hs := start_ne_of_ne (p.mem_blocks_of_used hC) (p.mem_blocks_of_used hB) hCB
      exact h.usedEntry C hC (fun heq => hs (Option.some.inj heq).symm)
  · intro i _ hentry
    apply h.heads i _ hentry
    intro heq
    exact hentry (Option.some.inj heq ▸ he)

theorem splitInsert_inserted (st : State) {b k : ℕ} (hk : k < maxOrder) :
    Inserted st (splitInsert st b k) b k := by
  simp only [splitInsert, modify_modify]
  refine inserted_of_add hk ?_ ?_ ?_
  · exact fun e => ⟨rfl, rfl⟩
  · exact fun e => ⟨rfl, rfl⟩
  · exact fun e he => ⟨he.idx, he.order, rfl, he.cacheOrder⟩

/-- The pool after the lower half has gone on its list: the upper half is not yet there. -/
def halfSplit (p : BlockPool) (B : DyadicBlock) (hB : B ∈ p.free) (ho : 0 < B.order) : BlockPool :=
  (((p.take B hB).shed B (p.mem_used_take hB) ho).release B.lower
    (BlockPool.lower_mem_used_shed _ _ ho)).take B.upper
    (BlockPool.mem_free_release _ _ (BlockPool.upper_mem_free_shed _ _ ho))

theorem lower_ne_upper (ho : 0 < B.order) : B.lower ≠ B.upper := by
  intro he
  exact Finset.disjoint_left.1 (disjoint_halves ho) B.lower.start_mem_pages
    (he ▸ B.lower.start_mem_pages)

theorem halfSplit_free (hB : B ∈ p.free) (ho : 0 < B.order) :
    (halfSplit p B hB ho).free = insert B.lower (p.free.erase B) := by
  have hupp : B.upper ∉ p.free := fun hu =>
    p.upper_not_mem (p.mem_blocks_of_free hB) ho (p.mem_blocks_of_free hu)
  have hne := lower_ne_upper ho
  simp only [halfSplit, BlockPool.take, BlockPool.release, BlockPool.shed]
  rw [Finset.insert_comm, Finset.erase_insert]
  simp only [Finset.mem_insert, Finset.mem_erase, not_or, not_and]
  exact ⟨hne.symm, fun _ => hupp⟩

theorem halfSplit_used (hB : B ∈ p.free) (ho : 0 < B.order) :
    (halfSplit p B hB ho).used = insert B.upper p.used := by
  have hBu : B ∉ p.used := fun hu => p.not_free_of_used hu hB
  have hlow : B.lower ∉ p.used := fun hl =>
    p.lower_not_mem (p.mem_blocks_of_free hB) ho (p.mem_blocks_of_used hl)
  simp only [halfSplit, BlockPool.take, BlockPool.release, BlockPool.shed]
  rw [Finset.erase_insert hBu, Finset.erase_insert hlow]

theorem upper_mem_halfSplit (hB : B ∈ p.free) (ho : 0 < B.order) :
    B.upper ∈ (halfSplit p B hB ho).used :=
  Finset.mem_insert_self _ _

def cut (p : BlockPool) (B : DyadicBlock) (hB : B ∈ p.free) (ho : 0 < B.order) : BlockPool :=
  (halfSplit p B hB ho).release B.upper (upper_mem_halfSplit hB ho)

theorem cut_free (hB : B ∈ p.free) (ho : 0 < B.order) :
    (cut p B hB ho).free = insert B.upper (insert B.lower (p.free.erase B)) := by
  rw [← halfSplit_free hB ho]
  rfl

theorem cut_used (hB : B ∈ p.free) (ho : 0 < B.order) : (cut p B hB ho).used = p.used := by
  change (halfSplit p B hB ho).used.erase B.upper = p.used
  rw [halfSplit_used hB ho]
  exact Finset.erase_insert fun hu =>
    p.upper_not_mem (p.mem_blocks_of_free hB) ho (p.mem_blocks_of_used hu)

theorem halfSplit_owned (hB : B ∈ p.free) (ho : 0 < B.order) :
    (halfSplit p B hB ho).owned = p.owned := by
  unfold halfSplit
  rw [BlockPool.owned_take, BlockPool.owned_release, BlockPool.owned_shed, BlockPool.owned_take]

theorem cut_owned (hB : B ∈ p.free) (ho : 0 < B.order) : (cut p B hB ho).owned = p.owned := by
  unfold cut
  rw [BlockPool.owned_release, halfSplit_owned]

theorem halfSplit_bound (hB : B ∈ p.free) (ho : 0 < B.order)
    (hb : ∀ C ∈ p.blocks, C.order < maxOrder ∧ C.pages ⊆ Finset.range pageNum) :
    ∀ C ∈ (halfSplit p B hB ho).blocks, C.order < maxOrder ∧ C.pages ⊆ Finset.range pageNum := by
  apply bound_of_subset hb
  intro C hC
  rw [BlockPool.blocks, halfSplit_free, halfSplit_used] at hC
  simp only [Finset.mem_union, Finset.mem_insert, Finset.mem_erase] at hC
  rcases hC with (rfl | hC) | rfl | hC
  · refine Or.inr ⟨B, p.mem_blocks_of_free hB, ?_⟩
    rw [pages_halves ho]
    exact Finset.subset_union_left
  · exact Or.inl (p.mem_blocks_of_free hC.2)
  · refine Or.inr ⟨B, p.mem_blocks_of_free hB, ?_⟩
    rw [pages_halves ho]
    exact Finset.subset_union_right
  · exact Or.inl (p.mem_blocks_of_used hC)

theorem split_eq (ho : 0 < B.order) (hmax : B.order < maxOrder) :
    split st B.start B.order = splitInsert (splitInsert
      ((rmFromFreeList st B.start B.order).modify B.start fun e => { e with entryInList := none })
      B.lower.start B.lower.order) B.upper.start B.upper.order := by
  have hbud : getBuddy B.start (B.order - 1) = B.upper.start := by
    rw [← buddy_lower ho, ← getBuddy_start]
    rfl
  simp only [split, if_neg (not_le.2 hmax), hbud]
  rfl

theorem take_blocks (hB : B ∈ p.free) : (p.take B hB).blocks = p.blocks := by
  ext C
  simp only [BlockPool.blocks, BlockPool.take, Finset.mem_union, Finset.mem_erase,
    Finset.mem_insert]
  by_cases hCB : C = B
  · simp [hCB, hB]
  · simp [hCB]

theorem Clean.congr {st₁ : State} (hc : Clean st p) (hblocks : p'.blocks = p.blocks)
    (ho : ∀ i, (st₁.pageList i).order = (st.pageList i).order) : Clean st₁ p' := by
  intro i hi
  rw [ho] at hi
  rw [hblocks]
  exact hc i hi

/-- The two halves of a block that is off its list go on the list below. -/
theorem cut_spec (hB : B ∈ p.free) (ho : 0 < B.order)
    (h : RepExcept (some B.start) st (p.take B hB)) (hc : Clean st p) :
    let st' := splitInsert (splitInsert st B.lower.start B.lower.order) B.upper.start B.upper.order
    Rep st' (cut p B hB ho) ∧ Clean st' (cut p B hB ho) := by
  have hBp := p.mem_blocks_of_free hB
  have hbound : ∀ C ∈ p.blocks, C.order < maxOrder ∧ C.pages ⊆ Finset.range pageNum :=
    take_blocks hB ▸ h.bound
  have hk : B.order - 1 < maxOrder := lt_of_le_of_lt (Nat.sub_le _ _) (hbound B hBp).1
  have hlow : Inserted st _ B.lower.start B.lower.order := splitInsert_inserted st hk
  set st₁ := splitInsert st B.lower.start B.lower.order
  have hupp : Inserted st₁ _ B.upper.start B.upper.order := splitInsert_inserted st₁ hk
  constructor
  · have hhalf : RepExcept (some B.upper.start) st₁ (halfSplit p B hB ho) := by
      apply h.insert hlow _ (halfSplit_free hB ho) (halfSplit_bound hB ho hbound)
      · intro C hC hcC
        rw [halfSplit_used, Finset.mem_insert] at hC
        rcases hC with rfl | hC
        · exact absurd rfl hcC
        · refine ⟨Finset.mem_insert_of_mem hC, ?_⟩
          have hne : C ≠ B := fun he => p.not_free_of_used hC (he ▸ hB)
          have hs : C.start ≠ B.start := start_ne_of_ne (p.mem_blocks_of_used hC) hBp hne
          exact hs
      · intro i _ hi he
        exact hi (Option.some.inj he).symm
      · intro C hC
        obtain ⟨hne, hCf⟩ := Finset.mem_erase.1 hC
        have hs : C.start ≠ B.start := start_ne_of_ne (p.mem_blocks_of_free hCf) hBp hne
        exact hs
    exact hhalf.release (upper_mem_halfSplit hB ho) hupp
  · intro i hi
    have hmem : ∀ D, D = B.lower ∨ D = B.upper ∨ D ∈ p.blocks ∧ D ≠ B →
        D ∈ (cut p B hB ho).blocks := by
      intro D hD
      simp only [BlockPool.blocks, cut_free, cut_used, Finset.mem_union, Finset.mem_insert,
        Finset.mem_erase] at hD ⊢
      tauto
    by_cases hiu : i = B.upper.start
    · exact ⟨B.upper, hmem _ (Or.inr (Or.inl rfl)), hiu.symm⟩
    by_cases hil : i = B.start
    · exact ⟨B.lower, hmem _ (Or.inl rfl), hil.symm⟩
    rw [(hupp.elsewhere i hiu).order, (hlow.elsewhere i hil).order] at hi
    obtain ⟨D, hD, hDi⟩ := hc i hi
    exact ⟨D, hmem D (Or.inr (Or.inr ⟨hD, fun he => hil (by rw [← hDi, he])⟩)), hDi⟩

theorem split_removed (st : State) {b k : ℕ} (hk : k < maxOrder) :
    Removed st ((rmFromFreeList st b k).modify b fun e => { e with entryInList := none }) b k :=
  (removed_rm st hk).modify (fun _ => ⟨rfl, rfl⟩) fun _ => ⟨rfl, rfl, rfl⟩

theorem Removed.order_eq {b k : ℕ} (h : Removed st st' b k) (i : ℕ) :
    (st'.pageList i).order = (st.pageList i).order := by
  by_cases hi : i = b
  · rw [hi, h.order]
  · exact (h.elsewhere i hi).order

theorem split_spec (h : Rep st p) (hc : Clean st p) (hB : B ∈ p.free) (ho : 0 < B.order) :
    Rep (split st B.start B.order) (cut p B hB ho) ∧
      Clean (split st B.start B.order) (cut p B hB ho) := by
  have hmax := (h.bound B (p.mem_blocks_of_free hB)).1
  have hrm := split_removed st (b := B.start) hmax
  rw [split_eq ho hmax]
  exact cut_spec hB ho (h.remove hB hrm) (hc.congr rfl hrm.order_eq)

structure SplitKeeps (X : Finset ℕ) (st' : State) (p p' : BlockPool) : Prop where
  rep : Rep st' p'
  clean : Clean st' p'
  used : p'.used = p.used
  owned : p'.owned = p.owned
  coalesced : p.CoalescedBut (maxOrder - 1) X → p'.CoalescedBut (maxOrder - 1) X

variable {X : Finset ℕ}

theorem SplitKeeps.freePages (h : SplitKeeps X st' p p') : p'.freePages = p.freePages := by
  rw [p'.freePages_eq, p.freePages_eq, h.owned, BlockPool.usedPages, h.used, BlockPool.usedPages]

theorem SplitKeeps.trans {st'' : State} {p'' : BlockPool} (h : SplitKeeps X st' p p')
    (h' : SplitKeeps X st'' p' p'') : SplitKeeps X st'' p p'' :=
  ⟨h'.rep, h'.clean, h'.used.trans h.used, h'.owned.trans h.owned,
    fun hc => h'.coalesced (h.coalesced hc)⟩

theorem FineAt.congr {i n : ℕ} (h : FineAt p i n)
    (hfree : ∀ C ∈ p'.free, C ∈ p.free ∨ C.order ≤ n) : FineAt p' i n := by
  intro C hC hi
  rcases hfree C hC with hC | hC
  · exact h C hC hi
  · exact hC

/-- One of the two tests of a round: the block of order `k` around page `i` is split if it is a
block. -/
def splitAt (st : State) (i k : ℕ) : State :=
  if (st.pageList (blockIdx i k)).order = k then split st (blockIdx i k) k else st

theorem splitInsert_order (b k i : ℕ) (hk : k < maxOrder) :
    ((splitInsert st b k).pageList i).order = if i = b then (k : ℤ) else (st.pageList i).order := by
  have hins := splitInsert_inserted st (b := b) hk
  by_cases hi : i = b
  · rw [if_pos hi, hi, hins.order]
  · rw [if_neg hi, (hins.elsewhere i hi).order]

theorem split_order {b k : ℕ} (hk : k + 1 < maxOrder) (i : ℕ) :
    ((split st b (k + 1)).pageList i).order =
      if i = getBuddy b k ∨ i = b then (k : ℤ) else (st.pageList i).order := by
  have hrm := split_removed st (b := b) hk
  simp only [split, if_neg (not_le.2 hk), Nat.add_sub_cancel]
  rw [splitInsert_order _ _ _ (by omega), splitInsert_order _ _ _ (by omega), hrm.order_eq]
  split_ifs <;> first | rfl | tauto

/-- A second test for the same block finds its order gone down. -/
theorem splitAt_again {s e k : ℕ} (he : blockIdx s (k + 1) = blockIdx e (k + 1)) :
    splitAt (splitAt st s (k + 1)) e (k + 1) = splitAt st s (k + 1) := by
  unfold splitAt
  rw [← he]
  by_cases hord : (st.pageList (blockIdx s (k + 1))).order = (k + 1 : ℕ)
  · by_cases hk : k + 1 < maxOrder
    · rw [if_pos hord, if_neg]
      rw [split_order hk, if_pos (Or.inr rfl)]
      omega
    · have hsame : split st (blockIdx s (k + 1)) (k + 1) = st := by
        rw [split, if_pos (not_lt.1 hk)]
      rw [if_pos hord, hsame, if_pos hord, hsame]
  · rw [if_neg hord, if_neg hord]

/-- A round of the split loop tests the blocks around both ends, be they one block or two. -/
theorem reserveSplit_succ (s e n : ℕ) : reserveSplit s e (n + 1) st =
    reserveSplit s e n (splitAt (splitAt st s (n + 1)) e (n + 1)) := by
  rw [reserveSplit]
  by_cases he : blockIdx s (n + 1) = blockIdx e (n + 1)
  · rw [splitAt_again he]
    simp only [if_pos he]
    rfl
  · simp only [if_neg he]
    rfl

theorem splitAt_spec {i k : ℕ} (h : Rep st p) (hc : Clean st p) (hi : i ∈ p.freePages)
    (hk : FineAt p i (k + 1)) (hX : i ∈ X) : ∃ p', SplitKeeps X (splitAt st i (k + 1)) p p' ∧
      FineAt p' i k ∧ ∀ C ∈ p'.free, C ∈ p.free ∨ C.order = k := by
  set A := containing i (k + 1)
  rw [splitAt, blockIdx_eq]
  by_cases hord : (st.pageList A.start).order = (k + 1 : ℕ)
  · -- the order of the page is that of a block around `i`, which cannot be used
    obtain ⟨B, hB, hBs⟩ := hc A.start (by rw [hord]; omega)
    have hBA : B.order = k + 1 → B = A := fun ho =>
      eq_of_mem_of_order_eq ho B.start_mem_pages (hBs ▸ A.start_mem_pages)
    have hAf : A ∈ p.free := by
      rcases Finset.mem_union.1 hB with hB | hB
      · have := (h.freeEntry B hB).2.1
        rw [hBs, hord] at this
        exact hBA (by exact_mod_cast this.symm) ▸ hB
      · have := (h.usedEntry B hB (by simp)).1
        rw [hBs, hord] at this
        have hiB : i ∈ B.pages := by
          rw [hBA (by exact_mod_cast this.symm)]
          exact mem_containing i (k + 1)
        exact absurd (p.mem_usedPages.2 ⟨B, hB, hiB⟩)
          (Finset.disjoint_left.1 p.disjoint_freePages_usedPages hi)
    have ho : 0 < A.order := Nat.succ_pos k
    obtain ⟨hrep, hclean⟩ := split_spec h hc hAf ho
    rw [if_pos hord]
    refine ⟨cut p A hAf ho, ⟨hrep, hclean, cut_used hAf ho, cut_owned hAf ho, fun hco =>
      hco.halve (cut_free hAf ho) ho hX (mem_containing i (k + 1))⟩, ?_, ?_⟩
    · intro C hC hiC
      rw [cut_free] at hC
      simp only [Finset.mem_insert, Finset.mem_erase] at hC
      rcases hC with rfl | rfl | ⟨hne, hC⟩
      · exact le_rfl
      · exact le_rfl
      · exact absurd (p.eq_of_mem (p.mem_blocks_of_free hC) (p.mem_blocks_of_free hAf) hiC
          (mem_containing i (k + 1))) hne
    · intro C hC
      rw [cut_free] at hC
      simp only [Finset.mem_insert, Finset.mem_erase] at hC
      rcases hC with rfl | rfl | ⟨-, hC⟩
      · exact Or.inr rfl
      · exact Or.inr rfl
      · exact Or.inl hC
  · rw [if_neg hord]
    refine ⟨p, ⟨h, hc, rfl, rfl, id⟩, ?_, fun C hC => Or.inl hC⟩
    intro C hC hiC
    by_contra hlt
    have hCo : C.order = k + 1 := by
      have := hk C hC hiC
      omega
    have hCA : C = A := eq_of_mem_of_order_eq hCo hiC (mem_containing i (k + 1))
    apply hord
    rw [← hCA, (h.freeEntry C hC).2.1, hCo]

theorem reserveSplit_spec {s e : ℕ} (n : ℕ) (h : Rep st p) (hc : Clean st p)
    (hs : s ∈ p.freePages) (he : e ∈ p.freePages) (hsn : FineAt p s n) (hen : FineAt p e n) :
    ∃ p', SplitKeeps {s, e} (reserveSplit s e n st) p p' ∧ FineAt p' s 0 ∧ FineAt p' e 0 := by
  induction n generalizing st p with
  | zero => exact ⟨p, ⟨h, hc, rfl, rfl, id⟩, hsn, hen⟩
  | succ n ih =>
      have hsX : s ∈ ({s, e} : Finset ℕ) := Finset.mem_insert_self _ _
      have heX : e ∈ ({s, e} : Finset ℕ) := Finset.mem_insert_of_mem (Finset.mem_singleton_self _)
      obtain ⟨p₁, h₁, hs₁, hnew₁⟩ := splitAt_spec h hc hs hsn hsX
      have hef₁ : e ∈ p₁.freePages := h₁.freePages ▸ he
      have hen₁ : FineAt p₁ e (n + 1) := hen.congr fun C hC => (hnew₁ C hC).imp id (by omega)
      obtain ⟨p₂, h₂, he₂, hnew₂⟩ := splitAt_spec h₁.rep h₁.clean hef₁ hen₁ heX
      have hs₂ : FineAt p₂ s n := hs₁.congr fun C hC => (hnew₂ C hC).imp id (by omega)
      have h₁₂ := h₁.trans h₂
      rw [reserveSplit_succ]
      obtain ⟨p', h', hfin⟩ := ih h₁₂.rep h₁₂.clean (h₁₂.freePages ▸ hs) (h₁₂.freePages ▸ he)
        hs₂ he₂
      exact ⟨p', h₁₂.trans h', hfin⟩

def removeAt (st : State) (i : ℕ) : State :=
  if (st.pageList i).entryInList ≠ none then
    (rmFromFreeList st i (st.pageList i).order).modify i fun e => { e with entryInList := none }
  else st

theorem reserveRemove_succ (e n i : ℕ) : reserveRemove e (n + 1) i st = if e < i then st else
    reserveRemove e n (i + 1 <<< ((removeAt st i).pageList i).order.toNat) (removeAt st i) := rfl

structure Took (p p' : BlockPool) (B : DyadicBlock) : Prop where
  blocks : p'.blocks = p.blocks
  used : p'.used = insert B p.used
  free : p'.free = p.free.erase B

theorem Took.usedPages (h : Took p p' B) : p'.usedPages = p.usedPages ∪ B.pages := by
  rw [BlockPool.usedPages, BlockPool.usedPages, h.used, Finset.biUnion_insert, Finset.union_comm]

theorem Took.owned (h : Took p p' B) : p'.owned = p.owned := by
  ext i
  rw [BlockPool.mem_owned, BlockPool.mem_owned, h.blocks]

theorem removeAt_order (st : State) (i j : ℕ) :
    ((removeAt st i).pageList j).order = (st.pageList j).order := by
  rw [removeAt]
  split_ifs
  · by_cases hrange : (st.pageList i).order < 0 ∨ (maxOrder : ℤ) ≤ (st.pageList i).order
    · rw [rmFromFreeList, if_pos hrange, modify_pageList]
      split_ifs <;> rfl
    · obtain ⟨k, hk⟩ := Int.eq_ofNat_of_zero_le (not_lt.1 fun h => hrange (Or.inl h))
      rw [hk] at hrange ⊢
      exact (split_removed _ (by omega)).order_eq j
  · rfl

theorem removeAt_free (h : Rep st p) (hB : B ∈ p.free) : removeAt st B.start =
    (rmFromFreeList st B.start B.order).modify B.start fun e => { e with entryInList := none } := by
  obtain ⟨-, horder, hentry⟩ := h.freeEntry B hB
  rw [removeAt, if_pos (by rw [hentry]; exact Option.some_ne_none _), horder]

theorem removeAt_used (h : Rep st p) (hB : B ∈ p.used) : removeAt st B.start = st := by
  rw [removeAt, if_neg (not_not.2 (h.usedEntry B hB (by simp)).2)]

theorem took_take (hB : B ∈ p.free) : Took p (p.take B hB) B := ⟨take_blocks hB, rfl, rfl⟩

theorem took_used (hB : B ∈ p.used) : Took p p B :=
  ⟨rfl, (Finset.insert_eq_of_mem hB).symm,
    (Finset.erase_eq_of_notMem (p.not_free_of_used hB)).symm⟩

/-- A round at the first page of a block makes the block a used one. -/
theorem removeAt_spec (h : Rep st p) (hc : Clean st p) (hB : B ∈ p.blocks) :
    ∃ p', (Rep (removeAt st B.start) p' ∧ Clean (removeAt st B.start) p') ∧ Took p p' B := by
  have horder := removeAt_order st B.start
  rcases Finset.mem_union.1 hB with hB | hB
  · have hrm := split_removed st (b := B.start) (h.bound B (p.mem_blocks_of_free hB)).1
    refine ⟨p.take B hB, ⟨?_, hc.congr (take_blocks hB) horder⟩, took_take hB⟩
    rw [removeAt_free h hB]
    refine (h.remove hB hrm).close (hrm.order.trans (h.freeEntry B hB).2.1) ?_ (p.mem_used_take hB)
    rw [modify_pageList, if_pos rfl]
  · rw [removeAt_used h hB]
    exact ⟨p, ⟨h, hc⟩, took_used hB⟩

/-- After a block the next owned page starts a block again. -/
theorem next_start (hB : B ∈ p.blocks) (hnext : B.start + 2 ^ B.order ∈ p.owned) :
    ∃ C ∈ p.blocks, C ≠ B ∧ C.start = B.start + 2 ^ B.order := by
  obtain ⟨C, hC, hi⟩ := p.mem_owned.1 hnext
  have hpos : 0 < 2 ^ B.order := by positivity
  have hne : C ≠ B := by
    rintro rfl
    rw [mem_pages] at hi
    omega
  refine ⟨C, hC, hne, ?_⟩
  by_contra hs
  have hlast : B.start + 2 ^ B.order - 1 ∈ B.pages := by
    rw [mem_pages]
    omega
  have hlast' : B.start + 2 ^ B.order - 1 ∈ C.pages := by
    rw [mem_pages] at hi ⊢
    omega
  exact hne (p.eq_of_mem hC hB hlast' hlast)

structure Reserved (st' : State) (p p' : BlockPool) (i e : ℕ) : Prop where
  rep : Rep st' p'
  clean : Clean st' p'
  owned : p'.owned = p.owned
  used : p.used ⊆ p'.used
  pages : p'.usedPages = p.usedPages ∪ Finset.Icc i e

theorem reserveRemove_done {n i e : ℕ} (hi : e < i) : reserveRemove e n i st = st := by
  cases n with
  | zero => rfl
  | succ n => rw [reserveRemove_succ, if_pos hi]

/-- The pool after the removal loop has gone from page `i` to page `e`. -/
structure Swept (p p' : BlockPool) (i e : ℕ) : Prop where
  owned : p'.owned = p.owned
  used : p.used ⊆ p'.used
  free : p'.free ⊆ p.free
  pages : p'.usedPages = p.usedPages ∪ Finset.Icc i e

theorem Swept.refl {i e : ℕ} (hi : e < i) : Swept p p i e :=
  ⟨rfl, Finset.Subset.refl _, Finset.Subset.refl _, by
    rw [Finset.Icc_eq_empty (by omega), Finset.union_empty]⟩

theorem Swept.cons {p₁ : BlockPool} {e : ℕ} (ht : Took p p₁ B)
    (h : Swept p₁ p' (B.start + 2 ^ B.order) e) (hend : B.start + 2 ^ B.order ≤ e + 1) :
    Swept p p' B.start e := by
  have hpos : 0 < 2 ^ B.order := by positivity
  have hsplit : Finset.Icc B.start e = B.pages ∪ Finset.Icc (B.start + 2 ^ B.order) e := by
    ext j
    simp only [Finset.mem_union, Finset.mem_Icc, mem_pages]
    omega
  refine ⟨h.owned.trans ht.owned, ?_, h.free.trans (ht.free ▸ Finset.erase_subset B p.free), ?_⟩
  · exact (ht.used ▸ Finset.subset_insert B p.used).trans h.used
  · rw [h.pages, ht.usedPages, hsplit, Finset.union_assoc]

/-- What a round of the removal loop keeps, the loop keeps; the last page of the range must be a
block of its own. -/
theorem reserveRemove_run {I : State → BlockPool → Prop} {e : ℕ} (hI : ∀ st p, I st p → Rep st p)
    (hstep : ∀ st p B, I st p → B ∈ p.blocks → ∃ p', I (removeAt st B.start) p' ∧ Took p p' B)
    (n : ℕ) (h : I st p) (hB : B ∈ p.blocks) (hBe : B.start ≤ e)
    (hown : ∀ j, B.start ≤ j → j ≤ e → j ∈ p.owned) (hfine : ∀ C ∈ p.blocks, e ∈ C.pages → C.order = 0)
    (hn : e + 1 - B.start ≤ n) :
    ∃ p', I (reserveRemove e n B.start st) p' ∧ Swept p p' B.start e := by
  induction n generalizing st p B with
  | zero => omega
  | succ n ih =>
      have hpos : 0 < 2 ^ B.order := by positivity
      obtain ⟨p₁, h₁, ht⟩ := hstep st p B h hB
      have horder := (hI st p h).block_order hB
      have hcall : reserveRemove e (n + 1) B.start st =
          reserveRemove e n (B.start + 2 ^ B.order) (removeAt st B.start) := by
        rw [reserveRemove_succ, if_neg (by omega), removeAt_order, horder,
          Int.toNat_natCast, Nat.one_shiftLeft]
      -- the block ends at or before the last page of the range
      have hend : B.start + 2 ^ B.order ≤ e + 1 := by
        by_contra hlt
        have heB : e ∈ B.pages := mem_pages.2 ⟨hBe, by omega⟩
        have ho := hfine B hB heB
        rw [ho, pow_zero] at hlt
        omega
      rw [hcall]
      by_cases hlast : e < B.start + 2 ^ B.order
      · rw [reserveRemove_done hlast]
        exact ⟨p₁, h₁, (Swept.refl hlast).cons ht hend⟩
      · obtain ⟨C, hC, hCB, hCs⟩ := next_start hB (hown _ (by omega) (by omega))
        obtain ⟨p', h', hs⟩ := ih h₁ (B := C) (ht.blocks ▸ hC) (by omega)
          (fun j hj hje => ht.owned ▸ hown j (by omega) hje)
          (fun D hD he => hfine D (ht.blocks ▸ hD) he) (by omega)
        rw [hCs] at h' hs
        exact ⟨p', h', hs.cons ht hend⟩

def rangePages (start stop : ℕ) : Finset ℕ := Finset.Icc (start / pageSize) ((stop - 1) / pageSize)

/-- `reserve` on a nonempty range of free pages. -/
theorem reserve_spec {start stop : ℕ} (h : Rep st p) (hc : Clean st p) (hlt : start < stop)
    (hfree : rangePages start stop ⊆ p.freePages) :
    ∃ p', Reserved (reserve st start stop) p p' (start / pageSize) ((stop - 1) / pageSize) ∧
      (p.Coalesced (maxOrder - 1) → p'.Coalesced (maxOrder - 1)) := by
  have hle : start / pageSize ≤ (stop - 1) / pageSize := Nat.div_le_div_right (by omega)
  have hs : start / pageSize ∈ p.freePages := hfree (Finset.left_mem_Icc.2 hle)
  have he : (stop - 1) / pageSize ∈ p.freePages := hfree (Finset.right_mem_Icc.2 hle)
  have hfineTop : ∀ i, FineAt p i (maxOrder - 1) := by
    intro i C hC _
    have := (h.bound C (p.mem_blocks_of_free hC)).1
    omega
  obtain ⟨p₁, h₁, hs₁, he₁⟩ := reserveSplit_spec (maxOrder - 1) h hc hs he (hfineTop _) (hfineTop _)
  -- the page at the start of the range is a block of its own
  obtain ⟨B, hB, hBs⟩ := p₁.mem_freePages.1 (h₁.freePages ▸ hs)
  have hBo := Nat.le_zero.1 (hs₁ B hB hBs)
  have hstart : B.start = start / pageSize := by
    rw [mem_pages, hBo, pow_zero] at hBs
    omega
  have hfine : ∀ C ∈ p₁.blocks, (stop - 1) / pageSize ∈ C.pages → C.order = 0 := by
    intro C hC hi
    rcases Finset.mem_union.1 hC with hC | hC
    · exact Nat.le_zero.1 (he₁ C hC hi)
    · exact absurd (p₁.mem_usedPages.2 ⟨C, hC, hi⟩)
        (Finset.disjoint_left.1 p₁.disjoint_freePages_usedPages (h₁.freePages ▸ he))
  obtain ⟨p', ⟨hrep, hclean⟩, hr⟩ := reserveRemove_run (e := (stop - 1) / pageSize)
    (I := fun st p => Rep st p ∧ Clean st p) (fun _ _ h => h.1)
    (fun _ _ _ h hB => removeAt_spec h.1 h.2 hB) ((stop - 1) / pageSize + 1 - B.start)
    ⟨h₁.rep, h₁.clean⟩ (p₁.mem_blocks_of_free hB) (hstart ▸ hle)
    (fun j hj hje => Finset.mem_union_left _
      (h₁.freePages ▸ hfree (Finset.mem_Icc.2 ⟨hstart ▸ hj, hje⟩))) hfine le_rfl
  rw [hstart] at hrep hclean hr
  rw [reserve, memoryStart, Nat.sub_zero, Nat.sub_zero]
  refine ⟨p', ⟨hrep, hclean, hr.owned.trans h₁.owned, h₁.used ▸ hr.used, ?_⟩, fun hco => ?_⟩
  · rw [hr.pages, BlockPool.usedPages, h₁.used, BlockPool.usedPages]
  · -- the two ends are reserved now, so the buddies around them are no longer both free
    refine ((h₁.coalesced hco.but).mono hr.free).coalesced ?_
    rw [Finset.disjoint_left]
    intro x hx hxf
    refine Finset.disjoint_left.1 p'.disjoint_freePages_usedPages hxf ?_
    rw [hr.pages]
    apply Finset.mem_union_right
    rw [Finset.mem_insert, Finset.mem_singleton] at hx
    rw [Finset.mem_Icc]
    omega

end OscKernel.Mm
