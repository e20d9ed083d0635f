import OscKernel.PageCoalescing

/-!
# What calls of `reserve` do to one another

Before the first `_alloc` every call of `reserve` with its first and last page in memory keeps a
pool of blocks, whether its range is free, reserved or empty. The split loop looks at orders only:
it breaks up the free and the reserved blocks around the two ends of the range alike, and what it
breaks up goes on the free lists. The removal loop then takes the pages of the range again.
-/

namespace OscKernel.Mm

open DyadicBlock Linked Relation

variable {st st' : State} {p p' : BlockPool} {B C : DyadicBlock} {F : ℕ → ℕ → Prop}

def Detached (st : State) (F : ℕ → ℕ → Prop) : Prop :=
  ∀ i, (∀ k, ¬ F k i) → st.next i = none ∧ st.prev i = none

theorem Detached.modify (h : Detached st F) (b : ℕ) {f : PageInfo → PageInfo} (hf : KeepsLinks f) :
    Detached (st.modify b f) F := by
  intro i hi
  simp only [State.next, State.prev, modify_pageList]
  split_ifs
  · rw [(hf _).1, (hf _).2]
    exact h i hi
  · exact h i hi

theorem Detached.add (h : Detached st F) (hl : ListsHold st F) {b k : ℕ} (hk : k < maxOrder) :
    Detached (addToFreeList st b k) fun j i => F j i ∨ (j = k ∧ i = b) := by
  intro i hi
  have hib : i ≠ b := fun he => hi k (Or.inr ⟨rfl, he⟩)
  have hiF : ∀ j, ¬ F j i := fun j hj => hi j (Or.inl hj)
  have hhead : st.freeList k ≠ some i := fun he => hiF k (hl.of_head hk he)
  rw [addToFreeList_next st b hk, addToFreeList_prev st b hk, if_neg hib, if_neg hib, if_neg hhead]
  exact h i hiF

theorem rmFromFreeList_links (st : State) (b : ℕ) {k : ℕ} (hk : k < maxOrder) :
    (rmFromFreeList st b k).next b = none ∧ (rmFromFreeList st b k).prev b = none := by
  by_cases hh : st.freeList k = some b
  · rw [rmFromFreeList_head st b hk hh]
    simp only [State.next, State.prev, modify_pageList, if_pos, and_self]
  · rw [rmFromFreeList_inner st b hk hh]
    simp only [State.next, State.prev, modify_pageList, if_pos, and_self]

theorem Detached.rm (h : Detached st F) (hl : ListsHold st F) {b k : ℕ} (hk : k < maxOrder)
    (hb : F k b) : Detached (rmFromFreeList st b k) fun j i => F j i ∧ i ≠ b := by
  intro i hi
  by_cases hib : i = b
  · rw [hib]
    exact rmFromFreeList_links st b hk
  · have hiF : ∀ j, ¬ F j i := fun j hj => hi j ⟨hj, hib⟩
    obtain ⟨l, hc, hmem⟩ := hl.linked k hk
    have hbl : b ∈ l := (hmem b).2 hb
    have hprev : st.prev b ≠ some i := by
      intro hp
      rcases hc.prev_cases hbl with ⟨-, hnone⟩ | ⟨e, he, hpe, -⟩
      · exact absurd (hnone.symm.trans hp) (by simp)
      · exact hiF k (Option.some.inj (hpe.symm.trans hp) ▸ (hmem e).1 he)
    have hnext : st.next b ≠ some i := fun hn => hiF k ((hmem i).1 (hc.chain.next_mem hbl hn))
    rw [rmFromFreeList_next st b hk hib, rmFromFreeList_prev st b hk hib, if_neg (fun h => hprev h.2),
      if_neg hnext]
    exact h i hiF

/-- Taking a page off a list that it is not on changes nothing. -/
theorem rmFromFreeList_detached (hl : ListsHold st F) (h : Detached st F) {b k : ℕ}
    (hk : k < maxOrder) (hb : ∀ j, ¬ F j b) : rmFromFreeList st b k = st := by
  have hh : st.freeList k ≠ some b := fun he => hb k (hl.of_head hk he)
  obtain ⟨hnext, hprev⟩ := h b hb
  have hpage : { st.pageList b with next := st.next b, prev := st.prev b } = st.pageList b := rfl
  rw [hnext, hprev] at hpage
  rw [rmFromFreeList_inner st b hk hh, hnext, hprev]
  change st.modify b _ = st
  rw [State.modify, hpage, Function.update_eq_self]

theorem splitInsert_detached (hl : ListsHold st F) (h : Detached st F) {b k : ℕ}
    (hk : k < maxOrder) : Detached (splitInsert st b k) fun j i => F j i ∨ (j = k ∧ i = b) := by
  simp only [splitInsert, modify_modify]
  refine Detached.modify (Detached.add ?_ ?_ hk) b fun _ => ⟨rfl, rfl⟩
  · apply h.modify b
    exact fun _ => ⟨rfl, rfl⟩
  · apply hl.modify
    exact fun _ => ⟨rfl, rfl⟩

structure AtBoot (st : State) (p : BlockPool) : Prop where
  rep : Rep st p
  clean : Clean st p
  detached : Detached st (freeAt p)
  nonneg : ∀ i, 0 ≤ (st.pageList i).order
  whole : p.owned = Finset.range pageNum

theorem fresh_take (hB : B ∈ p.free) (j : ℕ) : ¬ freeAt (p.take B hB) j B.start := by
  rintro ⟨C, hC, -, hs⟩
  obtain ⟨hne, hCf⟩ := Finset.mem_erase.1 hC
  exact hne (p.eq_of_start_eq (p.mem_blocks_of_free hCf) (p.mem_blocks_of_free hB) hs)

theorem cut_detached (hB : B ∈ p.free) (ho : 0 < B.order) (hk : B.order < maxOrder)
    (hl : ListsHold st (freeAt (p.take B hB))) (hd : Detached st (freeAt (p.take B hB))) :
    Detached (splitInsert (splitInsert st B.lower.start B.lower.order) B.upper.start B.upper.order)
      (freeAt (cut p B hB ho)) := by
  have hk' : B.order - 1 < maxOrder := by omega
  have hins : Inserted st _ B.lower.start B.lower.order := splitInsert_inserted _ hk'
  have hlow := hins.lists _ hl (fresh_take hB)
  have hboth := splitInsert_detached hlow (splitInsert_detached hl hd hk') (b := B.upper.start) hk'
  intro i hi
  refine hboth i fun j hj => hi j ?_
  simp only [freeAt, cut_free, Finset.mem_insert]
  rcases hj with (⟨C, hC, rfl, rfl⟩ | ⟨rfl, rfl⟩) | ⟨rfl, rfl⟩
  · exact ⟨C, Or.inr (Or.inr hC), rfl, rfl⟩
  · exact ⟨B.lower, Or.inr (Or.inl rfl), rfl, rfl⟩
  · exact ⟨B.upper, Or.inl rfl, rfl, rfl⟩

/-- A used block with no links is broken up as a free one is. -/
theorem split_used_eq (h : AtBoot st p) (hB : B ∈ p.used) (ho : 0 < B.order) :
    split st B.start B.order =
      splitInsert (splitInsert st B.lower.start B.lower.order) B.upper.start B.upper.order := by
  have hmax := (h.rep.bound B (p.mem_blocks_of_used hB)).1
  have hoff : ∀ j, ¬ freeAt p j B.start := by
    rintro j ⟨C, hC, -, hs⟩
    exact p.not_free_of_used hB
      (p.eq_of_start_eq (p.mem_blocks_of_free hC) (p.mem_blocks_of_used hB) hs ▸ hC)
  have hpage : { st.pageList B.start with entryInList := none } = st.pageList B.start := by
    rw [← (h.rep.usedEntry B hB (Option.some_ne_none _).symm).2]
  rw [split_eq ho hmax, rmFromFreeList_detached h.rep.lists h.detached hmax hoff, State.modify, hpage,
    Function.update_eq_self]

theorem release_take (hB : B ∈ p.used) (hB' : B ∈ (p.release B hB).free) :
    (p.release B hB).take B hB' = p := by
  have hf : B ∉ p.free := p.not_free_of_used hB
  cases p
  simp only [BlockPool.release, BlockPool.take, Finset.erase_insert hf, Finset.insert_erase hB]

theorem RepExcept.loosen (h : Rep st p) (c : Option ℕ) : RepExcept c st p :=
  ⟨h.lists, h.bound, h.freeEntry, fun C hC _ => h.usedEntry C hC (Option.some_ne_none _).symm,
    fun i _ => h.heads i (Option.some_ne_none _).symm⟩

/-- Splitting a block puts both halves on the free lists, even when the block was a used one. -/
theorem AtBoot.split (h : AtBoot st p) (hB : B ∈ p.blocks) (ho : 0 < B.order) :
    ∃ p', AtBoot (split st B.start B.order) p' ∧ p'.used = p.used.erase B ∧
      p'.free = insert B.upper (insert B.lower (p.free.erase B)) := by
  have hmax := (h.rep.bound B hB).1
  have hnonneg : ∀ i, 0 ≤ ((Mm.split st B.start B.order).pageList i).order := by
    intro i
    obtain ⟨k, hk⟩ := Nat.exists_eq_add_of_lt ho
    rw [Nat.zero_add] at hk
    rw [hk, split_order (hk ▸ hmax)]
    split_ifs
    · exact Int.natCast_nonneg k
    · exact h.nonneg i
  rcases Finset.mem_union.1 hB with hB | hB
  · have hrm := split_removed st (b := B.start) hmax
    have hexc := h.rep.remove hB hrm
    have hdet : Detached ((rmFromFreeList st B.start B.order).modify B.start fun e =>
        { e with entryInList := none }) (freeAt (p.take B hB)) := by
      have hd := (h.detached.rm h.rep.lists hmax ⟨B, hB, rfl, rfl⟩).modify B.start
        (f := fun e : PageInfo => { e with entryInList := none }) fun _ => ⟨rfl, rfl⟩
      exact fun i hi => hd i fun j hj => hi j ((freeAt_erase hB rfl j i).1 hj)
    obtain ⟨hrep, hclean⟩ := split_spec h.rep h.clean hB ho
    refine ⟨cut p B hB ho, ⟨hrep, hclean, ?_, hnonneg, (cut_owned hB ho).trans h.whole⟩, ?_,
      cut_free hB ho⟩
    · rw [split_eq ho hmax]
      exact cut_detached hB ho hmax hexc.lists hdet
    · rw [cut_used, Finset.erase_eq_of_notMem fun hu => p.not_free_of_used hu hB]
  · have hB' : B ∈ (p.release B hB).free := Finset.mem_insert_self _ _
    have heq := release_take hB hB'
    have hblocks : (p.release B hB).blocks = p.blocks := by
      rw [← take_blocks hB', heq]
    rw [split_used_eq h hB ho] at hnonneg ⊢
    obtain ⟨hrep, hclean⟩ := cut_spec hB' ho (heq.symm ▸ h.rep.loosen _)
      (h.clean.congr hblocks fun _ => rfl)
    refine ⟨cut (p.release B hB) B hB' ho, ⟨hrep, hclean, ?_, hnonneg, ?_⟩, ?_, ?_⟩
    · exact cut_detached hB' ho hmax (heq.symm ▸ h.rep.lists) (heq.symm ▸ h.detached)
    · rw [cut_owned, BlockPool.owned_release, h.whole]
    · exact cut_used hB' ho
    · rw [cut_free, BlockPool.release, Finset.erase_insert_eq_erase]

def Fine (p : BlockPool) (i n : ℕ) : Prop := ∀ C ∈ p.blocks, i ∈ C.pages → C.order ≤ n

theorem Fine.congr {i n : ℕ} (h : Fine p i n) (hnew : ∀ C ∈ p'.blocks, C ∈ p.blocks ∨ C.order ≤ n) :
    Fine p' i n := by
  intro C hC hi
  rcases hnew C hC with hC | hC
  · exact h C hC hi
  · exact hC

structure Broke (X : Finset ℕ) (p p' : BlockPool) : Prop where
  used : p'.used ⊆ p.used
  lost : ∀ C ∈ p.used, C ∉ p'.used → 0 < C.order ∧ ∃ x ∈ X, x ∈ C.pages

variable {X : Finset ℕ}

theorem Broke.refl (X : Finset ℕ) (p : BlockPool) : Broke X p p :=
  ⟨Finset.Subset.refl _, fun _ hC hn => absurd hC hn⟩

theorem Broke.trans {p₁ : BlockPool} (h : Broke X p p₁) (h' : Broke X p₁ p') : Broke X p p' := by
  refine ⟨h'.used.trans h.used, fun C hC hn => ?_⟩
  by_cases hC₁ : C ∈ p₁.used
  · exact h'.lost C hC₁ hn
  · exact h.lost C hC hC₁

theorem AtBoot.splitAt {i k : ℕ} (h : AtBoot st p) (hk : Fine p i (k + 1)) (hX : i ∈ X) :
    ∃ p', AtBoot (splitAt st i (k + 1)) p' ∧ Fine p' i k ∧ Broke X p p' ∧
      ∀ C ∈ p'.blocks, C ∈ p.blocks ∨ C.order = k := by
  set A := containing i (k + 1)
  have hiA : i ∈ A.pages := mem_containing i (k + 1)
  rw [Mm.splitAt, blockIdx_eq]
  by_cases hord : (st.pageList A.start).order = (k + 1 : ℕ)
  · obtain ⟨B, hB, hBs⟩ := h.clean A.start (by rw [hord]; omega)
    have hBo := h.rep.block_order hB
    rw [hBs, hord] at hBo
    have hBA : B = A := eq_of_mem_of_order_eq (by exact_mod_cast hBo.symm) B.start_mem_pages
      (hBs ▸ A.start_mem_pages)
    rw [hBA] at hB
    obtain ⟨p', h', hused, hfree⟩ := h.split hB (Nat.succ_pos k)
    have hnew : ∀ C ∈ p'.blocks, (C ∈ p.blocks ∧ C ≠ A) ∨ C.order = k := by
      intro C hC
      rw [BlockPool.blocks, hused, hfree] at hC
      simp only [Finset.mem_union, Finset.mem_insert, Finset.mem_erase] at hC
      rcases hC with (rfl | rfl | ⟨hne, hC⟩) | ⟨hne, hC⟩
      · exact Or.inr rfl
      · exact Or.inr rfl
      · exact Or.inl ⟨p.mem_blocks_of_free hC, hne⟩
      · exact Or.inl ⟨p.mem_blocks_of_used hC, hne⟩
    rw [if_pos hord]
    refine ⟨p', h', ?_, ⟨hused ▸ Finset.erase_subset _ _, ?_⟩, fun C hC => (hnew C hC).imp And.left id⟩
    · intro C hC hiC
      rcases hnew C hC with ⟨hCp, hne⟩ | ho
      · exact absurd (p.eq_of_mem hCp hB hiC hiA) hne
      · exact ho.le
    · intro C hC hn
      have hCA : C = A := by
        by_contra hne
        exact hn (hused ▸ Finset.mem_erase.2 ⟨hne, hC⟩)
      exact hCA ▸ ⟨Nat.succ_pos k, i, hX, hiA⟩
  · rw [if_neg hord]
    refine ⟨p, h, ?_, Broke.refl X p, fun C hC => Or.inl hC⟩
    intro C hC hiC
    by_contra hlt
    have hCo : C.order = k + 1 := by
      have := hk C hC hiC
      omega
    have hCA : C = A := eq_of_mem_of_order_eq hCo hiC hiA
    apply hord
    rw [← hCA, h.rep.block_order hC, hCo]

theorem AtBoot.reserveSplit {s e : ℕ} (n : ℕ) (h : AtBoot st p) (hs : Fine p s n) (he : Fine p e n) :
    ∃ p', AtBoot (reserveSplit s e n st) p' ∧ Fine p' s 0 ∧ Fine p' e 0 ∧ Broke {s, e} p p' := by
  induction n generalizing st p with
  | zero => exact ⟨p, h, hs, he, Broke.refl _ p⟩
  | succ n ih =>
      have hsX : s ∈ ({s, e} : Finset ℕ) := Finset.mem_insert_self _ _
      have heX : e ∈ ({s, e} : Finset ℕ) := Finset.mem_insert_of_mem (Finset.mem_singleton_self _)
      obtain ⟨p₁, h₁, hs₁, hb₁, hnew₁⟩ := h.splitAt hs hsX
      have he₁ : Fine p₁ e (n + 1) := he.congr fun C hC => (hnew₁ C hC).imp id (by omega)
      obtain ⟨p₂, h₂, he₂, hb₂, hnew₂⟩ := h₁.splitAt he₁ heX
      have hs₂ : Fine p₂ s n := hs₁.congr fun C hC => (hnew₂ C hC).imp id (by omega)
      obtain ⟨p', h', hs', he', hb⟩ := ih h₂ hs₂ he₂
      rw [reserveSplit_succ]
      exact ⟨p', h', hs', he', (hb₁.trans hb₂).trans hb⟩

theorem AtBoot.removeAt (h : AtBoot st p) (hB : B ∈ p.blocks) :
    ∃ p', AtBoot (removeAt st B.start) p' ∧ Took p p' B := by
  have horder := removeAt_order st B.start
  have hmax := (h.rep.bound B hB).1
  obtain ⟨p', ⟨hrep, hclean⟩, ht⟩ := removeAt_spec h.rep h.clean hB
  refine ⟨p', ⟨hrep, hclean, ?_, fun i => (horder i).symm ▸ h.nonneg i, ht.owned.trans h.whole⟩, ht⟩
  rcases Finset.mem_union.1 hB with hB | hB
  · have hd := (h.detached.rm h.rep.lists hmax ⟨B, hB, rfl, rfl⟩).modify B.start
      (f := fun e : PageInfo => { e with entryInList := none }) fun _ => ⟨rfl, rfl⟩
    rw [removeAt_free h.rep hB]
    exact fun i hi => hd i fun j hj => hi j ((freeAt_erase hB ht.free j i).1 hj)
  · rw [removeAt_used h.rep hB]
    intro i hi
    refine h.detached i fun j hj => hi j ?_
    rw [freeAt, ht.free, Finset.erase_eq_of_notMem (p.not_free_of_used hB)]
    exact hj

def struck (p : BlockPool) (s e : ℕ) : Finset DyadicBlock :=
  p.used.filter fun C => 0 < C.order ∧ (s ∈ C.pages ∨ e ∈ C.pages)

theorem Broke.used_eq {s e : ℕ} (h : Broke {s, e} p p') (hs : Fine p' s 0) (he : Fine p' e 0) :
    p'.used = p.used \ struck p s e := by
  ext C
  rw [Finset.mem_sdiff, struck, Finset.mem_filter]
  constructor
  · intro hC
    have hCb := p'.mem_blocks_of_used hC
    refine ⟨h.used hC, ?_⟩
    rintro ⟨-, hpos, hi | hi⟩
    · exact absurd (hs C hCb hi) (by omega)
    · exact absurd (he C hCb hi) (by omega)
  · rintro ⟨hC, hn⟩
    by_contra hlost
    obtain ⟨hpos, x, hx, hxC⟩ := h.lost C hC hlost
    refine hn ⟨hC, hpos, ?_⟩
    rw [Finset.mem_insert, Finset.mem_singleton] at hx
    rcases hx with rfl | rfl
    · exact Or.inl hxC
    · exact Or.inr hxC

/-- The law of `reserve`: the used blocks around the two ends come free, and then the range is
taken. -/
theorem AtBoot.reserve {start stop : ℕ} (h : AtBoot st p) (hstart : start < memorySize)
    (hpos : 0 < stop) (hle : stop ≤ memorySize) :
    ∃ p', AtBoot (reserve st start stop) p' ∧ p'.usedPages =
      (p.used \ struck p (start / pageSize) ((stop - 1) / pageSize)).biUnion pages ∪
        rangePages start stop := by
  set s := start / pageSize
  set e := (stop - 1) / pageSize
  have hfine : ∀ i, Fine p i (maxOrder - 1) := by
    intro i C hC _
    have := (h.rep.bound C hC).1
    omega
  obtain ⟨p₁, h₁, hs₁, he₁, hb⟩ := h.reserveSplit (maxOrder - 1) (hfine s) (hfine e)
  have hused := hb.used_eq hs₁ he₁
  have hown : ∀ j, j * pageSize < memorySize → j ∈ p₁.owned := by
    intro j hj
    rw [h₁.whole, Finset.mem_range]
    rw [← pageNum_mul_pageSize] at hj
    exact Nat.lt_of_mul_lt_mul_right hj
  rw [Mm.reserve, memoryStart, Nat.sub_zero, Nat.sub_zero]
  change ∃ p', AtBoot (reserveRemove e (e + 1 - s) s (Mm.reserveSplit s e (maxOrder - 1) st)) p' ∧ _
  rw [← hused]
  by_cases hse : s ≤ e
  · -- page `s` is a block of its own now
    obtain ⟨B, hB, hsB⟩ := p₁.mem_owned.1 (hown s ((Nat.div_mul_le_self _ _).trans_lt hstart))
    have hBo := Nat.le_zero.1 (hs₁ B hB hsB)
    have hBs : B.start = s := by
      rw [mem_pages, hBo, pow_zero] at hsB
      omega
    have hin : ∀ j, B.start ≤ j → j ≤ e → j ∈ p₁.owned := by
      intro j _ hj
      have hmul := Nat.mul_le_mul_right pageSize hj
      have hlast : e * pageSize ≤ stop - 1 := Nat.div_mul_le_self _ _
      exact hown j (by omega)
    obtain ⟨p', h', hr⟩ := reserveRemove_run (I := AtBoot) (fun _ _ h => h.rep)
      (fun _ _ _ h hB => h.removeAt hB) (e + 1 - B.start) h₁ hB (hBs ▸ hse) hin
      (fun C hC hi => Nat.le_zero.1 (he₁ C hC hi)) le_rfl
    rw [hBs] at h' hr
    exact ⟨p', h', hr.pages⟩
  · refine ⟨p₁, ?_, ?_⟩
    · rw [reserveRemove_done (not_le.1 hse)]
      exact h₁
    · rw [rangePages, Finset.Icc_eq_empty hse, Finset.union_empty]
      rfl

theorem mmInitBlock_detached (hl : ListsHold st F) (h : Detached st F) (b : ℕ) :
    Detached (mmInitBlock st b) fun j i => F j i ∨ (j = maxOrder - 1 ∧ i = b) := by
  have hk : maxOrder - 1 < maxOrder := by decide
  unfold mmInitBlock
  refine Detached.modify (Detached.add ?_ ?_ hk) b fun _ => ⟨rfl, rfl⟩
  · apply h.modify b
    exact fun _ => ⟨rfl, rfl⟩
  · apply hl.modify
    exact fun _ => ⟨rfl, rfl⟩

theorem blankLoop_detached (n : ℕ) (hn : n ≤ pageNum / maxBlockSize) :
    Detached (mmInitLoop blank n) (freeAt (initPool n)) ∧
      ∀ i, 0 ≤ ((mmInitLoop blank n).pageList i).order := by
  induction n with
  | zero => exact ⟨fun _ _ => ⟨rfl, rfl⟩, fun _ => le_rfl⟩
  | succ n ih =>
      obtain ⟨hd, hnonneg⟩ := ih (by omega)
      have hl := (blankLoop_spec (n := n) (by omega)).1.lists
      have hins : Inserted (mmInitLoop blank n) (mmInitLoop blank (n + 1)) (topBlock n).start
          (topBlock n).order := mmInitBlock_inserted (n * maxBlockSize)
      have hadd : Detached (mmInitLoop blank (n + 1)) fun j i =>
          freeAt (initPool n) j i ∨ (j = (topBlock n).order ∧ i = (topBlock n).start) :=
        mmInitBlock_detached hl hd (n * maxBlockSize)
      refine ⟨fun i hi => hadd i fun j hj => hi j ((freeAt_insert (initPool_succ n) j i).1 hj), ?_⟩
      intro i
      by_cases hi : i = (topBlock n).start
      · rw [hi, hins.order]
        exact Int.natCast_nonneg _
      · rw [(hins.elsewhere i hi).order]
        exact hnonneg i

theorem atBoot_mmInit : AtBoot mmInit (initPool (pageNum / maxBlockSize)) := by
  obtain ⟨hrep, hclean⟩ := mmInit_spec
  obtain ⟨hd, hnonneg⟩ := blankLoop_detached (pageNum / maxBlockSize) le_rfl
  refine ⟨hrep, hclean, fun i hi => ?_, fun i => ?_, initPool_owned⟩
  · obtain ⟨c, hc⟩ := mmInit_sameBuddy.page i
    rw [State.next, State.prev, hc]
    exact hd i hi
  · obtain ⟨c, hc⟩ := mmInit_sameBuddy.page i
    rw [hc]
    exact hnonneg i

/-- The states after `mm_init` and any calls of `reserve` whose first and last pages are in memory:
their ranges may be free, reserved before or empty. -/
inductive Arranged : State → Prop
  | init : Arranged mmInit
  | reserve {st : State} {start stop : ℕ} (h : Arranged st) (hstart : start < memorySize)
      (hpos : 0 < stop) (hle : stop ≤ memorySize) : Arranged (Mm.reserve st start stop)

theorem Arranged.atBoot (h : Arranged st) : ∃ p, AtBoot st p := by
  induction h with
  | init => exact ⟨_, atBoot_mmInit⟩
  | reserve _ hstart hpos hle ih =>
      obtain ⟨p, hp⟩ := ih
      obtain ⟨p', hp', -⟩ := hp.reserve hstart hpos hle
      exact ⟨p', hp'⟩

theorem AtBoot.freePage_iff (h : AtBoot st p) (i : ℕ) :
    FreePage st i ↔ i < pageNum ∧ i ∉ p.usedPages := by
  rw [Mm.freePage_iff h.rep, p.freePages_eq, h.whole, Finset.mem_sdiff, Finset.mem_range]

theorem struck_of_free {s e : ℕ} (hs : s ∈ p.freePages) (he : e ∈ p.freePages) :
    struck p s e = ∅ := by
  have hout : ∀ i ∈ p.freePages, ∀ C ∈ p.used, i ∉ C.pages := fun i hi C hC hiC =>
    Finset.disjoint_left.1 p.disjoint_freePages_usedPages hi (p.mem_usedPages.2 ⟨C, hC, hiC⟩)
  rw [struck, Finset.filter_eq_empty_iff]
  rintro C hC ⟨-, hi | hi⟩
  · exact hout s hs C hC hi
  · exact hout e he C hC hi

theorem AtBoot.reserve_free {start stop : ℕ} (h : AtBoot st p) (hlt : start < stop)
    (hle : stop ≤ memorySize) (hfree : rangePages start stop ⊆ p.freePages) :
    ∃ p', AtBoot (Mm.reserve st start stop) p' ∧
      p'.usedPages = p.usedPages ∪ rangePages start stop := by
  have hse : start / pageSize ≤ (stop - 1) / pageSize := Nat.div_le_div_right (by omega)
  have hstart : start < memorySize := by omega
  have hpos : 0 < stop := by omega
  obtain ⟨p', h', hused⟩ := h.reserve hstart hpos hle
  rw [struck_of_free (hfree (Finset.left_mem_Icc.2 hse)) (hfree (Finset.right_mem_Icc.2 hse)),
    Finset.sdiff_empty] at hused
  exact ⟨p', h', hused⟩

/-- The removal loop of `reserve`, entered at page `i`, ends, and shifts by no negative order. -/
inductive RemoveEnds (endIdx : ℕ) : ℕ → State → State → Prop
  | done {i : ℕ} {st : State} (hi : endIdx < i) : RemoveEnds endIdx i st st
  | next {i : ℕ} {st st' : State} (hi : i ≤ endIdx)
      (horder : 0 ≤ ((removeAt st i).pageList i).order)
      (h : RemoveEnds endIdx (i + 1 <<< ((removeAt st i).pageList i).order.toNat) (removeAt st i) st') :
      RemoveEnds endIdx i st st'

theorem removeEnds_of_nonneg {e i : ℕ} (n : ℕ) (h : ∀ j, 0 ≤ (st.pageList j).order)
    (hn : e + 1 - i ≤ n) : RemoveEnds e i st (reserveRemove e n i st) := by
  induction n generalizing i st with
  | zero => exact RemoveEnds.done (by omega)
  | succ n ih =>
      rw [reserveRemove_succ]
      by_cases hi : e < i
      · rw [if_pos hi]
        exact RemoveEnds.done hi
      · have hpow : 0 < 2 ^ ((removeAt st i).pageList i).order.toNat := by positivity
        have hnonneg : ∀ j, 0 ≤ ((removeAt st i).pageList j).order := by
          intro j
          rw [removeAt_order]
          exact h j
        rw [if_neg hi]
        refine RemoveEnds.next (not_lt.1 hi) (hnonneg i) (ih hnonneg ?_)
        rw [Nat.one_shiftLeft]
        omega

variable {fixed X : Finset DyadicBlock} {s : Sys}

/-- The fixed blocks of a run stay fixed. -/
theorem tracks_stable : Runs.Stable (Sys.Step fun _ _ => True)
    fun s => ∃ fixed p, X ⊆ fixed ∧ Tracks fixed s p := by
  rintro s _ ⟨fixed, p, hX, h⟩ ⟨op, hv, -, rfl⟩
  cases op with
  | alloc size =>
      cases hc : candidate s.mm size with
      | none => exact ⟨fixed, p, hX, (h.alloc_null hc).symm ▸ h⟩
      | some b =>
          by_cases hb : b = 0
          · subst hb
            obtain ⟨p', B, h', -⟩ := h.alloc_zero hc
            exact ⟨_, p', hX.trans (Finset.subset_insert B fixed), h'⟩
          · obtain ⟨p', B, h', -⟩ := h.alloc_some hc hb
            exact ⟨fixed, p', hX, h'⟩
  | free ptr size =>
      obtain ⟨p', h', -⟩ := h.free hv
      exact ⟨fixed, p', hX, h'⟩

theorem Tracks.alloc_outside (h : Tracks fixed s p) {size : ℕ} (hne : (alloc s.mm size).2 ≠ 0) :
    Disjoint (liveSpan ((alloc s.mm size).2, size)) (fixed.biUnion pages) := by
  cases hc : candidate s.mm size with
  | none =>
      rw [alloc_none h.rep hc] at hne
      exact absurd rfl hne
  | some b =>
      obtain ⟨-, -, st', p', B, heq, -, hal, rfl, ho⟩ := Mm.alloc_some h.rep hc
      rw [heq, liveSpan, Nat.mul_div_cancel _ pageSize_pos, ← ho]
      refine (p.disjoint_freePages_usedPages.mono_left hal.pages).mono_right fun i hi => ?_
      obtain ⟨C, hC, hiC⟩ := Finset.mem_biUnion.1 hi
      exact p.mem_usedPages.2 ⟨C, h.used ▸ Finset.mem_union_left _ hC, hiC⟩

def NeverAllocated (st : State) (R : Finset ℕ) : Prop :=
  ∀ s, ReflTransGen (Sys.Step fun _ _ => True) ⟨st, []⟩ s → ∀ size, (alloc s.mm size).2 ≠ 0 →
    Disjoint (liveSpan ((alloc s.mm size).2, size)) R

theorem RepExcept.neverAllocated (h : Rep st p) {R : Finset ℕ} (hR : R ⊆ p.usedPages) :
    NeverAllocated st R := by
  intro s hrun size hne
  obtain ⟨fixed, q, hX, hq⟩ := tracks_stable.run
    ⟨p.used, p, Finset.Subset.refl p.used, h.tracks⟩ hrun
  exact (hq.alloc_outside hne).mono_right
    (hR.trans (Finset.biUnion_subset_biUnion_of_subset_left pages hX))

def ReserveStep (st st' : State) : Prop :=
  ∃ start stop, start < stop ∧ stop ≤ memorySize ∧ (∀ i ∈ rangePages start stop, FreePage st i) ∧
    st' = Mm.reserve st start stop

theorem reserveStep_stable {R : Finset ℕ} :
    Runs.Stable ReserveStep fun st => ∃ p, AtBoot st p ∧ R ⊆ p.usedPages := by
  rintro st _ ⟨p, h, hR⟩ ⟨start, stop, hlt, hle, hfree, rfl⟩
  obtain ⟨p', h', hused⟩ := h.reserve_free hlt hle fun i hi => (Mm.freePage_iff h.rep i).1 (hfree i hi)
  exact ⟨p', h', hused ▸ hR.trans Finset.subset_union_left⟩

/-- On a range of free pages `reserve` ends, takes the pages of the range and no others off the
free lists, and neither later reservations of free ranges nor `_alloc` and `_free` give them back. -/
theorem reserve_exact {st : State} {start stop : ℕ} (h : Arranged st) (hlt : start < stop)
    (hle : stop ≤ memorySize) (hfree : ∀ i ∈ rangePages start stop, FreePage st i) :
    RemoveEnds ((stop - 1) / pageSize) (start / pageSize)
      (Mm.reserveSplit (start / pageSize) ((stop - 1) / pageSize) (maxOrder - 1) st)
      (reserve st start stop) ∧
    (∀ i, FreePage (reserve st start stop) i ↔ FreePage st i ∧ i ∉ rangePages start stop) ∧
    FreeBlocks (reserve st start stop) ∧
    ∀ st', ReflTransGen ReserveStep (reserve st start stop) st' →
      NeverAllocated st' (rangePages start stop) := by
  obtain ⟨p, hp⟩ := h.atBoot
  obtain ⟨p', hp', hused⟩ := hp.reserve_free hlt hle fun i hi =>
    (Mm.freePage_iff hp.rep i).1 (hfree i hi)
  refine ⟨?_, fun i => ?_, hp'.rep.freeBlocks, fun st' hrun => ?_⟩
  · have hfine : ∀ i, Fine p i (maxOrder - 1) := by
      intro i C hC _
      have := (hp.rep.bound C hC).1
      omega
    obtain ⟨p₁, h₁, -⟩ := hp.reserveSplit (maxOrder - 1) (hfine (start / pageSize))
      (hfine ((stop - 1) / pageSize))
    rw [reserve, memoryStart, Nat.sub_zero, Nat.sub_zero]
    exact removeEnds_of_nonneg _ h₁.nonneg le_rfl
  · rw [hp'.freePage_iff, hp.freePage_iff, hused, Finset.mem_union]
    tauto
  · obtain ⟨q, hq, hR⟩ := reserveStep_stable.run
      ⟨p', hp', hused.symm ▸ Finset.subset_union_right⟩ hrun
    exact hq.rep.neverAllocated hR

theorem freePage_mmInit {i : ℕ} (hi : i < pageNum) : FreePage mmInit i := by
  rw [freePage_iff mmInit_spec.1, initPool_freePages]
  exact Finset.mem_range.2 hi

theorem reserve_exact_first_page : FreeBlocks (reserve mmInit 0 pageSize) ∧
    ∀ i, FreePage (reserve mmInit 0 pageSize) i ↔ FreePage mmInit i ∧ i ∉ rangePages 0 pageSize := by
  have hle : pageSize ≤ memorySize := by decide
  obtain ⟨-, hpages, hblocks, -⟩ := reserve_exact Arranged.init pageSize_pos hle fun i hi =>
    freePage_mmInit (Finset.mem_range.1 (rangePages_subset hle pageSize_pos hi))
  exact ⟨hblocks, hpages⟩

/-- A call of `reserve` spares what is reserved: no used block of two pages or more around the first
or the last page of the range reaches out of the range. -/
def Spares (st : State) (start stop : ℕ) : Prop :=
  ∀ i k, 0 < k → (st.pageList i).order = (k : ℕ) → (st.pageList i).entryInList = none →
    (start / pageSize ∈ span i k ∨ (stop - 1) / pageSize ∈ span i k) →
    span i k ⊆ rangePages start stop

theorem AtBoot.spares_iff {start stop : ℕ} (h : AtBoot st p) : Spares st start stop ↔
    ∀ C ∈ struck p (start / pageSize) ((stop - 1) / pageSize), C.pages ⊆ rangePages start stop := by
  constructor
  · intro hs C hC
    obtain ⟨hCu, hpos, hends⟩ := Finset.mem_filter.1 hC
    obtain ⟨horder, hentry⟩ := h.rep.usedEntry C hCu (Option.some_ne_none _).symm
    exact hs C.start C.order hpos horder hentry hends
  · intro hs i k hk horder hentry hends
    obtain ⟨B, hB, rfl⟩ := h.clean i (by omega)
    have ho : B.order = k := by exact_mod_cast (h.rep.block_order hB).symm.trans horder
    subst ho
    rcases Finset.mem_union.1 hB with hB | hB
    · rw [(h.rep.freeEntry B hB).2.2] at hentry
      exact absurd hentry (Option.some_ne_none _)
    · exact hs B (Finset.mem_filter.2 ⟨hB, hk, hends⟩)

/-- The used pages outlive a call of `reserve` when it spares them, and only then. -/
theorem AtBoot.spares_iff_subset {start stop : ℕ} (h : AtBoot st p) (hused : p'.usedPages =
      (p.used \ struck p (start / pageSize) ((stop - 1) / pageSize)).biUnion pages ∪
        rangePages start stop) :
    Spares st start stop ↔ p.usedPages ⊆ p'.usedPages := by
  rw [h.spares_iff, hused]
  constructor
  · intro hs i hi
    obtain ⟨C, hC, hiC⟩ := p.mem_usedPages.1 hi
    by_cases hstr : C ∈ struck p (start / pageSize) ((stop - 1) / pageSize)
    · exact Finset.mem_union_right _ (hs C hstr hiC)
    · exact Finset.mem_union_left _ (Finset.mem_biUnion.2 ⟨C, Finset.mem_sdiff.2 ⟨hC, hstr⟩, hiC⟩)
  · intro hsub C hC i hi
    have hCu := (Finset.mem_filter.1 hC).1
    rcases Finset.mem_union.1 (hsub (p.mem_usedPages.2 ⟨C, hCu, hi⟩)) with hin | hin
    · obtain ⟨D, hD, hiD⟩ := Finset.mem_biUnion.1 hin
      obtain ⟨hDu, hDn⟩ := Finset.mem_sdiff.1 hD
      have hDC := p.eq_of_mem (p.mem_blocks_of_used hDu) (p.mem_blocks_of_used hCu) hiD hi
      exact absurd (hDC ▸ hC) hDn
    · exact hin

/-- A range of addresses, from the first to past the last, that is not empty and lies in memory. -/
def InRange (r : ℕ × ℕ) : Prop := r.1 < r.2 ∧ r.2 ≤ memorySize

def reserveAll (st : State) (l : List (ℕ × ℕ)) : State :=
  l.foldl (fun st r => Mm.reserve st r.1 r.2) st

def touched (l : List (ℕ × ℕ)) : Finset ℕ := l.toFinset.biUnion fun r => rangePages r.1 r.2

variable {l : List (ℕ × ℕ)} {r : ℕ × ℕ}

theorem reserveAll_concat (st : State) (l : List (ℕ × ℕ)) (r : ℕ × ℕ) :
    reserveAll st (l ++ [r]) = Mm.reserve (reserveAll st l) r.1 r.2 := by
  rw [reserveAll, List.foldl_append]
  rfl

theorem touched_concat (l : List (ℕ × ℕ)) (r : ℕ × ℕ) :
    touched (l ++ [r]) = touched l ∪ rangePages r.1 r.2 := by
  rw [touched, List.toFinset_append, Finset.union_biUnion, List.toFinset_cons, List.toFinset_nil,
    insert_empty_eq, Finset.singleton_biUnion]
  rfl

def Permanent (l : List (ℕ × ℕ)) : Prop :=
  (∀ r ∈ l, ∀ i ∈ rangePages r.1 r.2, ¬ FreePage (reserveAll mmInit l) i) ∧
    ∀ r ∈ l, NeverAllocated (reserveAll mmInit l) (rangePages r.1 r.2)

theorem reserveAll_arranged (hl : ∀ r ∈ l, InRange r) : Arranged (reserveAll mmInit l) := by
  induction l using List.reverseRecOn with
  | nil => exact Arranged.init
  | append_singleton l r ih =>
      obtain ⟨hlt, hle⟩ := hl r (List.mem_append_right _ (List.mem_singleton_self r))
      have hstart : r.1 < memorySize := by omega
      have hpos : 0 < r.2 := by omega
      rw [reserveAll_concat]
      exact (ih fun r hr => hl r (List.mem_append_left _ hr)).reserve hstart hpos hle

theorem rangePages_subset_touched (hr : r ∈ l) : rangePages r.1 r.2 ⊆ touched l :=
  Finset.subset_biUnion_of_mem (fun r => rangePages r.1 r.2) (List.mem_toFinset.2 hr)

theorem touched_subset (hl : ∀ r ∈ l, InRange r) : touched l ⊆ Finset.range pageNum := by
  intro i hi
  obtain ⟨r, hr, hir⟩ := Finset.mem_biUnion.1 hi
  obtain ⟨hlt, hle⟩ := hl r (List.mem_toFinset.1 hr)
  exact rangePages_subset hle hlt hir

theorem AtBoot.permanent_iff (h : AtBoot (reserveAll mmInit l) p) (hl : ∀ r ∈ l, InRange r) :
    Permanent l ↔ touched l ⊆ p.usedPages := by
  constructor
  · rintro ⟨hfree, -⟩ i hi
    obtain ⟨r, hr, hir⟩ := Finset.mem_biUnion.1 hi
    by_contra hiu
    exact hfree r (List.mem_toFinset.1 hr) i hir
      ((h.freePage_iff i).2 ⟨Finset.mem_range.1 (touched_subset hl hi), hiu⟩)
  · intro hsub
    refine ⟨fun r hr i hi hfree => ?_, fun r hr => ?_⟩
    · exact ((h.freePage_iff i).1 hfree).2 (hsub (rangePages_subset_touched hr hi))
    · exact h.rep.neverAllocated ((rangePages_subset_touched hr).trans hsub)

def AllSpare (l : List (ℕ × ℕ)) : Prop :=
  ∀ l₁ r l₂, l = l₁ ++ r :: l₂ → Spares (reserveAll mmInit l₁) r.1 r.2

theorem allSpare_concat (l : List (ℕ × ℕ)) (r : ℕ × ℕ) :
    AllSpare (l ++ [r]) ↔ AllSpare l ∧ Spares (reserveAll mmInit l) r.1 r.2 :=
  Runs.forall_split_concat (P := fun l₁ r => Spares (reserveAll mmInit l₁) r.1 r.2) l r

/-- After calls that all spare one another exactly the pages of the ranges are used, and the
reservations of a run last through the run only if the calls spare one another. -/
theorem reserveAll_spec (l : List (ℕ × ℕ)) (hl : ∀ r ∈ l, InRange r) :
    (AllSpare l → ∃ p, AtBoot (reserveAll mmInit l) p ∧ p.usedPages = touched l) ∧
      ((∀ l₁, l₁ <+: l → Permanent l₁) → AllSpare l) := by
  induction l using List.reverseRecOn with
  | nil =>
      refine ⟨fun _ => ⟨_, atBoot_mmInit, rfl⟩, fun _ l₁ r l₂ h => ?_⟩
      exact absurd h.symm (by simp)
  | append_singleton l r ih =>
      have hl' : ∀ r ∈ l, InRange r := fun r hr => hl r (List.mem_append_left _ hr)
      obtain ⟨hlt, hle⟩ := hl r (List.mem_append_right _ (List.mem_singleton_self r))
      have hstart : r.1 < memorySize := by omega
      have hpos : 0 < r.2 := by omega
      obtain ⟨ihp, ihs⟩ := ih hl'
      rw [allSpare_concat]
      constructor
      · rintro ⟨hall, hr⟩
        obtain ⟨p, hp, hu⟩ := ihp hall
        obtain ⟨p', hp', hused⟩ := hp.reserve hstart hpos hle
        rw [reserveAll_concat, touched_concat]
        refine ⟨p', hp', Finset.Subset.antisymm ?_ ?_⟩
        · rw [hused, ← hu]
          refine Finset.union_subset_union_left fun i hi => ?_
          obtain ⟨C, hC, hiC⟩ := Finset.mem_biUnion.1 hi
          exact p.mem_usedPages.2 ⟨C, (Finset.mem_sdiff.1 hC).1, hiC⟩
        · have hsub := (hp.spares_iff_subset hused).1 hr
          rw [hu] at hsub
          exact Finset.union_subset hsub (hused ▸ Finset.subset_union_right)
      · intro hperm
        have hall := ihs fun l₁ hl₁ => hperm l₁ (hl₁.trans (List.prefix_append l [r]))
        obtain ⟨p, hp, hu⟩ := ihp hall
        obtain ⟨p', hp', hused⟩ := hp.reserve hstart hpos hle
        rw [← reserveAll_concat] at hp'
        have hlast := (hp'.permanent_iff hl).1 (hperm _ (List.prefix_refl _))
        rw [touched_concat, ← hu] at hlast
        exact ⟨hall, (hp.spares_iff_subset hused).2 (Finset.union_subset_left hlast)⟩

/-- Reservations last through a run of calls of `reserve` exactly if each call spares what was
reserved before it. -/
theorem reservations_permanent_iff (l : List (ℕ × ℕ)) (hl : ∀ r ∈ l, InRange r) :
    AllSpare l ↔ ∀ l₁, l₁ <+: l → Permanent l₁ := by
  refine ⟨fun hall l₁ hpre => ?_, (reserveAll_spec l hl).2⟩
  have hl₁ : ∀ r ∈ l₁, InRange r := fun r hr => hl r (hpre.subset hr)
  have hall₁ : AllSpare l₁ := by
    obtain ⟨l₂, rfl⟩ := hpre
    intro l₃ r l₄ h
    exact hall l₃ r (l₄ ++ l₂) (by rw [h, List.append_assoc, List.cons_append])
  obtain ⟨p, hp, hu⟩ := (reserveAll_spec l₁ hl₁).1 hall₁
  exact (hp.permanent_iff hl₁).2 hu.ge

/-- A range, a part of it and the range again. -/
def overlapping : List (ℕ × ℕ) := [(0, 8 * pageSize), (2 * pageSize, 3 * pageSize), (0, 8 * pageSize)]

theorem reservations_permanent_iff_overlapping :
    AllSpare overlapping ↔ ∀ l₁, l₁ <+: overlapping → Permanent l₁ := by
  refine reservations_permanent_iff _ fun r hr => ?_
  simp only [overlapping, List.mem_cons, List.not_mem_nil, or_false] at hr
  rcases hr with rfl | rfl | rfl
  · exact ⟨by decide, by decide⟩
  · exact ⟨by decide, by decide⟩
  · exact ⟨by decide, by decide⟩

/-- A reservation of page 2 alone frees page 3, which the one before it took with page 2 as one
block. -/
theorem reservation_lost : ¬ ∀ l, (∀ r ∈ l, InRange r) → Permanent l := by
  intro hall
  have hl : ∀ r ∈ [(0, 8 * pageSize), (2 * pageSize, 3 * pageSize)], InRange r := by
    intro r hr
    simp only [List.mem_cons, List.not_mem_nil, or_false] at hr
    rcases hr with rfl | rfl
    · exact ⟨by decide, by decide⟩
    · exact ⟨by decide, by decide⟩
  obtain ⟨p, hp⟩ := (reserveAll_arranged hl).atBoot
  have hhead : (reserveAll mmInit [(0, 8 * pageSize), (2 * pageSize, 3 * pageSize)]).freeList 0 =
      some 3 := by decide +kernel
  have hzero : 0 < maxOrder := by decide
  have hspan : 3 ∈ span 3 0 := Finset.mem_Ico.2 ⟨le_rfl, by decide⟩
  have hrange : 3 ∈ rangePages 0 (8 * pageSize) := Finset.mem_Icc.2 ⟨by decide, by decide⟩
  have hkept := (hall _ hl).1 _ List.mem_cons_self 3 hrange
  generalize reserveAll mmInit [(0, 8 * pageSize), (2 * pageSize, 3 * pageSize)] = st at *
  exact hkept ⟨0, hzero, 3, (onList_iff hp.rep hzero 3).2 (hp.rep.lists.of_head hzero hhead), hspan⟩

end OscKernel.Mm
