import OscKernel.BlockPool
import OscKernel.PageLists

/-!
# The page array represents a pool of blocks

`Rep st p` relates the memory of `mm.c` to a pool: the free blocks are exactly those on the lists,
their first page carries the index, the order and a list entry, and the first page of a used block
carries its order and no entry. A page with an entry starts a free block, unless its block grew to
the largest order: `_free` leaves such a block behind, with a stale entry when its lower half was
the free buddy.

`RepExcept (some c)` asks nothing of page `c`, the first page of the block that a loop works on.
-/

namespace OscKernel.Mm

open DyadicBlock

def freeAt (p : BlockPool) (k i : ℕ) : Prop := ∃ B ∈ p.free, B.order = k ∧ B.start = i

structure RepExcept (c : Option ℕ) (st : State) (p : BlockPool) : Prop where
  lists : ListsHold st (freeAt p)
  bound : ∀ B ∈ p.blocks, B.order < maxOrder ∧ B.pages ⊆ Finset.range pageNum
  freeEntry : ∀ B ∈ p.free, (st.pageList B.start).idx = B.start ∧
    (st.pageList B.start).order = B.order ∧ (st.pageList B.start).entryInList = some B.start
  usedEntry : ∀ B ∈ p.used, c ≠ some B.start →
    (st.pageList B.start).order = B.order ∧ (st.pageList B.start).entryInList = none
  heads : ∀ i, c ≠ some i → (st.pageList i).entryInList ≠ none →
    (∃ B ∈ p.free, B.start = i) ∨ (st.pageList i).order = (maxOrder - 1 : ℕ)

abbrev Rep : State → BlockPool → Prop := RepExcept none

variable {c c' : Option ℕ} {st st' : State} {p p' : BlockPool} {B C : DyadicBlock}

theorem start_ne_of_ne (hB : B ∈ p.blocks) (hC : C ∈ p.blocks) (hne : B ≠ C) : B.start ≠ C.start :=
  fun hs => hne (p.eq_of_start_eq hB hC hs)

/-- A page with an entry and a smaller than largest order starts a free block of that order. -/
theorem RepExcept.free_of_entry (h : RepExcept c st p) {i k : ℕ} (hi : c ≠ some i)
    (hentry : (st.pageList i).entryInList ≠ none) (hk : k + 1 < maxOrder)
    (horder : (st.pageList i).order = k) : ∃ B ∈ p.free, B.start = i ∧ B.order = k := by
  rcases h.heads i hi hentry with ⟨B, hB, rfl⟩ | hmax
  · refine ⟨B, hB, rfl, ?_⟩
    exact_mod_cast (h.freeEntry B hB).2.1.symm.trans horder
  · rw [horder] at hmax
    have : k = maxOrder - 1 := by exact_mod_cast hmax
    omega

theorem RepExcept.head_free (h : RepExcept c st p) {k b : ℕ} (hk : k < maxOrder)
    (hb : st.freeList k = some b) : ∃ B ∈ p.free, B.order = k ∧ B.start = b :=
  h.lists.of_head hk hb

theorem RepExcept.no_free_of_head_none (h : RepExcept c st p) {k : ℕ} (hk : k < maxOrder)
    (hn : st.freeList k = none) : ∀ B ∈ p.free, B.order ≠ k :=
  fun B hB ho => h.lists.head_none hk hn ⟨B, hB, ho, rfl⟩

theorem RepExcept.block_order (h : Rep st p) (hB : B ∈ p.blocks) :
    (st.pageList B.start).order = B.order := by
  rcases Finset.mem_union.1 hB with hB | hB
  · exact (h.freeEntry B hB).2.1
  · exact (h.usedEntry B hB (Option.some_ne_none _).symm).1

/-- The code has put page `b` on the list of order `k` and recorded it there. -/
structure Inserted (st st' : State) (b k : ℕ) : Prop where
  lists : ∀ F, ListsHold st F → (∀ j, ¬ F j b) → ListsHold st' fun j i => F j i ∨ (j = k ∧ i = b)
  idx : (st'.pageList b).idx = b
  order : (st'.pageList b).order = k
  entry : (st'.pageList b).entryInList = some b
  cache : (st'.pageList b).cacheOrder = (st.pageList b).cacheOrder
  elsewhere : ∀ i, i ≠ b → SameData (st.pageList i) (st'.pageList i)

theorem freeAt_insert (hfree : p'.free = insert B p.free) (k i : ℕ) :
    freeAt p k i ∨ (k = B.order ∧ i = B.start) ↔ freeAt p' k i := by
  simp only [freeAt, hfree, Finset.mem_insert, exists_eq_or_imp]
  constructor
  · rintro (h | ⟨rfl, rfl⟩)
    · exact Or.inr h
    · exact Or.inl ⟨rfl, rfl⟩
  · rintro (⟨rfl, rfl⟩ | h)
    · exact Or.inr ⟨rfl, rfl⟩
    · exact Or.inl h

theorem RepExcept.insert (h : RepExcept c st p) (hins : Inserted st st' B.start B.order)
    (hnew : ∀ C ∈ p.free, C.start ≠ B.start) (hfree : p'.free = insert B p.free)
    (hbound : ∀ C ∈ p'.blocks, C.order < maxOrder ∧ C.pages ⊆ Finset.range pageNum)
    (hused : ∀ C ∈ p'.used, c' ≠ some C.start → C ∈ p.used ∧ C.start ≠ B.start)
    (hc : ∀ i, c' ≠ some i → i ≠ B.start → c ≠ some i) : RepExcept c' st' p' := by
  refine ⟨?_, hbound, ?_, ?_, ?_⟩
  · apply (hins.lists _ h.lists ?_).iff (freeAt_insert hfree)
    rintro j ⟨C, hC, -, hs⟩
    exact hnew C hC hs
  · intro C hC
    rw [hfree, Finset.mem_insert] at hC
    rcases hC with rfl | hC
    · exact ⟨hins.idx, hins.order, hins.entry⟩
    · have hsame := hins.elsewhere C.start (hnew C hC)
      rw [hsame.idx, hsame.order, hsame.entryInList]
      exact h.freeEntry C hC
  · intro C hC hcC
    obtain ⟨hCu, hne⟩ := hused C hC hcC
    have hsame := hins.elsewhere C.start hne
    rw [hsame.order, hsame.entryInList]
    exact h.usedEntry C hCu (hc _ hcC hne)
  · intro i hi hentry
    by_cases hib : i = B.start
    · exact Or.inl ⟨B, hfree ▸ Finset.mem_insert_self _ _, hib.symm⟩
    · have hsame := hins.elsewhere i hib
      rw [hsame.entryInList] at hentry
      rw [hsame.order]
      rcases h.heads i (hc i hi hib) hentry with ⟨C, hC, hs⟩ | hmax
      · exact Or.inl ⟨C, hfree ▸ Finset.mem_insert_of_mem hC, hs⟩
      · exact Or.inr hmax

/-- The code has taken page `b` off the list of order `k`, and may have cleared its entry. -/
structure Removed (st st' : State) (b k : ℕ) : Prop where
  lists : ∀ F, ListsHold st F → F k b → ListsHold st' fun j i => F j i ∧ i ≠ b
  elsewhere : ∀ i, i ≠ b → SameData (st.pageList i) (st'.pageList i)
  idx : (st'.pageList b).idx = (st.pageList b).idx
  order : (st'.pageList b).order = (st.pageList b).order
  cache : (st'.pageList b).cacheOrder = (st.pageList b).cacheOrder

theorem freeAt_erase (hB : B ∈ p.free) (hfree : p'.free = p.free.erase B) (k i : ℕ) :
    freeAt p k i ∧ i ≠ B.start ↔ freeAt p' k i := by
  simp only [freeAt, hfree, Finset.mem_erase]
  constructor
  · rintro ⟨⟨C, hC, ho, rfl⟩, hne⟩
    exact ⟨C, ⟨fun he => hne (congrArg start he), hC⟩, ho, rfl⟩
  · rintro ⟨C, ⟨hne, hC⟩, ho, rfl⟩
    exact ⟨⟨C, hC, ho, rfl⟩,
      start_ne_of_ne (p.mem_blocks_of_free hC) (p.mem_blocks_of_free hB) hne⟩

theorem RepExcept.remove (h : Rep st p) (hB : B ∈ p.free) (hrm : Removed st st' B.start B.order) :
    RepExcept (some B.start) st' (p.take B hB) := by
  refine ⟨?_, ?_, ?_, ?_, ?_⟩
  · exact (hrm.lists _ h.lists ⟨B, hB, rfl, rfl⟩).iff (freeAt_erase hB rfl)
  · intro C hC
    apply h.bound
    simp only [BlockPool.blocks, BlockPool.take, Finset.mem_union, Finset.mem_erase,
      Finset.mem_insert] at hC ⊢
    rcases hC with hC | rfl | hC
    · exact Or.inl hC.2
    · exact Or.inl hB
    · exact Or.inr hC
  · intro C hC
    obtain ⟨hne, hCf⟩ := Finset.mem_erase.1 hC
    have hs := start_ne_of_ne (p.mem_blocks_of_free hCf) (p.mem_blocks_of_free hB) hne
    have hsame := hrm.elsewhere C.start hs
    rw [hsame.idx, hsame.order, hsame.entryInList]
    exact h.freeEntry C hCf
  · intro C hC hcC
    have hs : C.start ≠ B.start := fun he => hcC (congrArg some he.symm)
    rcases Finset.mem_insert.1 hC with rfl | hCu
    · exact absurd rfl hs
    · have hsame := hrm.elsewhere C.start hs
      rw [hsame.order, hsame.entryInList]
      exact h.usedEntry C hCu (by simp)
  · intro i hi hentry
    have hs : i ≠ B.start := fun he => hi (congrArg some he.symm)
    have hsame := hrm.elsewhere i hs
    rw [hsame.entryInList] at hentry
    rw [hsame.order]
    rcases h.heads i (by simp) hentry with ⟨C, hC, hCi⟩ | hmax
    · refine Or.inl ⟨C, Finset.mem_erase.2 ⟨fun he => hs ?_, hC⟩, hCi⟩
      rw [← hCi, he]
    · exact Or.inr hmax

def KeepsLinks (f : PageInfo → PageInfo) : Prop := ∀ e, (f e).next = e.next ∧ (f e).prev = e.prev

theorem modify_modify (st : State) (i : ℕ) (f g : PageInfo → PageInfo) :
    (st.modify i f).modify i g = st.modify i (g ∘ f) := by
  simp only [State.modify, Function.update_self, Function.update_idem, Function.comp_apply]

theorem ListsHold.modify {F : ℕ → ℕ → Prop} (h : ListsHold st F) {i : ℕ}
    {f : PageInfo → PageInfo} (hf : KeepsLinks f) : ListsHold (st.modify i f) F := by
  refine h.congr (fun k _ => rfl) ?_ ?_
  · intro k j _
    simp only [State.next, modify_pageList]
    split_ifs
    · exact (hf _).1
    · rfl
  · intro k j _
    simp only [State.prev, modify_pageList]
    split_ifs
    · exact (hf _).2
    · rfl

theorem inserted_of_add {b k : ℕ} (hk : k < maxOrder) {f g : PageInfo → PageInfo}
    (hf : KeepsLinks f) (hg : KeepsLinks g)
    (hdata : ∀ e, SameData (f (st.pageList b)) e → (g e).idx = b ∧ (g e).order = k ∧
      (g e).entryInList = some b ∧ (g e).cacheOrder = (st.pageList b).cacheOrder) :
    Inserted st ((addToFreeList (st.modify b f) b k).modify b g) b k := by
  have hpage : SameData (f (st.pageList b)) ((addToFreeList (st.modify b f) b k).pageList b) := by
    have := addToFreeList_sameData (st.modify b f) b hk b
    rwa [modify_pageList, if_pos rfl] at this
  obtain ⟨hidx, horder, hentry, hcache⟩ := hdata _ hpage
  constructor
  · intro F hF hfresh
    exact ((hF.modify hf).add hk hfresh (fun j i => Iff.rfl)).modify hg
  · rwa [modify_pageList, if_pos rfl]
  · rwa [modify_pageList, if_pos rfl]
  · rwa [modify_pageList, if_pos rfl]
  · rwa [modify_pageList, if_pos rfl]
  · intro i hi
    have := addToFreeList_sameData (st.modify b f) b hk i
    rw [modify_pageList, if_neg hi] at this
    rwa [modify_pageList, if_neg hi]

theorem removed_rm (st : State) {b k : ℕ} (hk : k < maxOrder) :
    Removed st (rmFromFreeList st b k) b k := by
  have hsame := rmFromFreeList_sameData st b hk
  exact ⟨fun F hF hb => hF.rm hk hb (fun j i => Iff.rfl), fun i _ => hsame i, (hsame b).idx,
    (hsame b).order, (hsame b).cacheOrder⟩

theorem Removed.modify {b k : ℕ} (h : Removed st st' b k) {f : PageInfo → PageInfo}
    (hf : KeepsLinks f) (hdata : ∀ e, (f e).idx = e.idx ∧ (f e).order = e.order ∧
      (f e).cacheOrder = e.cacheOrder) : Removed st (st'.modify b f) b k := by
  constructor
  · intro F hF hb
    exact (h.lists F hF hb).modify hf
  · intro i hi
    rw [modify_pageList, if_neg hi]
    exact h.elsewhere i hi
  · rw [modify_pageList, if_pos rfl, (hdata _).1, h.idx]
  · rw [modify_pageList, if_pos rfl, (hdata _).2.1, h.order]
  · rw [modify_pageList, if_pos rfl, (hdata _).2.2, h.cache]

/-- Recording the order of the block a loop worked on, and clearing its entry, ends the loop. -/
theorem RepExcept.settle (h : RepExcept (some B.start) st p) (hB : B ∈ p.used)
    {f : PageInfo → PageInfo} (hf : KeepsLinks f)
    (hdata : ∀ e, (f e).order = B.order ∧ (f e).entryInList = none) :
    Rep (st.modify B.start f) p := by
  have hpage : ∀ i, i ≠ B.start → (st.modify B.start f).pageList i = st.pageList i := by
    intro i hi
    rw [modify_pageList, if_neg hi]
  refine ⟨h.lists.modify hf, h.bound, ?_, ?_, ?_⟩
  · intro C hC
    rw [hpage]
    · exact h.freeEntry C hC
    · apply start_ne_of_ne (p.mem_blocks_of_free hC) (p.mem_blocks_of_used hB)
      exact fun he => p.not_free_of_used hB (he ▸ hC)
  · intro C hC _
    by_cases hCB : C = B
    · subst hCB
      rw [modify_pageList, if_pos rfl]
      exact hdata _
    · have hs := start_ne_of_ne (p.mem_blocks_of_used hC) (p.mem_blocks_of_used hB) hCB
      rw [hpage _ hs]
      exact h.usedEntry C hC (fun he => hs (Option.some.inj he).symm)
  · intro i _ hentry
    by_cases hi : i = B.start
    · rw [hi, modify_pageList, if_pos rfl, (hdata _).2] at hentry
      exact absurd rfl hentry
    · rw [hpage i hi] at hentry ⊢
      exact h.heads i (fun he => hi (Option.some.inj he).symm) hentry

end OscKernel.Mm
