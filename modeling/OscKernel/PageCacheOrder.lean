import OscKernel.PageSystem

/-!
# The page allocator leaves `cache_order` alone

After `mm_init` no function of `mm.c` writes the field that `alloc.c` uses to recognise its pages.
-/

namespace OscKernel.Mm

def SameCache (st st' : State) : Prop :=
  ∀ i, (st'.pageList i).cacheOrder = (st.pageList i).cacheOrder

variable {st st' st'' : State}

theorem SameCache.refl (st : State) : SameCache st st := fun _ => rfl

theorem SameCache.trans (h : SameCache st st') (h' : SameCache st' st'') : SameCache st st'' :=
  fun i => (h' i).trans (h i)

theorem SameCache.modify (h : SameCache st st') {i : ℕ} {f : PageInfo → PageInfo}
    (hf : ∀ e, (f e).cacheOrder = e.cacheOrder) : SameCache st (st'.modify i f) := by
  intro j
  rw [modify_pageList, ← h j]
  split_ifs
  · exact hf _
  · rfl

theorem SameCache.modifyPtr (h : SameCache st st') {i : Option ℕ} {f : PageInfo → PageInfo}
    (hf : ∀ e, (f e).cacheOrder = e.cacheOrder) : SameCache st (st'.modifyPtr i f) := by
  cases i with
  | none => exact h
  | some i => exact h.modify hf

theorem SameCache.setHead (h : SameCache st st') (k : ℕ) (b : Option ℕ) :
    SameCache st (st'.setHead k b) := h

theorem SameCache.add (h : SameCache st st') (b : ℕ) (k : ℤ) :
    SameCache st (addToFreeList st' b k) := by
  refine h.trans ?_
  unfold addToFreeList
  split_ifs
  · exact SameCache.refl st'
  · dsimp only
    cases st'.freeList k.toNat with
    | none =>
        refine SameCache.modify ((SameCache.refl st').setHead _ _) ?_
        exact fun _ => rfl
    | some head =>
        refine (SameCache.modify (SameCache.modify ((SameCache.refl st').modify ?_) ?_) ?_).setHead _ _
        all_goals exact fun _ => rfl

theorem SameCache.rm (h : SameCache st st') (b : ℕ) (k : ℤ) :
    SameCache st (rmFromFreeList st' b k) := by
  refine h.trans ?_
  unfold rmFromFreeList
  split_ifs with hrange
  · exact SameCache.refl st'
  · dsimp only
    refine SameCache.modify ?_ ?_
    · split_ifs
      · refine ((SameCache.refl st').setHead _ _).modifyPtr ?_
        exact fun _ => rfl
      · refine SameCache.modifyPtr ((SameCache.refl st').modifyPtr ?_) ?_
        all_goals exact fun _ => rfl
    · exact fun _ => rfl

theorem SameCache.allocSplitStep (h : SameCache st st') (b i : ℕ) :
    SameCache st (allocSplitStep st' b i) := by
  simp only [Mm.allocSplitStep]
  refine SameCache.modify (SameCache.modify (SameCache.add (h.modify ?_) _ _) ?_) ?_
  all_goals exact fun _ => rfl

theorem SameCache.allocSplit (h : SameCache st st') (b order d : ℕ) :
    SameCache st (allocSplit b order d st') := by
  induction d generalizing st' with
  | zero => exact h
  | succ d ih => exact ih (h.allocSplitStep b _)

theorem sameCache_allocSearch (st : State) (order n i : ℕ) :
    SameCache st (allocSearch st order n i).1 := by
  induction n generalizing i with
  | zero => exact SameCache.refl st
  | succ n ih =>
      unfold allocSearch
      cases st.freeList i with
      | none => exact ih (i + 1)
      | some b =>
          dsimp only
          refine SameCache.modify (SameCache.modify (SameCache.allocSplit ?_ b order _) ?_) ?_
          · exact (SameCache.refl st).rm b i
          all_goals exact fun _ => rfl

theorem sameCache_alloc (st : State) (size : ℕ) : SameCache st (alloc st size).1 := by
  unfold alloc
  split_ifs
  · exact SameCache.refl st
  · exact sameCache_allocSearch st _ _ _

theorem SameCache.freeInsert (h : SameCache st st') (i k : ℕ) :
    SameCache st (freeInsert st' i k) := by
  simp only [Mm.freeInsert]
  refine SameCache.modify (SameCache.modify (SameCache.add (h.modify ?_) _ _) ?_) ?_
  all_goals exact fun _ => rfl

theorem SameCache.freeJoin (h : SameCache st st') (e i j k : ℕ) :
    SameCache st (freeJoin st' e i j k) := by
  simp only [Mm.freeJoin]
  refine SameCache.modify (SameCache.modify (SameCache.modify (h.rm e k) ?_) ?_) ?_
  all_goals exact fun _ => rfl

theorem SameCache.freeMerge (n : ℕ) (h : SameCache st st') (i k : ℕ) :
    SameCache st (freeMerge n st' i k) := by
  induction n generalizing st' i k with
  | zero => exact h
  | succ n ih =>
      simp only [Mm.freeMerge]
      cases (st'.pageList (getBuddy i k)).entryInList with
      | none => exact h.freeInsert i k
      | some e =>
          dsimp only
          split_ifs
          · exact ih (h.freeJoin _ _ _ _) _ _
          · exact h.freeInsert i k

theorem sameCache_free (st : State) (ptr : ℕ) : SameCache st (free st ptr) := by
  unfold free
  dsimp only
  split_ifs
  · exact SameCache.refl st
  · exact SameCache.refl st
  · exact SameCache.refl st
  · exact (SameCache.refl st).freeMerge _ _ _

theorem SameCache.splitInsert (h : SameCache st st') (i k : ℕ) :
    SameCache st (splitInsert st' i k) := by
  simp only [Mm.splitInsert]
  refine SameCache.modify (SameCache.add (SameCache.modify (h.modify ?_) ?_) _ _) ?_
  all_goals exact fun _ => rfl

theorem SameCache.split (h : SameCache st st') (i k : ℕ) : SameCache st (split st' i k) := by
  unfold Mm.split
  split_ifs
  · exact h
  · refine SameCache.splitInsert (SameCache.splitInsert ((h.rm i k).modify ?_) _ _) _ _
    exact fun _ => rfl

theorem SameCache.reserveSplit (h : SameCache st st') (s e n : ℕ) :
    SameCache st (reserveSplit s e n st') := by
  induction n generalizing st' with
  | zero => exact h
  | succ n ih =>
      simp only [Mm.reserveSplit]
      split_ifs
      · exact ih (h.split _ _)
      · exact ih h
      · exact ih ((h.split _ _).split _ _)
      · exact ih (h.split _ _)
      · exact ih (h.split _ _)
      · exact ih h

theorem SameCache.reserveRemove (h : SameCache st st') (e n i : ℕ) :
    SameCache st (reserveRemove e n i st') := by
  induction n generalizing st' i with
  | zero => exact h
  | succ n ih =>
      simp only [Mm.reserveRemove]
      split_ifs
      · exact h
      · refine ih ((h.rm i _).modify ?_) _
        exact fun _ => rfl
      · exact ih h _

theorem sameCache_reserve (st : State) (start stop : ℕ) : SameCache st (reserve st start stop) :=
  ((SameCache.refl st).reserveSplit _ _ _).reserveRemove _ _ _

/-- A booted allocator has no cached page. -/
theorem Booted.cacheOrder {reserved : Finset ℕ} (h : Booted st reserved) {i : ℕ} (hi : i < pageNum) :
    (st.pageList i).cacheOrder = -1 := by
  induction h with
  | @first start stop _ _ _ =>
      rw [sameCache_reserve mmInit start stop i]
      exact congrArg PageInfo.cacheOrder (if_pos hi)
  | @next st _ start stop _ _ _ _ ih => rw [sameCache_reserve st start stop i, ih]

end OscKernel.Mm
