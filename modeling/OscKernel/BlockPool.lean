import OscKernel.DyadicBlock

/-!
# Pools of dyadic blocks

A pool is a finite set of pairwise apart dyadic blocks, each either free or used. The five moves
below are all that a buddy allocator does to its blocks: take a free block, release a used one,
shed the upper half of a used block, join a used block with its free buddy, and drop a used block
from the pool. All but the last keep the set of owned pages.
-/

open DyadicBlock

/-- Two blocks of the set that share a page are the same block. -/
def Apart (s : Finset DyadicBlock) : Prop :=
  ∀ ⦃B⦄, B ∈ s → ∀ ⦃C⦄, C ∈ s → ∀ ⦃i⦄, i ∈ B.pages → i ∈ C.pages → B = C

structure BlockPool where
  free : Finset DyadicBlock
  used : Finset DyadicBlock
  disjoint : Disjoint free used
  apart : Apart (free ∪ used)

theorem Apart.mono {s t : Finset DyadicBlock} (h : Apart t) (hst : s ⊆ t) : Apart s :=
  fun _ hB _ hC _ hiB hiC => h (hst hB) (hst hC) hiB hiC

/-- Replacing some blocks by new ones stays apart when each new block only covers pages of the
replaced blocks. -/
theorem Apart.replace {s t old new : Finset DyadicBlock} (h : Apart s) (hold : old ⊆ s)
    (ht : t ⊆ new ∪ s \ old) (hnew : Apart new)
    (hcover : ∀ B ∈ new, ∀ i ∈ B.pages, ∃ C ∈ old, i ∈ C.pages) : Apart t := by
  have hmix : ∀ ⦃B⦄, B ∈ new → ∀ ⦃C⦄, C ∈ s \ old → ∀ ⦃i⦄, i ∈ B.pages → i ∉ C.pages := by
    intro B hB C hC i hiB hiC
    obtain ⟨D, hD, hiD⟩ := hcover B hB i hiB
    rw [Finset.mem_sdiff] at hC
    exact hC.2 (h hC.1 (hold hD) hiC hiD ▸ hD)
  intro B hB C hC i hiB hiC
  rcases Finset.mem_union.1 (ht hB) with hB | hB <;> rcases Finset.mem_union.1 (ht hC) with hC | hC
  · exact hnew hB hC hiB hiC
  · exact absurd hiC (hmix hB hC hiB)
  · exact absurd hiB (hmix hC hB hiC)
  · exact h (Finset.mem_sdiff.1 hB).1 (Finset.mem_sdiff.1 hC).1 hiB hiC

theorem Apart.singleton (B : DyadicBlock) : Apart {B} := by
  intro C hC D hD _ _ _
  rw [Finset.mem_singleton.1 hC, Finset.mem_singleton.1 hD]

theorem Apart.halves {B : DyadicBlock} (h : 0 < B.order) : Apart {B.lower, B.upper} := by
  have hdisj := Finset.disjoint_left.1 (disjoint_halves h)
  intro C hC D hD i hiC hiD
  simp only [Finset.mem_insert, Finset.mem_singleton] at hC hD
  rcases hC with rfl | rfl <;> rcases hD with rfl | rfl
  · rfl
  · exact absurd hiD (hdisj hiC)
  · exact absurd hiC (hdisj hiD)
  · rfl

namespace BlockPool

variable (p : BlockPool) {B C : DyadicBlock} {i : ℕ}

def blocks : Finset DyadicBlock := p.free ∪ p.used
def freePages : Finset ℕ := p.free.biUnion pages
def usedPages : Finset ℕ := p.used.biUnion pages
def owned : Finset ℕ := p.freePages ∪ p.usedPages

theorem mem_freePages : i ∈ p.freePages ↔ ∃ B ∈ p.free, i ∈ B.pages := by
  simp only [freePages, Finset.mem_biUnion]

theorem mem_usedPages : i ∈ p.usedPages ↔ ∃ B ∈ p.used, i ∈ B.pages := by
  simp only [usedPages, Finset.mem_biUnion]

theorem mem_owned : i ∈ p.owned ↔ ∃ B ∈ p.blocks, i ∈ B.pages := by
  simp only [owned, blocks, Finset.mem_union, mem_freePages, mem_usedPages, or_and_right, exists_or]

theorem mem_blocks_of_free (hB : B ∈ p.free) : B ∈ p.blocks := Finset.mem_union_left _ hB

theorem mem_blocks_of_used (hB : B ∈ p.used) : B ∈ p.blocks := Finset.mem_union_right _ hB

theorem eq_of_mem (hB : B ∈ p.blocks) (hC : C ∈ p.blocks) (hiB : i ∈ B.pages) (hiC : i ∈ C.pages) :
    B = C := p.apart hB hC hiB hiC

theorem not_free_of_used (hB : B ∈ p.used) : B ∉ p.free :=
  fun hf => Finset.disjoint_left.1 p.disjoint hf hB

theorem eq_of_start_eq (hB : B ∈ p.blocks) (hC : C ∈ p.blocks) (hs : B.start = C.start) : B = C :=
  p.eq_of_mem hB hC B.start_mem_pages (hs ▸ C.start_mem_pages)

theorem disjoint_freePages_usedPages : Disjoint p.freePages p.usedPages := by
  rw [Finset.disjoint_left]
  intro i hf hu
  obtain ⟨B, hB, hiB⟩ := p.mem_freePages.1 hf
  obtain ⟨C, hC, hiC⟩ := p.mem_usedPages.1 hu
  have heq := p.eq_of_mem (p.mem_blocks_of_free hB) (p.mem_blocks_of_used hC) hiB hiC
  exact p.not_free_of_used hC (heq ▸ hB)

def take (B : DyadicBlock) (hB : B ∈ p.free) : BlockPool where
  free := p.free.erase B
  used := insert B p.used
  disjoint := by
    rw [Finset.disjoint_insert_right]
    exact ⟨Finset.notMem_erase B _, p.disjoint.mono_left (Finset.erase_subset B _)⟩
  apart := by
    apply p.apart.mono
    intro C hC
    simp only [Finset.mem_union, Finset.mem_erase, Finset.mem_insert] at hC ⊢
    rcases hC with hC | rfl | hC
    · exact Or.inl hC.2
    · exact Or.inl hB
    · exact Or.inr hC

def release (B : DyadicBlock) (hB : B ∈ p.used) : BlockPool where
  free := insert B p.free
  used := p.used.erase B
  disjoint := by
    rw [Finset.disjoint_insert_left]
    exact ⟨Finset.notMem_erase B _, p.disjoint.mono_right (Finset.erase_subset B _)⟩
  apart := by
    apply p.apart.mono
    intro C hC
    simp only [Finset.mem_union, Finset.mem_erase, Finset.mem_insert] at hC ⊢
    rcases hC with (rfl | hC) | hC
    · exact Or.inr hB
    · exact Or.inl hC
    · exact Or.inr hC.2

theorem lower_ne (h : 0 < B.order) : B.lower ≠ B := by
  intro he
  have := congrArg order he
  rw [lower_order] at this
  omega

theorem upper_ne (h : 0 < B.order) : B.upper ≠ B := by
  intro he
  have := congrArg order he
  rw [upper_order] at this
  omega

theorem lower_not_mem (hB : B ∈ p.blocks) (h : 0 < B.order) : B.lower ∉ p.blocks := by
  intro hl
  have hs : B.lower.start ∈ B.pages := B.start_mem_pages
  exact lower_ne h (p.eq_of_mem hl hB B.lower.start_mem_pages hs)

theorem upper_not_mem (hB : B ∈ p.blocks) (h : 0 < B.order) : B.upper ∉ p.blocks := by
  intro hu
  have hs : B.upper.start ∈ B.pages := by
    rw [pages_halves h]
    exact Finset.mem_union_right _ B.upper.start_mem_pages
  exact upper_ne h (p.eq_of_mem hu hB B.upper.start_mem_pages hs)

/-- A used block keeps its lower half and gives the upper half back. -/
def shed (B : DyadicBlock) (hB : B ∈ p.used) (h : 0 < B.order) : BlockPool where
  free := insert B.upper p.free
  used := insert B.lower (p.used.erase B)
  disjoint := by
    have hlow := p.lower_not_mem (p.mem_blocks_of_used hB) h
    have hupp := p.upper_not_mem (p.mem_blocks_of_used hB) h
    have hne : B.lower ≠ B.upper := by
      intro he
      exact Finset.disjoint_left.1 (disjoint_halves h) B.lower.start_mem_pages
        (he ▸ B.lower.start_mem_pages)
    rw [Finset.disjoint_insert_left, Finset.disjoint_insert_right]
    simp only [Finset.mem_insert, Finset.mem_erase, not_or, not_and]
    exact ⟨⟨hne.symm, fun _ hu => hupp (p.mem_blocks_of_used hu)⟩,
      fun hl => hlow (p.mem_blocks_of_free hl), p.disjoint.mono_right (Finset.erase_subset B _)⟩
  apart := by
    apply p.apart.replace (Finset.singleton_subset_iff.2 (p.mem_blocks_of_used hB)) _ (Apart.halves h)
    · intro C hC i hi
      refine ⟨B, Finset.mem_singleton_self B, ?_⟩
      rw [pages_halves h]
      rcases Finset.mem_insert.1 hC with rfl | hC
      · exact Finset.mem_union_left _ hi
      · exact Finset.mem_union_right _ (Finset.mem_singleton.1 hC ▸ hi)
    · intro C hC
      have hfree : C ∈ p.free → C ≠ B := fun hf he => p.not_free_of_used hB (he ▸ hf)
      simp only [Finset.mem_union, Finset.mem_insert, Finset.mem_erase, Finset.mem_sdiff,
        Finset.mem_singleton] at hC ⊢
      tauto

def join (B : DyadicBlock) (hB : B ∈ p.used) (hb : B.buddy ∈ p.free) : BlockPool where
  free := p.free.erase B.buddy
  used := insert B.parent (p.used.erase B)
  disjoint := by
    rw [Finset.disjoint_insert_right]
    refine ⟨fun hp => ?_, (p.disjoint.mono_left (Finset.erase_subset _ _)).mono_right
      (Finset.erase_subset _ _)⟩
    have hs : B.start ∈ B.parent.pages := by
      rw [pages_parent]
      exact Finset.mem_union_left _ B.start_mem_pages
    have heq := p.eq_of_mem (p.mem_blocks_of_free (Finset.mem_of_mem_erase hp))
      (p.mem_blocks_of_used hB) hs B.start_mem_pages
    have := congrArg order heq
    rw [parent_order] at this
    omega
  apart := by
    have hold : ({B, B.buddy} : Finset DyadicBlock) ⊆ p.free ∪ p.used := by
      intro C hC
      rcases Finset.mem_insert.1 hC with rfl | hC
      · exact p.mem_blocks_of_used hB
      · exact Finset.mem_singleton.1 hC ▸ p.mem_blocks_of_free hb
    apply p.apart.replace hold _ (Apart.singleton B.parent)
    · intro C hC i hi
      rw [Finset.mem_singleton.1 hC, pages_parent] at hi
      rcases Finset.mem_union.1 hi with hi | hi
      · exact ⟨B, Finset.mem_insert_self _ _, hi⟩
      · exact ⟨B.buddy, Finset.mem_insert_of_mem (Finset.mem_singleton_self _), hi⟩
    · intro C hC
      have hfree : C ∈ p.free → C ≠ B := fun hf he => p.not_free_of_used hB (he ▸ hf)
      have hused : C ∈ p.used → C ≠ B.buddy := fun hu he => p.not_free_of_used hu (he ▸ hb)
      simp only [Finset.mem_union, Finset.mem_insert, Finset.mem_erase, Finset.mem_sdiff,
        Finset.mem_singleton] at hC ⊢
      tauto

def drop (B : DyadicBlock) : BlockPool where
  free := p.free
  used := p.used.erase B
  disjoint := p.disjoint.mono_right (Finset.erase_subset B _)
  apart := p.apart.mono (Finset.union_subset_union_right (Finset.erase_subset B _))

theorem mem_used_take (hB : B ∈ p.free) : B ∈ (p.take B hB).used := Finset.mem_insert_self _ _

theorem lower_mem_used_shed (hB : B ∈ p.used) (h : 0 < B.order) : B.lower ∈ (p.shed B hB h).used :=
  Finset.mem_insert_self _ _

theorem upper_mem_free_shed (hB : B ∈ p.used) (h : 0 < B.order) : B.upper ∈ (p.shed B hB h).free :=
  Finset.mem_insert_self _ _

theorem mem_free_release (hB : B ∈ p.used) (hC : C ∈ p.free) : C ∈ (p.release B hB).free :=
  Finset.mem_insert_of_mem hC

variable {p}

theorem owned_take (hB : B ∈ p.free) : (p.take B hB).owned = p.owned := by
  ext i
  simp only [mem_owned, blocks, take, Finset.mem_union, Finset.mem_erase, Finset.mem_insert]
  constructor
  · rintro ⟨C, hC | rfl | hC, hi⟩
    · exact ⟨C, Or.inl hC.2, hi⟩
    · exact ⟨C, Or.inl hB, hi⟩
    · exact ⟨C, Or.inr hC, hi⟩
  · rintro ⟨C, hC | hC, hi⟩
    · by_cases he : C = B
      · exact ⟨C, Or.inr (Or.inl he), hi⟩
      · exact ⟨C, Or.inl ⟨he, hC⟩, hi⟩
    · exact ⟨C, Or.inr (Or.inr hC), hi⟩

theorem owned_release (hB : B ∈ p.used) : (p.release B hB).owned = p.owned := by
  ext i
  simp only [mem_owned, blocks, release, Finset.mem_union, Finset.mem_erase, Finset.mem_insert]
  constructor
  · rintro ⟨C, (rfl | hC) | hC, hi⟩
    · exact ⟨C, Or.inr hB, hi⟩
    · exact ⟨C, Or.inl hC, hi⟩
    · exact ⟨C, Or.inr hC.2, hi⟩
  · rintro ⟨C, hC | hC, hi⟩
    · exact ⟨C, Or.inl (Or.inr hC), hi⟩
    · by_cases he : C = B
      · exact ⟨C, Or.inl (Or.inl he), hi⟩
      · exact ⟨C, Or.inr ⟨he, hC⟩, hi⟩

theorem owned_shed (hB : B ∈ p.used) (h : 0 < B.order) : (p.shed B hB h).owned = p.owned := by
  ext i
  simp only [mem_owned, blocks, shed, Finset.mem_union, Finset.mem_erase, Finset.mem_insert]
  constructor
  · rintro ⟨C, (rfl | hC) | rfl | hC, hi⟩
    · exact ⟨B, Or.inr hB, by rw [pages_halves h]; exact Finset.mem_union_right _ hi⟩
    · exact ⟨C, Or.inl hC, hi⟩
    · exact ⟨B, Or.inr hB, by rw [pages_halves h]; exact Finset.mem_union_left _ hi⟩
    · exact ⟨C, Or.inr hC.2, hi⟩
  · rintro ⟨C, hC | hC, hi⟩
    · exact ⟨C, Or.inl (Or.inr hC), hi⟩
    · by_cases he : C = B
      · subst he
        rw [pages_halves h] at hi
        rcases Finset.mem_union.1 hi with hi | hi
        · exact ⟨_, Or.inr (Or.inl rfl), hi⟩
        · exact ⟨_, Or.inl (Or.inl rfl), hi⟩
      · exact ⟨C, Or.inr (Or.inr ⟨he, hC⟩), hi⟩

theorem owned_join (hB : B ∈ p.used) (hb : B.buddy ∈ p.free) : (p.join B hB hb).owned = p.owned := by
  ext i
  simp only [mem_owned, blocks, join, Finset.mem_union, Finset.mem_erase, Finset.mem_insert]
  constructor
  · rintro ⟨C, hC | rfl | hC, hi⟩
    · exact ⟨C, Or.inl hC.2, hi⟩
    · rw [pages_parent] at hi
      rcases Finset.mem_union.1 hi with hi | hi
      · exact ⟨B, Or.inr hB, hi⟩
      · exact ⟨B.buddy, Or.inl hb, hi⟩
    · exact ⟨C, Or.inr hC.2, hi⟩
  · rintro ⟨C, hC | hC, hi⟩
    · by_cases he : C = B.buddy
      · subst he
        exact ⟨_, Or.inr (Or.inl rfl), by rw [pages_parent]; exact Finset.mem_union_right _ hi⟩
      · exact ⟨C, Or.inl ⟨he, hC⟩, hi⟩
    · by_cases he : C = B
      · subst he
        exact ⟨_, Or.inr (Or.inl rfl), by rw [pages_parent]; exact Finset.mem_union_left _ hi⟩
      · exact ⟨C, Or.inr (Or.inr ⟨he, hC⟩), hi⟩

theorem owned_drop (hB : B ∈ p.used) : (p.drop B).owned = p.owned \ B.pages := by
  ext i
  rw [Finset.mem_sdiff]
  simp only [mem_owned, blocks, drop, Finset.mem_union, Finset.mem_erase]
  constructor
  · rintro ⟨C, hC | hC, hi⟩
    · refine ⟨⟨C, Or.inl hC, hi⟩, fun hiB => ?_⟩
      have heq := p.eq_of_mem (p.mem_blocks_of_free hC) (p.mem_blocks_of_used hB) hi hiB
      exact p.not_free_of_used hB (heq ▸ hC)
    · exact ⟨⟨C, Or.inr hC.2, hi⟩, fun hiB => hC.1
        (p.eq_of_mem (p.mem_blocks_of_used hC.2) (p.mem_blocks_of_used hB) hi hiB)⟩
  · rintro ⟨⟨C, hC | hC, hi⟩, hiB⟩
    · exact ⟨C, Or.inl hC, hi⟩
    · exact ⟨C, Or.inr ⟨fun he => hiB (he ▸ hi), hC⟩, hi⟩

theorem freePages_eq (p : BlockPool) : p.freePages = p.owned \ p.usedPages := by
  rw [owned, Finset.union_sdiff_right, p.disjoint_freePages_usedPages.sdiff_eq_left]

def Coalesced (top : ℕ) (p : BlockPool) : Prop :=
  ∀ B ∈ p.free, B.order < top → B.buddy ∉ p.free

variable {top : ℕ}

theorem Coalesced.mono {q : BlockPool} (h : p.Coalesced top) (hsub : q.free ⊆ p.free) :
    q.Coalesced top :=
  fun B hB ho hb => h B (hsub hB) ho (hsub hb)

theorem Coalesced.insert {q : BlockPool} (h : p.Coalesced top) (hfree : q.free = insert B p.free)
    (hb : B.order < top → B.buddy ∉ p.free) : q.Coalesced top := by
  intro C hC ho hbud
  rw [hfree, Finset.mem_insert] at hC hbud
  rcases hC with rfl | hC
  · rcases hbud with he | hbud
    · exact C.buddy_ne he
    · exact hb ho hbud
  · rcases hbud with he | hbud
    · rw [← he, buddy_buddy] at hb
      exact hb ho hC
    · exact h C hC ho hbud

theorem Coalesced.shed (h : p.Coalesced top) (hB : B ∈ p.used) (ho : 0 < B.order) :
    (p.shed B hB ho).Coalesced top := by
  apply h.insert rfl
  intro _ hb
  rw [buddy_upper ho] at hb
  exact p.lower_not_mem (p.mem_blocks_of_used hB) ho (p.mem_blocks_of_free hb)

/-- Two buddies below the order `top` are both free only around a page of `X`. -/
def CoalescedBut (top : ℕ) (X : Finset ℕ) (p : BlockPool) : Prop :=
  ∀ B ∈ p.free, B.order < top → B.buddy ∈ p.free → ∃ x ∈ X, x ∈ B.parent.pages

variable {X : Finset ℕ}

theorem Coalesced.but (h : p.Coalesced top) : p.CoalescedBut top X :=
  fun B hB ho hb => absurd hb (h B hB ho)

theorem CoalescedBut.mono {q : BlockPool} (h : p.CoalescedBut top X) (hsub : q.free ⊆ p.free) :
    q.CoalescedBut top X :=
  fun B hB ho hb => h B (hsub hB) ho (hsub hb)

/-- Halving a free block around a page of `X`. -/
theorem CoalescedBut.halve {q : BlockPool} {x : ℕ} (h : p.CoalescedBut top X)
    (hfree : q.free = insert B.upper (insert B.lower (p.free.erase B))) (ho : 0 < B.order)
    (hx : x ∈ X) (hxB : x ∈ B.pages) : q.CoalescedBut top X := by
  have hparent : ∀ C, C = B.lower ∨ C = B.upper → C.parent = B := by
    rintro C (rfl | rfl)
    · exact parent_lower ho
    · rw [← buddy_lower ho, parent_buddy, parent_lower ho]
  have hmem : ∀ C, C ∈ q.free → (C = B.lower ∨ C = B.upper) ∨ C ∈ p.free := by
    intro C hC
    simp only [hfree, Finset.mem_insert, Finset.mem_erase] at hC
    tauto
  intro C hC htop hbud
  rcases hmem C hC with hnew | hC
  · exact ⟨x, hx, hparent C hnew ▸ hxB⟩
  · rcases hmem _ hbud with hnew | hbud
    · exact ⟨x, hx, by rw [← parent_buddy, hparent _ hnew]; exact hxB⟩
    · exact h C hC htop hbud

/-- Once no page of `X` is free the pool is coalesced everywhere. -/
theorem CoalescedBut.coalesced (h : p.CoalescedBut top X) (hX : Disjoint X p.freePages) :
    p.Coalesced top := by
  intro B hB ho hb
  obtain ⟨x, hx, hxB⟩ := h B hB ho hb
  rw [pages_parent] at hxB
  apply Finset.disjoint_left.1 hX hx
  rcases Finset.mem_union.1 hxB with hxB | hxB
  · exact p.mem_freePages.2 ⟨B, hB, hxB⟩
  · exact p.mem_freePages.2 ⟨_, hb, hxB⟩

/-- In a coalesced pool, a block all of whose pages are free is itself free or a part of a larger
free block. -/
theorem Coalesced.mem_free_of_subset (h : p.Coalesced top) (hsub : B.pages ⊆ p.freePages)
    (ho : B.order ≤ top) : ∃ C ∈ p.free, B.pages ⊆ C.pages := by
  induction hk : B.order generalizing B with
  | zero =>
      obtain ⟨C, hC, hs⟩ := p.mem_freePages.1 (hsub B.start_mem_pages)
      exact ⟨C, hC, subset_of_mem_of_order_le (by omega) B.start_mem_pages hs⟩
  | succ k ih =>
      have hpos : 0 < B.order := by omega
      have hlow : B.lower.pages ⊆ B.pages := by
        rw [pages_halves hpos]
        exact Finset.subset_union_left
      have hupp : B.upper.pages ⊆ B.pages := by
        rw [pages_halves hpos]
        exact Finset.subset_union_right
      obtain ⟨C, hC, hCl⟩ := ih (hlow.trans hsub) (by rw [lower_order]; omega)
        (by rw [lower_order]; omega)
      obtain ⟨D, hD, hDu⟩ := ih (hupp.trans hsub) (by rw [upper_order]; omega)
        (by rw [upper_order]; omega)
      -- a free block around one half either covers `B` or is that half
      have hcase : ∀ H E : DyadicBlock, H.order = k → H.pages ⊆ B.pages → E ∈ p.free →
          H.pages ⊆ E.pages → B.pages ⊆ E.pages ∨ E = H := by
        intro H E hH hHB hE hHE
        by_cases hEo : B.order ≤ E.order
        · exact Or.inl (subset_of_mem_of_order_le hEo (hHB H.start_mem_pages)
            (hHE H.start_mem_pages))
        · have hle := order_le_of_subset hHE
          exact Or.inr (eq_of_mem_of_order_eq (by omega) (hHE H.start_mem_pages) H.start_mem_pages)
      rcases hcase B.lower C (by rw [lower_order]; omega) hlow hC hCl with hBC | rfl
      · exact ⟨C, hC, hBC⟩
      rcases hcase B.upper D (by rw [upper_order]; omega) hupp hD hDu with hBD | rfl
      · exact ⟨D, hD, hBD⟩
      have hbud := h B.lower hC (by rw [lower_order]; omega)
      rw [buddy_lower hpos] at hbud
      exact absurd hD hbud

/-- The free pages of a coalesced pool determine its free blocks. -/
theorem Coalesced.free_subset {q : BlockPool} (hp : p.Coalesced top) (hq : q.Coalesced top)
    (hpo : ∀ B ∈ p.free, B.order ≤ top) (hqo : ∀ B ∈ q.free, B.order ≤ top)
    (hpages : p.freePages = q.freePages) : p.free ⊆ q.free := by
  intro B hB
  have hBq : B.pages ⊆ q.freePages := fun i hi => hpages ▸ p.mem_freePages.2 ⟨B, hB, hi⟩
  obtain ⟨C, hC, hBC⟩ := hq.mem_free_of_subset hBq (hpo B hB)
  have hCp : C.pages ⊆ p.freePages := fun i hi => hpages ▸ q.mem_freePages.2 ⟨C, hC, hi⟩
  obtain ⟨D, hD, hCD⟩ := hp.mem_free_of_subset hCp (hqo C hC)
  have hs := B.start_mem_pages
  have hBD : B = D := p.eq_of_mem (p.mem_blocks_of_free hB) (p.mem_blocks_of_free hD) hs
    (hCD (hBC hs))
  have hle := order_le_of_subset hBC
  have hge := order_le_of_subset hCD
  rw [← hBD] at hge
  exact eq_of_mem_of_order_eq (le_antisymm hle hge) hs (hBC hs) ▸ hC

theorem Coalesced.free_eq {q : BlockPool} (hp : p.Coalesced top) (hq : q.Coalesced top)
    (hpo : ∀ B ∈ p.free, B.order ≤ top) (hqo : ∀ B ∈ q.free, B.order ≤ top)
    (hpages : p.freePages = q.freePages) : p.free = q.free :=
  Finset.Subset.antisymm (hp.free_subset hq hpo hqo hpages)
    (hq.free_subset hp hqo hpo hpages.symm)

end BlockPool
