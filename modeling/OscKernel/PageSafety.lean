import OscKernel.PageSystem

/-!
# Safety of the page allocator

Whatever its clients allocate and free, the page allocator never hands out a page twice, never
hands out a reserved page, and keeps its free lists well linked.
-/

namespace OscKernel.Mm

open DyadicBlock Linked Relation

variable {p p' : BlockPool} {B C : DyadicBlock}

def span (i k : ℕ) : Finset ℕ := Finset.Ico i (i + 2 ^ k)

def OnList (st : State) (k i : ℕ) : Prop :=
  ∃ l, DChain st.next st.prev none (st.freeList k) l ∧ i ∈ l

def liveSpan (a : ℕ × ℕ) : Finset ℕ := span (a.1 / pageSize) (reqOrder a.2)

theorem start_mem_liveSpan (a : ℕ × ℕ) : a.1 / pageSize ∈ liveSpan a := by
  have hpow : 0 < 2 ^ reqOrder a.2 := by positivity
  rw [liveSpan, span, Finset.mem_Ico]
  omega

structure Safe (reserved : Finset ℕ) (s : Sys) : Prop where
  liveStart : ∀ a ∈ s.live, pageSize ∣ a.1 ∧ 2 ^ reqOrder a.2 ∣ a.1 / pageSize
  liveOrder : ∀ a ∈ s.live, (s.mm.pageList (a.1 / pageSize)).order = reqOrder a.2 ∧
    IsLeast {k | a.2 ≤ 2 ^ k * pageSize} (reqOrder a.2)
  liveInside : ∀ a ∈ s.live, ∀ i ∈ liveSpan a, (i + 1) * pageSize ≤ memorySize
  liveApart : s.live.Pairwise fun a b => Disjoint (liveSpan a) (liveSpan b)
  liveReserved : ∀ a ∈ s.live, Disjoint (liveSpan a) reserved
  liveFree : ∀ a ∈ s.live, ∀ k < maxOrder, ∀ i, OnList s.mm k i → Disjoint (liveSpan a) (span i k)
  linked : ∀ k < maxOrder, ∃ l, DChain s.mm.next s.mm.prev none (s.mm.freeList k) l ∧ l.Nodup
  freeBlock : ∀ k < maxOrder, ∀ i, OnList s.mm k i → 2 ^ k ∣ i ∧ span i k ⊆ Finset.range pageNum ∧
    (s.mm.pageList i).idx = i ∧ (s.mm.pageList i).order = k
  freeApart : ∀ k < maxOrder, ∀ k' < maxOrder, ∀ i i', OnList s.mm k i → OnList s.mm k' i' →
    (k, i) ≠ (k', i') → Disjoint (span i k) (span i' k')
  null : ∀ size, (alloc s.mm size).2 = 0 → (alloc s.mm size).1 = s.mm

theorem onList_iff {st : State} (h : Rep st p) {k : ℕ} (hk : k < maxOrder) (i : ℕ) :
    OnList st k i ↔ freeAt p k i := by
  obtain ⟨l, hc, hl⟩ := h.lists.linked k hk
  constructor
  · rintro ⟨l', hc', hi⟩
    rw [← hl, hc.chain.unique hc'.chain]
    exact hi
  · exact fun hi => ⟨l, hc, (hl i).2 hi⟩

def FreePage (st : State) (i : ℕ) : Prop := ∃ k < maxOrder, ∃ b, OnList st k b ∧ i ∈ span b k

theorem freePage_iff {st : State} (h : Rep st p) (i : ℕ) : FreePage st i ↔ i ∈ p.freePages := by
  rw [p.mem_freePages]
  constructor
  · rintro ⟨k, hk, b, hl, hi⟩
    obtain ⟨B, hB, rfl, rfl⟩ := (onList_iff h hk b).1 hl
    exact ⟨B, hB, hi⟩
  · rintro ⟨B, hB, hi⟩
    have hk := (h.bound B (p.mem_blocks_of_free hB)).1
    exact ⟨_, hk, _, (onList_iff h hk _).2 ⟨B, hB, rfl, rfl⟩, hi⟩

theorem disjoint_of_ne (hB : B ∈ p.blocks) (hC : C ∈ p.blocks) (hne : B ≠ C) :
    Disjoint B.pages C.pages := by
  rw [Finset.disjoint_left]
  exact fun i hiB hiC => hne (p.eq_of_mem hB hC hiB hiC)

/-- The blocks on the free lists are aligned, in memory, disjoint and on the list of their order. -/
structure FreeBlocks (st : State) : Prop where
  block : ∀ k < maxOrder, ∀ b, OnList st k b → 2 ^ k ∣ b ∧ span b k ⊆ Finset.range pageNum ∧
    (st.pageList b).idx = b ∧ (st.pageList b).order = k
  apart : ∀ k < maxOrder, ∀ k' < maxOrder, ∀ b b', OnList st k b → OnList st k' b' →
    (k, b) ≠ (k', b') → Disjoint (span b k) (span b' k')

theorem RepExcept.freeBlocks {st : State} (h : Rep st p) : FreeBlocks st := by
  constructor
  · intro k hk b hb
    obtain ⟨C, hC, rfl, rfl⟩ := (onList_iff h hk b).1 hb
    obtain ⟨hidx, horder, -⟩ := h.freeEntry C hC
    exact ⟨C.aligned, (h.bound C (p.mem_blocks_of_free hC)).2, hidx, horder⟩
  · intro k hk k' hk' b b' hb hb' hne
    obtain ⟨B, hB, rfl, rfl⟩ := (onList_iff h hk b).1 hb
    obtain ⟨C, hC, rfl, rfl⟩ := (onList_iff h hk' b').1 hb'
    apply disjoint_of_ne (p.mem_blocks_of_free hB) (p.mem_blocks_of_free hC)
    rintro rfl
    exact hne rfl

variable {fixed : Finset DyadicBlock} {s : Sys} {a : ℕ × ℕ}

theorem Tracks.start_eq (h : Tracks fixed s p) (ha : a ∈ s.live) :
    a.1 / pageSize = (liveBlock a).start := by
  have hp := (h.addr a ha).1
  conv_lhs => rw [hp]
  exact Nat.mul_div_cancel _ pageSize_pos

theorem Tracks.liveSpan_eq (h : Tracks fixed s p) (ha : a ∈ s.live) :
    liveSpan a = (liveBlock a).pages := by
  rw [liveSpan, h.start_eq ha]
  rfl

/-- The state that the invariant of a run describes is safe. -/
theorem Tracks.safe (h : Tracks fixed s p) (h0 : 0 ∉ p.freePages) :
    Safe (fixed.biUnion pages) s := by
  have hblock : ∀ a ∈ s.live, liveBlock a ∈ p.blocks := fun a ha =>
    p.mem_blocks_of_used (h.mem_used ha)
  constructor
  · intro a ha
    refine ⟨(h.addr a ha).1 ▸ Nat.dvd_mul_left _ _, ?_⟩
    rw [h.start_eq ha]
    exact (liveBlock a).aligned
  · intro a ha
    rw [h.start_eq ha]
    exact ⟨(h.rep.usedEntry _ (h.mem_used ha) (by simp)).1, reqOrder_isLeast (h.addr a ha).2.2⟩
  · intro a ha i hi
    rw [h.liveSpan_eq ha] at hi
    have hin := Finset.mem_range.1 ((h.rep.bound _ (hblock a ha)).2 hi)
    rw [← pageNum_mul_pageSize]
    exact Nat.mul_le_mul_right _ hin
  · have hpw := h.nodup
    rw [List.Nodup, List.pairwise_map] at hpw
    refine List.Pairwise.imp_of_mem ?_ hpw
    intro a b ha hb hne
    rw [h.liveSpan_eq ha, h.liveSpan_eq hb]
    exact disjoint_of_ne (hblock a ha) (hblock b hb) hne
  · intro a ha
    rw [h.liveSpan_eq ha, Finset.disjoint_biUnion_right]
    intro C hC
    have hCu : C ∈ p.used := h.used ▸ Finset.mem_union_left _ hC
    apply disjoint_of_ne (hblock a ha) (p.mem_blocks_of_used hCu)
    exact fun he => h.fresh a ha (he ▸ hC)
  · intro a ha k hk i hi
    obtain ⟨C, hC, rfl, rfl⟩ := (onList_iff h.rep hk i).1 hi
    rw [h.liveSpan_eq ha]
    apply disjoint_of_ne (hblock a ha) (p.mem_blocks_of_free hC)
    exact fun he => p.not_free_of_used (h.mem_used ha) (he ▸ hC)
  · intro k hk
    obtain ⟨l, hc, -⟩ := h.rep.lists.linked k hk
    exact ⟨l, hc, hc.chain.nodup⟩
  · exact h.rep.freeBlocks.block
  · exact h.rep.freeBlocks.apart
  · intro size hnull
    cases hc : candidate s.mm size with
    | none => rw [alloc_none h.rep hc]
    | some b =>
        obtain ⟨-, -, st', p', B, heq, -, hal, rfl, -⟩ := Mm.alloc_some h.rep hc
        rw [heq] at hnull
        have hb : B.start = 0 := (Nat.mul_eq_zero.1 hnull).resolve_right pageSize_pos.ne'
        exact absurd (hal.pages (hb ▸ B.start_mem_pages)) h0

/-- What a run of a booted allocator keeps: page 0 stays in a block that nobody frees. -/
def Running (fixed : Finset DyadicBlock) (s : Sys) : Prop :=
  0 ∈ fixed.biUnion pages ∧ ∃ p, Tracks fixed s p

theorem Tracks.zero_not_free (h : Tracks fixed s p) (h0 : 0 ∈ fixed.biUnion pages) :
    0 ∉ p.freePages := by
  obtain ⟨C, hC, h0C⟩ := Finset.mem_biUnion.1 h0
  have hCu : C ∈ p.used := h.used ▸ Finset.mem_union_left _ hC
  exact fun hf => Finset.disjoint_left.1 p.disjoint_freePages_usedPages hf
    (p.mem_usedPages.2 ⟨C, hCu, h0C⟩)

theorem running_stable : Runs.Stable (Sys.Step fun _ _ => True) (Running fixed) := by
  rintro s _ ⟨h0, p, h⟩ ⟨op, hvalid, -, rfl⟩
  refine ⟨h0, ?_⟩
  cases op with
  | alloc size =>
      cases hc : candidate s.mm size with
      | none => exact ⟨p, (h.alloc_null hc).symm ▸ h⟩
      | some b =>
          have hb : b ≠ 0 := by
            rintro rfl
            obtain ⟨-, -, st', p', B, -, -, hal, hB, -⟩ := alloc_some h.rep hc
            exact h.zero_not_free h0 (hal.pages (hB ▸ B.start_mem_pages))
          obtain ⟨p', B, h', -⟩ := h.alloc_some hc hb
          exact ⟨p', h'⟩
  | free ptr size =>
      obtain ⟨p', h', -⟩ := h.free hvalid
      exact ⟨p', h'⟩

/-- Every state that the booted allocator reaches is safe. -/
theorem pageAllocator_safe {st : State} {reserved : Finset ℕ} {s : Sys} (hboot : Booted st reserved)
    (hrun : ReflTransGen (Sys.Step fun _ _ => True) ⟨st, []⟩ s) : Safe reserved s := by
  obtain ⟨p, hp⟩ := hboot.bootPool
  have hfixed : p.used.biUnion pages = reserved := hp.used
  have hstart : Running p.used ⟨st, []⟩ := by
    exact ⟨hfixed ▸ hboot.zero_mem, p, hp.rep.tracks⟩
  obtain ⟨h0, q, hq⟩ := running_stable.run hstart hrun
  exact hfixed ▸ hq.safe (hq.zero_not_free h0)

theorem pageAllocator_safe_one_page :
    Safe (rangePages 0 pageSize) (Sys.step ⟨reserve mmInit 0 pageSize, []⟩ (.alloc pageSize)) :=
  pageAllocator_safe (Booted.first (by decide) (by decide) (by decide))
    (ReflTransGen.single ⟨.alloc pageSize, trivial, trivial, rfl⟩)

end OscKernel.Mm
