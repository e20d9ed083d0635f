import OscKernel.HeapSafety

/-!
# Which requests the heap serves, and where

`alloc` fails only if nothing is left that is large enough, and then it changes nothing. A small block is
aligned to 16 bytes and stays within a page, a large one is aligned to the size of its block.
-/

namespace OscKernel.Alloc

open Linked Mm Relation

variable {fixed : Finset DyadicBlock} {carved : List (ℕ × ℕ)} {F : ℕ → ℕ → Prop} {s : Sys} {st st' : State}
  {live : List (ℕ × ℕ)} {p : BlockPool} {a : ℕ × ℕ} {c i size : ℕ} {L : Layout}

def NoBlock (mm : Mm.State) (size : ℕ) : Prop :=
  ∀ k < maxOrder, size ≤ 2 ^ k * pageSize → ∀ i, ¬ OnList mm k i

/-- No free block fits the request; for a small one also no free chunk. -/
def NoRoom (st : State) (size : ℕ) : Prop :=
  size = 0 ∨ (maxChunkSize < size ∧ NoBlock st.mm size) ∨
    (size ≤ maxChunkSize ∧ (∀ e, ¬ OnChunkList st (cacheOf size) e) ∧ NoBlock st.mm pageSize)

theorem noBlock_iff {mm : Mm.State} (h : Rep mm p) (size : ℕ) :
    NoBlock mm size ↔ ∀ B ∈ p.free, ¬ size ≤ 2 ^ B.order * pageSize := by
  constructor
  · intro hno B hB hle
    have hlt := (h.bound B (p.mem_blocks_of_free hB)).1
    exact hno B.order hlt hle B.start ((onList_iff h hlt B.start).2 ⟨B, hB, rfl, rfl⟩)
  · intro hno k hk hle i hi
    obtain ⟨B, hB, rfl, -⟩ := (onList_iff h hk i).1 hi
    exact hno B hB hle

theorem candidate_eq_none_iff {mm : Mm.State} (h : Rep mm p) (hpos : 0 < size) :
    candidate mm size = none ↔ NoBlock mm size := by
  rw [noBlock_iff h]
  by_cases hmax : size ≤ maxAllocSize
  · have hleast := reqOrder_isLeast hmax
    rw [candidate_none_iff h hpos hmax]
    refine forall₂_congr fun B hB => ?_
    rw [← not_le, not_iff_not]
    constructor
    · intro hle
      exact le_trans hleast.1 (Nat.mul_le_mul_right _ (Nat.pow_le_pow_right (by omega) hle))
    · exact fun hle => hleast.2 hle
  · refine iff_of_true (if_pos (Or.inr (not_le.1 hmax))) fun B hB hle => hmax ?_
    have hlt := (h.bound B (p.mem_blocks_of_free hB)).1
    rw [maxAllocSize_eq]
    exact hle.trans (Nat.mul_le_mul_right _ (Nat.pow_le_pow_right (by omega) (Nat.le_sub_one_of_lt hlt)))

theorem Inv.candidate_none (h : Inv fixed carved F ⟨st, live⟩ p) (hpos : 0 < size) :
    candidate st.mm size = none ↔ NoBlock st.mm size :=
  candidate_eq_none_iff h.tracks.rep hpos

theorem Inv.freeList_zero (h : Inv fixed carved F ⟨st, live⟩ p) (hc : c < cacheNum) :
    st.freeList c = 0 ↔ ∀ e, ¬ OnChunkList st c e := by
  constructor
  · intro h0 e he
    exact Lists.head_none (b := e) h.lists hc (show toPtr (st.freeList c) = none by rw [h0, toPtr_zero])
      (h.onChunkList he)
  · intro hno
    by_contra hne
    obtain ⟨l, hd, -⟩ := h.lists.linked c hc
    have hhead : st.head c = some (st.freeList c) := toPtr_of_ne hne
    refine hno (st.freeList c) ⟨hc, l, hd, ?_⟩
    rw [hhead] at hd
    exact hd.chain.head_mem

/-- A small request: it is served from the list of its cache, after a page was carved if that is empty. -/
theorem kmalloc_eq (hs : size ≤ maxChunkSize)
    (hst : st' = if st.freeList (cacheOf size) = 0 then requestPage st (cacheOf size) else st) :
    kmalloc st size = if st'.freeList (cacheOf size) = 0 then (st', 0)
      else (kmemFreelistPop st' (cacheOf size), st'.freeList (cacheOf size) + headerSize) := by
  obtain ⟨horder, hc, -⟩ := cacheOf_spec hs
  have hle : 1 <<< getChunkOrder size ≤ maxChunkSize := by
    rw [horder, Nat.one_shiftLeft]
    have hpow := Nat.pow_le_pow_right (show 0 < 2 by omega) (show cacheOf size + 4 ≤ 7 from by
      have : cacheNum = 4 := rfl
      omega)
    exact hpow
  have hpow : 1 <<< getChunkOrder size ≠ 0 := by
    rw [Nat.one_shiftLeft]
    positivity
  simp only [kmalloc, if_neg hpow, if_neg (not_lt.2 hle)]
  rw [hst]
  rfl

theorem Inv.large_serves (h : Inv fixed carved F ⟨st, live⟩ p) (hl : maxChunkSize < size) :
    ((Alloc.alloc st size).2 = 0 ↔ NoBlock st.mm size) ∧
      ((Alloc.alloc st size).2 = 0 → (Alloc.alloc st size).1 = st) := by
  have h0 : size ≠ 0 := by
    rintro rfl
    exact absurd hl (Nat.not_lt_zero _)
  rw [Alloc.alloc, if_neg h0, if_pos hl, ← h.candidate_none (Nat.pos_of_ne_zero h0)]
  cases hc : candidate st.mm size with
  | none =>
      rw [h.alloc_null hc]
      exact ⟨iff_of_true rfl rfl, fun _ => rfl⟩
  | some i =>
      obtain ⟨-, hpage, hi, -⟩ := h.alloc_block hc
      have hne : (Mm.alloc st.mm size).2 ≠ 0 := by
        rw [hpage]
        exact Nat.mul_ne_zero hi pageSize_pos.ne'
      exact ⟨iff_of_false hne (by simp), fun heq => absurd heq hne⟩

theorem Inv.small_serves (h : Inv fixed carved F ⟨st, live⟩ p) (h0 : size ≠ 0) (hs : size ≤ maxChunkSize) :
    ((Alloc.alloc st size).2 = 0 ↔
        (∀ e, ¬ OnChunkList st (cacheOf size) e) ∧ NoBlock st.mm pageSize) ∧
      ((Alloc.alloc st size).2 = 0 → (Alloc.alloc st size).1 = st) := by
  have hc := (cacheOf_spec hs).2.1
  rw [Alloc.alloc, if_neg h0, if_neg (not_lt.2 hs), ← h.freeList_zero hc, ← h.candidate_none pageSize_pos]
  have hpop : ∀ st' : State, st'.freeList (cacheOf size) + headerSize ≠ 0 := fun st' => by simp [headerSize]
  by_cases hempty : st.freeList (cacheOf size) = 0
  · rcases h.requestPage_eq hc with ⟨heq, hnone⟩ | ⟨i, hi, heq⟩
    · have hst : st = if st.freeList (cacheOf size) = 0 then requestPage st (cacheOf size) else st := by
        rw [if_pos hempty, heq]
      rw [kmalloc_eq hs hst, if_pos hempty]
      exact ⟨iff_of_true rfl ⟨hempty, hnone⟩, fun _ => rfl⟩
    · have hne := h.carve_freeList hc hi
      rw [kmalloc_eq hs (by rw [if_pos hempty, heq]), if_neg hne]
      refine ⟨iff_of_false (hpop _) fun hno => ?_, fun heq => absurd heq (hpop _)⟩
      rw [hi] at hno
      exact Option.some_ne_none i hno.2
  · have hst : st = if st.freeList (cacheOf size) = 0 then requestPage st (cacheOf size) else st := by
      rw [if_neg hempty]
    rw [kmalloc_eq hs hst, if_neg hempty]
    exact ⟨iff_of_false (hpop _) fun hno => hempty hno.1, fun heq => absurd heq (hpop _)⟩

theorem Inv.alloc_serves (h : Inv fixed carved F ⟨st, live⟩ p) (size : ℕ) :
    ((Alloc.alloc st size).2 = 0 ↔ NoRoom st size) ∧
      ((Alloc.alloc st size).2 = 0 → (Alloc.alloc st size).1 = st) := by
  by_cases h0 : size = 0
  · rw [Alloc.alloc, if_pos h0]
    exact ⟨iff_of_true rfl (Or.inl h0), fun _ => rfl⟩
  by_cases hs : size ≤ maxChunkSize
  · obtain ⟨hiff, hsame⟩ := h.small_serves h0 hs
    refine ⟨hiff.trans ⟨fun hno => Or.inr (Or.inr ⟨hs, hno⟩), ?_⟩, hsame⟩
    rintro (h0' | ⟨hl, -⟩ | ⟨-, hno⟩)
    · exact absurd h0' h0
    · exact absurd hs (not_le.2 hl)
    · exact hno
  · obtain ⟨hiff, hsame⟩ := h.large_serves (not_le.1 hs)
    refine ⟨hiff.trans ⟨fun hno => Or.inr (Or.inl ⟨not_le.1 hs, hno⟩), ?_⟩, hsame⟩
    rintro (h0' | ⟨-, hno⟩ | ⟨hs', -⟩)
    · exact absurd h0' h0
    · exact hno
    · exact absurd hs' hs

structure Placed (a : ℕ × ℕ) : Prop where
  small : a.2 ≤ maxChunkSize → 16 ∣ a.1 ∧ ∀ i ∈ area a, i / pageSize = a.1 / pageSize
  large : maxChunkSize < a.2 → ∃ k, IsLeast {k | a.2 ≤ 2 ^ k * pageSize} k ∧ 2 ^ k * pageSize ∣ a.1
  inside : ∀ i ∈ area a, 0 < i / pageSize ∧ i < memorySize

theorem Inv.small_place (h : Inv fixed carved F s p) (ha : a ∈ s.live) (hs : a.2 ≤ maxChunkSize) :
    16 ∣ a.1 ∧ (∀ i ∈ area a, i / pageSize = a.1 / pageSize) ∧ a.1 / pageSize < pageNum := by
  obtain ⟨hge, hch, -⟩ := h.liveChunk a ha hs
  obtain ⟨x, hx, -, hbytes⟩ := h.chunk_page hch
  have h16 := (h.chunk_aligned hch).1
  have hh : headerSize = 16 := rfl
  have hpow : 0 < 2 ^ (cacheOf a.2 + 4) := by positivity
  have hfirst : a.1 / pageSize = x.1 / pageSize := hbytes a.1 (by omega) (by rw [slot]; omega)
  refine ⟨by omega, fun i hi => ?_, ?_⟩
  · obtain ⟨hlo, hhi⟩ := h.area_small ha hs hi
    rw [hfirst]
    exact hbytes i (by omega) hhi
  · rw [hfirst]
    exact (h.carved_page hx).2.2

theorem Inv.large_place (h : Inv fixed carved F s p) (ha : a ∈ s.live) (hl : maxChunkSize < a.2) :
    ∃ k, IsLeast {k | a.2 ≤ 2 ^ k * pageSize} k ∧ 2 ^ k * pageSize ∣ a.1 := by
  have hm : a ∈ pageLive carved s.live := mem_pageLive_large ha hl
  obtain ⟨hdvd, hdiv⟩ := h.mmSafe.liveStart a hm
  refine ⟨reqOrder a.2, (h.mmSafe.liveOrder a hm).2, ?_⟩
  rw [← Nat.div_mul_cancel hdvd]
  exact Nat.mul_dvd_mul_right hdiv pageSize

/-- No block meets page 0, and all lie in memory. -/
theorem Inv.inside (h : Inv fixed carved F s p) (ha : a ∈ s.live) (hi : i ∈ area a) :
    0 < i / pageSize ∧ i < memorySize := by
  have hzero : ∀ l : ℕ × ℕ, l ∈ pageLive carved s.live → 0 ∉ liveSpan l := fun l hl h0 =>
    Finset.disjoint_left.1 (h.mmSafe.liveReserved l hl) h0 h.zero
  have hlt : ∀ j, i / pageSize = j → j < pageNum → i < memorySize := by
    rintro j rfl hj
    rw [← pageNum_mul_pageSize]
    exact (Nat.div_lt_iff_lt_mul pageSize_pos).1 hj
  by_cases hs : a.2 ≤ maxChunkSize
  · obtain ⟨-, hpage, hnum⟩ := h.small_place ha hs
    obtain ⟨x, hx, -, hbytes⟩ := h.chunk_page (h.liveChunk a ha hs).2.1
    obtain ⟨hlo, hhi⟩ := h.area_small ha hs hi
    refine ⟨Nat.pos_of_ne_zero fun h0 => hzero _ (mem_pageLive_carved hx) ?_, hlt _ (hpage i hi) hnum⟩
    rw [liveSpan_page, ← hbytes i (by omega) hhi, h0]
    exact Finset.mem_singleton_self 0
  · have hl := not_le.1 hs
    have hm : a ∈ pageLive carved s.live := mem_pageLive_large ha hl
    have hin := h.area_large ha hl hi
    refine ⟨Nat.pos_of_ne_zero fun h0 => hzero a hm (h0 ▸ hin), hlt _ rfl ?_⟩
    have hle := h.mmSafe.liveInside a hm _ hin
    rw [← pageNum_mul_pageSize] at hle
    exact Nat.le_of_mul_le_mul_right hle pageSize_pos

theorem Inv.placed (h : Inv fixed carved F s p) (ha : a ∈ s.live) : Placed a where
  small hs := by
    obtain ⟨h16, hpage, -⟩ := h.small_place ha hs
    exact ⟨h16, hpage⟩
  large hl := h.large_place ha hl
  inside _ hi := h.inside ha hi

/-- In every run of the booted heap a request fails exactly if there is no room for it, a failed request
changes nothing, and all blocks are well placed. -/
theorem heap_serves {mem : ℕ → ℕ} {kmemCaches : ℕ → KmemCache}
    (hrun : ReflTransGen (Sys.Step L) ⟨boot L mem kmemCaches, []⟩ s) :
    (∀ a ∈ s.live, Placed a) ∧ ∀ size, ((Alloc.alloc s.heap size).2 = 0 ↔ NoRoom s.heap size) ∧
      ((Alloc.alloc s.heap size).2 = 0 → (Alloc.alloc s.heap size).1 = s.heap) := by
  obtain ⟨fixed, hker, hstart⟩ := boot_running L mem kmemCaches
  obtain ⟨carved, F, p, h⟩ := (running_stable hker).run hstart hrun
  exact ⟨fun a ha => h.placed ha, fun size => h.alloc_serves size⟩

theorem heap_serves_one_block :
    (∀ a ∈ (Sys.step ⟨0x1000000, by decide, by decide⟩
        ⟨boot ⟨0x1000000, by decide, by decide⟩ (fun _ => 0) (fun _ => ⟨0, 0⟩), []⟩ (.alloc 100)).live,
      Placed a) ∧
    ∀ size, ((Alloc.alloc (Sys.step ⟨0x1000000, by decide, by decide⟩
        ⟨boot ⟨0x1000000, by decide, by decide⟩ (fun _ => 0) (fun _ => ⟨0, 0⟩), []⟩ (.alloc 100)).heap
        size).2 = 0 ↔
      NoRoom (Sys.step ⟨0x1000000, by decide, by decide⟩
        ⟨boot ⟨0x1000000, by decide, by decide⟩ (fun _ => 0) (fun _ => ⟨0, 0⟩), []⟩ (.alloc 100)).heap
        size) ∧
      ((Alloc.alloc (Sys.step ⟨0x1000000, by decide, by decide⟩
        ⟨boot ⟨0x1000000, by decide, by decide⟩ (fun _ => 0) (fun _ => ⟨0, 0⟩), []⟩ (.alloc 100)).heap
        size).2 = 0 →
      (Alloc.alloc (Sys.step ⟨0x1000000, by decide, by decide⟩
        ⟨boot ⟨0x1000000, by decide, by decide⟩ (fun _ => 0) (fun _ => ⟨0, 0⟩), []⟩ (.alloc 100)).heap
        size).1 = (Sys.step ⟨0x1000000, by decide, by decide⟩
        ⟨boot ⟨0x1000000, by decide, by decide⟩ (fun _ => 0) (fun _ => ⟨0, 0⟩), []⟩ (.alloc 100)).heap) :=
  heap_serves (ReflTransGen.single ⟨.alloc 100, trivial, rfl⟩)

end OscKernel.Alloc
