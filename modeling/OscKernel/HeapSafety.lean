import OscKernel.HeapSteps

/-!
# Safety of the dynamic allocator

Whatever the clients allocate, free and write into their blocks, the blocks they hold stay apart
from each other, from the headers of all chunks and from the free blocks of the page allocator, and
`free` returns each block to the allocator it came from.
-/

namespace OscKernel.Alloc

open Linked Mm Relation

inductive Op where
  | alloc (size : ℕ)
  | free (ptr size : ℕ)
  | write (addr value : ℕ)
  deriving DecidableEq

def Op.Valid (s : Sys) : Op → Prop
  | .alloc _ => True
  | .free ptr size => (ptr, size) ∈ s.live
  | .write addr _ => 8 ∣ addr ∧ ∃ a ∈ s.live, ∃ i ∈ area a, addr ≤ i ∧ i < addr + 8

def Sys.step (L : Layout) (s : Sys) : Op → Sys
  | .alloc size =>
    let r := alloc s.heap size
    { heap := r.1, live := if r.2 = 0 then s.live else (r.2, size) :: s.live }
  | .free ptr size => { heap := free L s.heap ptr, live := s.live.erase (ptr, size) }
  | .write addr value => { s with heap := s.heap.store addr value }

def Sys.Step (L : Layout) (s s' : Sys) : Prop := ∃ op : Op, op.Valid s ∧ s' = s.step L op

/-- The state that `main` starts from: `mm_init`, two reservations, `kmem_cache_init`. -/
def boot (L : Layout) (mem : ℕ → ℕ) (kmemCaches : ℕ → KmemCache) : State :=
  kmemCacheInit
    { mm := reserve (reserve mmInit 0 0x1000) 0x80000 L.stackTop
      mem := mem
      kmemCaches := kmemCaches }

def OnChunkList (st : State) (c e : ℕ) : Prop :=
  c < cacheNum ∧ ∃ l, DChain st.next st.prev none (st.head c) l ∧ e ∈ l

def IsAnyChunk (s : Sys) (c e : ℕ) : Prop :=
  OnChunkList s.heap c e ∨
    ∃ a ∈ s.live, a.2 ≤ maxChunkSize ∧ c = cacheOf a.2 ∧ e = a.1 - headerSize

structure Safe (L : Layout) (s : Sys) : Prop where
  apart : s.live.Pairwise fun a b => Disjoint (area a) (area b)
  header : ∀ a ∈ s.live, ∀ c e, IsAnyChunk s c e →
    Disjoint (area a) (Finset.Ico e (e + headerSize))
  buddy : ∀ a ∈ s.live, ∀ k < maxOrder, ∀ i, OnList s.heap.mm k i →
    Disjoint (area a) (Finset.Ico (i * pageSize) ((i + 2 ^ k) * pageSize))
  cached : ∀ a ∈ s.live, maxChunkSize < a.2 → ∀ i < pageNum,
    (s.heap.mm.pageList i).cacheOrder ≠ -1 → i ∉ liveSpan a
  chunkPage : ∀ c e, IsAnyChunk s c e →
    (s.heap.mm.pageList (e / pageSize)).cacheOrder = (c + 4 : ℕ) ∧
    (e + headerSize + (s.heap.kmemCaches c).cacheSize - 1) / pageSize = e / pageSize
  freeSmall : ∀ a ∈ s.live, a.2 ≤ maxChunkSize → a.2 ≤ (s.heap.kmemCaches (cacheOf a.2)).cacheSize ∧
    free L s.heap a.1 = kmemFreelistPush s.heap (a.1 - headerSize) (cacheOf a.2)
  freeLarge : ∀ a ∈ s.live, maxChunkSize < a.2 →
    free L s.heap a.1 = { s.heap with mm := Mm.free s.heap.mm a.1 }

variable {fixed : Finset DyadicBlock} {carved : List (ℕ × ℕ)} {F : ℕ → ℕ → Prop} {s : Sys}
  {st : State} {live : List (ℕ × ℕ)} {p : BlockPool} {a : ℕ × ℕ} {c e i size : ℕ} {L : Layout}

theorem Inv.free_cases (h : Inv fixed carved F s p)
    (hker : rangePages 0x80000 L.stackTop ⊆ fixed.biUnion DyadicBlock.pages) (ha : a ∈ s.live) :
    (a.2 ≤ maxChunkSize ∧
      free L s.heap a.1 = kmemFreelistPush s.heap (a.1 - headerSize) (cacheOf a.2)) ∨
    (maxChunkSize < a.2 ∧ free L s.heap a.1 = { s.heap with mm := Mm.free s.heap.mm a.1 }) := by
  obtain ⟨hpage, hfree, hpos⟩ := h.start_page ha
  have hlt : a.1 < memorySize := by
    rw [← pageNum_mul_pageSize]
    exact (Nat.div_lt_iff_lt_mul pageSize_pos).1 hpage
  have hidx := pageIdx_of_lt hlt
  -- the block does not start in the kernel image
  have hout : ¬ (L.bssEnd ≤ a.1 ∧ a.1 < L.stackTop) := by
    rintro ⟨hlo, hhi⟩
    apply hfree
    apply hker
    have := L.image
    rw [rangePages, Finset.mem_Icc]
    exact ⟨Nat.div_le_div_right (by omega), Nat.div_le_div_right (by omega)⟩
  have hrange : ¬ (((a.1 / pageSize : ℕ) : ℤ) < 0 ∨ (pageNum : ℤ) ≤ (a.1 / pageSize : ℕ)) := by
    rintro (hneg | hge)
    · exact absurd hneg (not_lt.2 (Int.natCast_nonneg _))
    · exact absurd hpage (not_lt.2 (Int.ofNat_le.1 hge))
  rcases h.area_start ha with ⟨hfar, hl⟩ | ⟨hs, ⟨page, c⟩, hx, rfl, heq⟩
  · right
    have horder := h.plainOrder _ hpage fun x hx he => hfar x hx he.symm
    refine ⟨hl, ?_⟩
    simp only [free, if_neg hpos.ne', if_neg hout, hidx, if_neg hrange, Int.toNat_natCast,
      if_neg (not_not.2 horder)]
  · left
    obtain ⟨hc, horder⟩ := h.carvedOrder _ hx
    simp only at hc horder heq
    have h₁ : minCacheOrder = 4 := rfl
    have h₂ : maxCacheOrder = 7 := rfl
    have h₃ : cacheNum = 4 := rfl
    rw [← heq] at horder
    have hne : ((cacheOf a.2 + 4 : ℕ) : ℤ) ≠ -1 := by omega
    have hrng : ¬ (((cacheOf a.2 + 4 : ℕ) : ℤ) < (minCacheOrder : ℕ) ∨
        ((maxCacheOrder : ℕ) : ℤ) < (cacheOf a.2 + 4 : ℕ)) := by omega
    have hsub : (((cacheOf a.2 + 4 : ℕ) : ℤ) - (minCacheOrder : ℕ)).toNat = cacheOf a.2 := by omega
    refine ⟨hs, ?_⟩
    simp only [free, kfree, if_neg hpos.ne', if_neg hout, hidx, if_neg hrange, Int.toNat_natCast,
      horder, if_pos hne, if_neg hrng, hsub]

theorem Inv.onChunkList (h : Inv fixed carved F s p) (he : OnChunkList s.heap c e) : F c e := by
  obtain ⟨hc, l', hd', hm⟩ := he
  obtain ⟨l, hd, hl⟩ := h.lists.linked c hc
  rw [← hl, hd.chain.unique hd'.chain]
  exact hm

theorem Inv.isAnyChunk (h : Inv fixed carved F s p) (he : IsAnyChunk s c e) :
    Chunk F s.live c e :=
  he.imp h.onChunkList id

theorem Inv.area_buddy (h : Inv fixed carved F s p) (ha : a ∈ s.live) {k : ℕ} (hk : k < maxOrder)
    (hi : OnList s.heap.mm k i) :
    Disjoint (area a) (Finset.Ico (i * pageSize) ((i + 2 ^ k) * pageSize)) := by
  rw [Finset.disjoint_left]
  intro b hb hbi
  have hspan : b / pageSize ∈ span i k := by
    rw [Finset.mem_Ico] at hbi
    rw [span, Finset.mem_Ico, Nat.le_div_iff_mul_le pageSize_pos, Nat.div_lt_iff_lt_mul pageSize_pos]
    exact hbi
  by_cases hs : a.2 ≤ maxChunkSize
  · obtain ⟨hlo, hhi⟩ := h.area_small ha hs hb
    obtain ⟨x, hx, -, hbytes⟩ := h.chunk_page (h.liveChunk a ha hs).2.1
    have hdis := h.mmSafe.liveFree _ (mem_pageLive_carved hx) k hk i hi
    rw [hbytes b (by omega) hhi] at hspan
    exact Finset.disjoint_left.1 hdis (start_mem_liveSpan _) hspan
  · have hl := not_le.1 hs
    have hdis := h.mmSafe.liveFree a (mem_pageLive_large ha hl) k hk i hi
    exact Finset.disjoint_left.1 hdis (h.area_large ha hl hb) hspan

theorem Inv.safe (h : Inv fixed carved F s p)
    (hker : rangePages 0x80000 L.stackTop ⊆ fixed.biUnion DyadicBlock.pages) : Safe L s := by
  constructor
  · have hpw := h.nodup
    rw [List.Nodup, List.pairwise_map] at hpw
    exact List.Pairwise.imp_of_mem (fun ha hb hne => h.area_apart ha hb hne) hpw
  · intro a ha c e he
    rw [Finset.disjoint_left]
    intro b hb hbe
    exact h.area_header ha hb (h.isAnyChunk he) (Finset.mem_Ico.1 hbe)
  · exact fun a ha k hk i hi => h.area_buddy ha hk hi
  · intro a ha hl i hi horder hin
    apply horder
    apply h.plainOrder i hi
    rintro x hx rfl
    exact h.large_carved ha hl hx hin
  · intro c e he
    obtain ⟨hc, hch⟩ := h.chunk (h.isAnyChunk he)
    obtain ⟨x, hx, rfl, hbytes⟩ := h.chunk_page hch
    have hslot : slot x.2 = 2 ^ (x.2 + 4) + headerSize := rfl
    have hpow : 0 < 2 ^ (x.2 + 4) := by positivity
    have hfirst := hbytes e le_rfl (by omega)
    rw [h.cacheSize _ hc, hfirst]
    exact ⟨(h.carvedOrder x hx).2, hbytes _ (by omega) (by omega)⟩
  · intro a ha hs
    obtain ⟨-, hc, hsize⟩ := cacheOf_spec hs
    rw [h.cacheSize _ hc]
    exact ⟨hsize, ((h.free_cases hker ha).resolve_right fun hl => absurd hl.1 (not_lt.2 hs)).2⟩
  · intro a ha hl
    exact ((h.free_cases hker ha).resolve_left fun hs => absurd hl (not_lt.2 hs.1)).2

def Running (fixed : Finset DyadicBlock) (s : Sys) : Prop :=
  ∃ carved F p, Inv fixed carved F s p

theorem Inv.requestPage_eq (h : Inv fixed carved F ⟨st, live⟩ p) (hc : c < cacheNum) :
    requestPage st c = st ∧ candidate st.mm pageSize = none ∨
      ∃ i, candidate st.mm pageSize = some i ∧
        requestPage st c = carvePage st c (pageSize / slot c - 1) := by
  cases hi : candidate st.mm pageSize with
  | none =>
      left
      rw [requestPage, h.alloc_null hi]
      exact ⟨rfl, rfl⟩
  | some i =>
      right
      obtain ⟨p', hpage, hi0, ht⟩ := h.alloc_block hi
      have hsafe := ht.safe (ht.zero_not_free h.zero)
      have hin := hsafe.liveInside _ List.mem_cons_self _ (start_mem_liveSpan _)
      rw [← pageNum_mul_pageSize, Nat.mul_div_cancel _ pageSize_pos] at hin
      have hlt : i < pageNum := Nat.le_of_mul_le_mul_right hin pageSize_pos
      have hne : i * pageSize ≠ 0 := Nat.mul_ne_zero hi0 pageSize_pos.ne'
      refine ⟨i, rfl, ?_⟩
      have hsize : (st.kmemCaches c).cacheSize + headerSize = slot c := by
        rw [h.cacheSize c hc, slot]
      simp only [requestPage, carvePage, hpage, if_neg hne, pageIdx_page hlt, Int.toNat_natCast,
        Nat.mul_div_cancel _ pageSize_pos]
      simp only [chunkNum, State.setCacheOrder, hsize]
      rfl

theorem chunks_of_page (hc : c < cacheNum) : 1 < pageSize / slot c := by
  have hcases : c = 0 ∨ c = 1 ∨ c = 2 ∨ c = 3 := by
    have : cacheNum = 4 := rfl
    omega
  rcases hcases with rfl | rfl | rfl | rfl <;> decide

theorem Inv.carve_page (h : Inv fixed carved F ⟨st, live⟩ p) (hc : c < cacheNum)
    (hi : candidate st.mm pageSize = some i) : ∃ p', Inv fixed ((i * pageSize, c) :: carved)
      (fun c' e => F c' e ∨ (c' = c ∧ ∃ j < pageSize / slot c - 1, e = i * pageSize + j * slot c))
      ⟨carvePage st c (pageSize / slot c - 1), live⟩ p' :=
  h.carve hc hi ((Nat.mul_le_mul_right _ (Nat.sub_le _ _)).trans (Nat.div_mul_le_self _ _))

/-- The list of a class is not empty after a page was carved for it. -/
theorem Inv.carve_freeList (h : Inv fixed carved F ⟨st, live⟩ p) (hc : c < cacheNum)
    (hi : candidate st.mm pageSize = some i) :
    (carvePage st c (pageSize / slot c - 1)).freeList c ≠ 0 := by
  obtain ⟨p', h'⟩ := h.carve_page hc hi
  intro hnone
  have hfirst := Lists.head_none (b := i * pageSize) h'.lists hc
    (show toPtr ((carvePage st c (pageSize / slot c - 1)).freeList c) = none by rw [hnone, toPtr_zero])
  refine hfirst (Or.inr ⟨rfl, 0, ?_, by rw [Nat.zero_mul, Nat.add_zero]⟩)
  have := chunks_of_page hc
  omega

/-- What a call of `alloc` does: nothing, or it takes a large block, or pops a chunk of a list, or
carves a page for an empty list and pops a chunk of it. -/
inductive AllocCase (st : State) (size : ℕ) : State × ℕ → Prop
  | null (hno : 0 < size → size ≤ maxChunkSize → candidate st.mm pageSize = none) :
      AllocCase st size (st, 0)
  | large {i : ℕ} (hl : maxChunkSize < size) (hi : candidate st.mm size = some i) (hne : i ≠ 0) :
      AllocCase st size ({ st with mm := (Mm.alloc st.mm size).1 }, i * pageSize)
  | small (hpos : 0 < size) (hs : size ≤ maxChunkSize) (hne : st.freeList (cacheOf size) ≠ 0) :
      AllocCase st size
        (kmemFreelistPop st (cacheOf size), st.freeList (cacheOf size) + headerSize)
  | carve {i : ℕ} {st' : State} (hpos : 0 < size) (hs : size ≤ maxChunkSize)
      (hempty : st.freeList (cacheOf size) = 0) (hi : candidate st.mm pageSize = some i)
      (heq : st' = carvePage st (cacheOf size) (pageSize / slot (cacheOf size) - 1))
      (hne : st'.freeList (cacheOf size) ≠ 0) :
      AllocCase st size
        (kmemFreelistPop st' (cacheOf size), st'.freeList (cacheOf size) + headerSize)

theorem Inv.kmalloc_cases (h : Inv fixed carved F ⟨st, live⟩ p) (hpos : 0 < size)
    (hs : size ≤ maxChunkSize) : AllocCase st size (kmalloc st size) := by
  obtain ⟨horder, hc, -⟩ := cacheOf_spec hs
  have hle : 1 <<< getChunkOrder size ≤ maxChunkSize := by
    rw [horder, Nat.one_shiftLeft]
    have hpow := Nat.pow_le_pow_right (show 0 < 2 by omega) (show cacheOf size + 4 ≤ 7 from by
      have : cacheNum = 4 := rfl
      omega)
    exact hpow
  have hpow : 1 <<< getChunkOrder size ≠ 0 := by
    rw [Nat.one_shiftLeft]
    positivity
  have hcall : ∀ st', (if st.freeList (cacheOf size) = 0 then requestPage st (cacheOf size) else st) =
      st' → kmalloc st size = if st'.freeList (cacheOf size) = 0 then (st', 0)
        else (kmemFreelistPop st' (cacheOf size), st'.freeList (cacheOf size) + headerSize) := by
    rintro st' rfl
    simp only [kmalloc, if_neg hpow, if_neg (not_lt.2 hle)]
    rfl
  by_cases hempty : st.freeList (cacheOf size) = 0
  · rcases h.requestPage_eq hc with ⟨heq, hnone⟩ | ⟨i, hi, heq⟩
    · rw [hcall st (by rw [if_pos hempty, heq]), if_pos hempty]
      exact AllocCase.null fun _ _ => hnone
    · have hne := h.carve_freeList hc hi
      rw [hcall _ (by rw [if_pos hempty, heq]), if_neg hne]
      exact AllocCase.carve hpos hs hempty hi rfl hne
  · rw [hcall st (by rw [if_neg hempty]), if_neg hempty]
    exact AllocCase.small hpos hs hempty

theorem Inv.alloc_cases (h : Inv fixed carved F ⟨st, live⟩ p) (size : ℕ) :
    AllocCase st size (alloc st size) := by
  by_cases h0 : size = 0
  · rw [alloc, if_pos h0]
    exact AllocCase.null fun hpos _ => absurd h0 hpos.ne'
  by_cases hl : maxChunkSize < size
  · rw [alloc, if_neg h0, if_pos hl]
    cases hi : candidate st.mm size with
    | none =>
        rw [h.alloc_null hi]
        exact AllocCase.null fun _ hs => absurd hs (not_le.2 hl)
    | some i =>
        obtain ⟨-, hpage, hi0, -⟩ := h.alloc_block hi
        simp only [hpage]
        exact AllocCase.large hl hi hi0
  · rw [alloc, if_neg h0, if_neg hl]
    exact h.kmalloc_cases (Nat.pos_of_ne_zero h0) (not_lt.1 hl)

/-- The state of a client after a call of `alloc`. -/
theorem step_alloc (L : Layout) (st : State) (live : List (ℕ × ℕ)) (size : ℕ) {r : State × ℕ}
    (heq : alloc st size = r) : Sys.step L ⟨st, live⟩ (.alloc size) =
      ⟨r.1, if r.2 = 0 then live else (r.2, size) :: live⟩ := by
  rw [← heq]
  rfl

theorem Inv.alloc (h : Inv fixed carved F ⟨st, live⟩ p) (size : ℕ) :
    Running fixed (Sys.step L ⟨st, live⟩ (.alloc size)) := by
  rcases heq : Alloc.alloc st size with ⟨st', ptr⟩
  rw [step_alloc L st live size heq]
  have hcase := heq ▸ h.alloc_cases size
  cases hcase with
  | null _ => exact ⟨carved, F, p, h⟩
  | large hl hi hne =>
      obtain ⟨p', h'⟩ := h.allocLarge hi hl
      rw [if_neg (Nat.mul_ne_zero hne pageSize_pos.ne')]
      exact ⟨carved, F, p', h'⟩
  | small hpos hs hne =>
      rw [if_neg (by simp [headerSize])]
      exact ⟨_, _, _, h.pop hs hne⟩
  | carve hpos hs hempty hi hst hne =>
      obtain ⟨p', h'⟩ := h.carve_page (cacheOf_spec hs).2.1 hi
      rw [if_neg (by simp [headerSize])]
      subst hst
      exact ⟨_, _, _, h'.pop hs hne⟩

theorem Inv.free (h : Inv fixed carved F ⟨st, live⟩ p)
    (hker : rangePages 0x80000 L.stackTop ⊆ fixed.biUnion DyadicBlock.pages) (ha : a ∈ live) :
    Running fixed ⟨free L st a.1, live.erase a⟩ := by
  rcases h.free_cases hker ha with ⟨hs, heq⟩ | ⟨hl, heq⟩
  · rw [heq]
    exact ⟨_, _, _, h.push ha hs⟩
  · rw [heq]
    obtain ⟨p', h'⟩ := h.freeLarge ha hl
    exact ⟨_, _, p', h'⟩

theorem running_stable (hker : rangePages 0x80000 L.stackTop ⊆ fixed.biUnion DyadicBlock.pages) :
    Runs.Stable (Sys.Step L) (Running fixed) := by
  rintro ⟨st, live⟩ _ ⟨carved, F, p, h⟩ ⟨op, hvalid, rfl⟩
  cases op with
  | alloc size => exact h.alloc size
  | free ptr size => exact h.free hker hvalid
  | write addr value =>
      obtain ⟨h8, a, ha, i, hi, hlo, hhi⟩ := hvalid
      exact ⟨_, _, _, h.write h8 ha hi hlo hhi⟩

/-- A round of the second loop of `kmem_cache_init` carves a page, or there is none and the loop
ends. -/
theorem Inv.initLoop_cases (h : Inv fixed carved F ⟨st, live⟩ p) (hi : i < cacheNum)
    (hempty : st.freeList i = 0) (n : ℕ) :
    kmemCacheInitLoop (n + 1) i st = st ∨ ∃ b, candidate st.mm pageSize = some b ∧
      kmemCacheInitLoop (n + 1) i st =
        kmemCacheInitLoop n (i + 1) (carvePage st i (pageSize / slot i)) := by
  cases hcand : candidate st.mm pageSize with
  | none =>
      left
      simp only [kmemCacheInitLoop, h.alloc_null hcand, if_true]
  | some b =>
      right
      obtain ⟨p₁, hpage, hb0, ht⟩ := h.alloc_block hcand
      have hsafe := ht.safe (ht.zero_not_free h.zero)
      have hin := hsafe.liveInside _ List.mem_cons_self _ (start_mem_liveSpan _)
      rw [← pageNum_mul_pageSize, Nat.mul_div_cancel _ pageSize_pos] at hin
      have hlt : b < pageNum := Nat.le_of_mul_le_mul_right hin pageSize_pos
      have hne : b * pageSize ≠ 0 := Nat.mul_ne_zero hb0 pageSize_pos.ne'
      have hsize : (st.kmemCaches i).cacheSize + headerSize = slot i := by
        rw [h.cacheSize i hi, slot]
      -- the list is empty already, so clearing it changes nothing
      have hclear : ∀ st' : State, st'.kmemCaches = st.kmemCaches → st'.setFreeList i 0 = st' := by
        intro st' hst'
        have hfree : (st'.kmemCaches i).freeList = 0 := by
          rw [hst']
          exact hempty
        have hsame : ({ st'.kmemCaches i with freeList := 0 } : KmemCache) = st'.kmemCaches i := by
          rw [← hfree]
        rw [State.setFreeList, hsame, Function.update_eq_self]
      refine ⟨b, rfl, ?_⟩
      simp only [kmemCacheInitLoop, carvePage, hpage, if_neg hne, pageIdx_page hlt,
        Int.toNat_natCast, Nat.mul_div_cancel _ pageSize_pos]
      rw [hclear]
      · simp only [chunkNum, State.setCacheOrder, hsize]
        rfl
      · rfl

theorem carvePage_freeList {n : ℕ} (hci : c ≠ i) : (carvePage st i n).freeList c = st.freeList c := by
  rw [carvePage, pushChunks_freeList _ _ _ hci]
  rfl

theorem kmemCacheInitLoop_running (n i : ℕ) (hn : i + n = cacheNum)
    (h : Inv fixed carved F ⟨st, []⟩ p) (hempty : ∀ c, i ≤ c → c < cacheNum → st.freeList c = 0) :
    Running fixed ⟨kmemCacheInitLoop n i st, []⟩ := by
  induction n generalizing i st carved F p with
  | zero => exact ⟨carved, F, p, h⟩
  | succ n ih =>
      have hi : i < cacheNum := by omega
      rcases h.initLoop_cases hi (hempty i le_rfl hi) n with heq | ⟨b, hcand, heq⟩
      · rw [heq]
        exact ⟨carved, F, p, h⟩
      · obtain ⟨p', h'⟩ := h.carve hi hcand (Nat.div_mul_le_self pageSize (slot i))
        rw [heq]
        refine ih (i + 1) (by omega) h' fun c hc hlt => ?_
        rw [carvePage_freeList (by omega)]
        exact hempty c (by omega) hlt

/-- The reservations of `main`. -/
theorem main_booted (L : Layout) :
    Booted (reserve (reserve mmInit 0 0x1000) 0x80000 L.stackTop)
      (rangePages 0 0x1000 ∪ rangePages 0x80000 L.stackTop) := by
  have himage := L.image
  have htop : L.stackTop = (L.bssEnd + 15) / 16 * 16 + 0x10000 := rfl
  refine Booted.next (Booted.first (by decide) (by decide) (by decide)) (by omega) L.fits ?_
  rw [Finset.disjoint_left]
  intro i hi hi'
  rw [rangePages, Finset.mem_Icc] at hi hi'
  have hps : pageSize = 4096 := rfl
  rw [hps] at hi hi'
  omega

/-- The state in which `kmem_cache_init` starts its second loop: nothing is carved or held. -/
theorem BootPool.inv {mm : Mm.State} {reserved : Finset ℕ} (h : BootPool mm reserved p)
    (hcache : ∀ i < pageNum, (mm.pageList i).cacheOrder = -1) (h0 : 0 ∈ reserved)
    (mem : ℕ → ℕ) {kmemCaches : ℕ → KmemCache}
    (hk : ∀ c < cacheNum, kmemCaches c = ⟨2 ^ (c + 4), 0⟩) :
    Inv p.used [] (fun _ _ => False) ⟨⟨mm, mem, kmemCaches⟩, []⟩ p := by
  have hfixed : p.used.biUnion DyadicBlock.pages = reserved := h.used
  refine ⟨⟨h.rep, ?_, List.nodup_nil, ?_, ?_⟩, hfixed ▸ h0, ?_, ?_, ?_, ⟨?_, ?_⟩, ?_, ?_,
    List.nodup_nil⟩
  · exact (Finset.union_empty _).symm
  · exact fun a ha => absurd ha List.not_mem_nil
  · exact fun a ha => absurd ha List.not_mem_nil
  · intro c hc
    exact congrArg KmemCache.cacheSize (hk c hc)
  · exact fun x hx => absurd hx List.not_mem_nil
  · exact fun i hi _ => hcache i hi
  · intro c hc
    refine ⟨[], ?_, fun i => by simp⟩
    exact congrArg (fun k : KmemCache => toPtr k.freeList) (hk c hc)
  · exact fun _ _ _ hF => absurd hF id
  · exact fun _ _ hF => absurd hF id
  · exact fun a ha => absurd ha List.not_mem_nil

/-- The second loop of `kmem_cache_init` starts with the kernel reserved and nothing carved. -/
theorem boot_inv (L : Layout) (mem : ℕ → ℕ) (kmemCaches : ℕ → KmemCache) :
    ∃ fixed p st, rangePages 0x80000 L.stackTop ⊆ fixed.biUnion DyadicBlock.pages ∧
      boot L mem kmemCaches = kmemCacheInitLoop cacheNum 0 st ∧
      Inv fixed [] (fun _ _ => False) ⟨st, []⟩ p ∧ ∀ c < cacheNum, st.freeList c = 0 := by
  have hbooted := main_booted L
  obtain ⟨p, hp⟩ := hbooted.bootPool
  have hfixed := hp.used
  rw [BlockPool.usedPages] at hfixed
  have hcaches : ∀ c < cacheNum,
      (if c < cacheNum then { cacheSize := 1 <<< (c + 4), freeList := 0 } else kmemCaches c :
        KmemCache) = ⟨2 ^ (c + 4), 0⟩ := by
    intro c hc
    rw [if_pos hc, Nat.one_shiftLeft]
  have hinv := BootPool.inv hp (fun i hi => hbooted.cacheOrder hi) hbooted.zero_mem mem hcaches
  refine ⟨p.used, p, _, ?_, ?_, hinv, fun c hc => congrArg KmemCache.freeList (hcaches c hc)⟩
  · rw [hfixed]
    exact Finset.subset_union_right
  · simp only [boot, kmemCacheInit]

theorem boot_running (L : Layout) (mem : ℕ → ℕ) (kmemCaches : ℕ → KmemCache) :
    ∃ fixed, rangePages 0x80000 L.stackTop ⊆ fixed.biUnion DyadicBlock.pages ∧
      Running fixed ⟨boot L mem kmemCaches, []⟩ := by
  obtain ⟨fixed, p, st, hker, heq, hinv, hempty⟩ := boot_inv L mem kmemCaches
  refine ⟨fixed, hker, ?_⟩
  rw [heq]
  exact kmemCacheInitLoop_running cacheNum 0 (Nat.zero_add _) hinv fun c _ hc => hempty c hc

end OscKernel.Alloc
