import OscKernel.ChunkLists
import OscKernel.PageCacheOrder
import OscKernel.PageSafety

/-!
# The invariant of the dynamic allocator

Both allocators share `page_list`. The invariant keeps the list `carved` of the pages that were cut
into chunks, with the cache they belong to: the page allocator sees each of them as a held block of
one page, next to the large blocks of the clients, and `cache_order` marks exactly these pages. The
entries on the chunk lists and the small blocks of the clients lie on the grid of a carved page.
-/

namespace OscKernel.Alloc

open Linked Mm

def slot (c : ℕ) : ℕ := 2 ^ (c + 4) + headerSize

def IsChunk (carved : List (ℕ × ℕ)) (c e : ℕ) : Prop :=
  ∃ page, (page, c) ∈ carved ∧ ∃ j, (j + 1) * slot c ≤ pageSize ∧ e = page + j * slot c

def cacheOf (size : ℕ) : ℕ := getChunkOrder size - minCacheOrder

theorem cacheOf_spec {size : ℕ} (h : size ≤ maxChunkSize) :
    getChunkOrder size = cacheOf size + 4 ∧ cacheOf size < cacheNum ∧ size ≤ 2 ^ (cacheOf size + 4) := by
  have hm : maxChunkSize = 2 ^ 7 := rfl
  have hbig : (2 : ℕ) ^ 7 ≤ 2 ^ (4 + 28) := by decide
  obtain ⟨h₁, h₂, h₃⟩ := getOrderLoop_spec size 28 4 (by omega)
  have h₄ := h₃ 7 (by omega) (by omega)
  have heq : getOrderLoop size 28 4 = cacheOf size + 4 := (Nat.sub_add_cancel h₂).symm
  rw [heq] at h₁ h₄
  exact ⟨heq, show cacheOf size < 4 by omega, h₁⟩

/-- A client of the allocator: the blocks it holds, by address and requested size. -/
structure Sys where
  heap : State
  live : List (ℕ × ℕ)

def pageLive (carved live : List (ℕ × ℕ)) : List (ℕ × ℕ) :=
  live.filter (fun a => maxChunkSize < a.2) ++ carved.map fun x => (x.1, pageSize)

structure Inv (fixed : Finset DyadicBlock) (carved : List (ℕ × ℕ)) (F : ℕ → ℕ → Prop) (s : Sys)
    (p : BlockPool) : Prop where
  tracks : Tracks fixed ⟨s.heap.mm, pageLive carved s.live⟩ p
  zero : 0 ∈ fixed.biUnion DyadicBlock.pages
  cacheSize : ∀ c < cacheNum, (s.heap.kmemCaches c).cacheSize = 2 ^ (c + 4)
  carvedOrder : ∀ x ∈ carved, x.2 < cacheNum ∧
    (s.heap.mm.pageList (x.1 / pageSize)).cacheOrder = (x.2 + 4 : ℕ)
  plainOrder : ∀ i < pageNum, (∀ x ∈ carved, x.1 / pageSize ≠ i) →
    (s.heap.mm.pageList i).cacheOrder = -1
  lists : ListsHold s.heap F
  freeChunk : ∀ c e, F c e → c < cacheNum ∧ IsChunk carved c e
  liveChunk : ∀ a ∈ s.live, a.2 ≤ maxChunkSize → headerSize ≤ a.1 ∧
    IsChunk carved (cacheOf a.2) (a.1 - headerSize) ∧ ∀ c, ¬ F c (a.1 - headerSize)
  nodup : (s.live.map Prod.fst).Nodup

variable {fixed : Finset DyadicBlock} {carved : List (ℕ × ℕ)} {F : ℕ → ℕ → Prop} {s : Sys}
  {p : BlockPool} {a b x : ℕ × ℕ} {c c' e e' i : ℕ}

theorem mem_pageLive_large {live : List (ℕ × ℕ)} (ha : a ∈ live) (hl : maxChunkSize < a.2) :
    a ∈ pageLive carved live :=
  List.mem_append_left _ (List.mem_filter.2 ⟨ha, by simpa using hl⟩)

theorem mem_pageLive_carved {live : List (ℕ × ℕ)} (hx : x ∈ carved) :
    (x.1, pageSize) ∈ pageLive carved live :=
  List.mem_append_right _ (List.mem_map_of_mem hx)

theorem pageLive_small {live : List (ℕ × ℕ)} (hs : a.2 ≤ maxChunkSize) :
    pageLive carved (a :: live) = pageLive carved live := by
  rw [pageLive, List.filter_cons_of_neg (by simpa using hs)]
  rfl

theorem pageLive_large {live : List (ℕ × ℕ)} (hl : maxChunkSize < a.2) :
    pageLive carved (a :: live) = a :: pageLive carved live := by
  rw [pageLive, List.filter_cons_of_pos (by simpa using hl)]
  rfl

theorem pageLive_erase_small {live : List (ℕ × ℕ)} (hs : a.2 ≤ maxChunkSize) :
    pageLive carved (live.erase a) = pageLive carved live := by
  rw [pageLive, ← List.erase_filter, List.erase_of_not_mem]
  · rfl
  · intro hm
    have := (List.mem_filter.1 hm).2
    simp only [decide_eq_true_eq] at this
    omega

theorem pageLive_erase_large {live : List (ℕ × ℕ)} (ha : a ∈ live) (hl : maxChunkSize < a.2) :
    pageLive carved (live.erase a) = (pageLive carved live).erase a := by
  rw [pageLive, pageLive, List.erase_append_left, List.erase_filter]
  exact List.mem_filter.2 ⟨ha, by simpa using hl⟩

theorem liveSpan_page (page : ℕ) : liveSpan (page, pageSize) = {page / pageSize} := by
  have ho : reqOrder pageSize = 0 := by decide
  rw [liveSpan, ho, span, pow_zero]
  exact Nat.Ico_succ_singleton _

theorem Inv.mmSafe (h : Inv fixed carved F s p) :
    Mm.Safe (fixed.biUnion DyadicBlock.pages) ⟨s.heap.mm, pageLive carved s.live⟩ :=
  h.tracks.safe (h.tracks.zero_not_free h.zero)

theorem Inv.carved_page (h : Inv fixed carved F s p) (hx : x ∈ carved) :
    pageSize ∣ x.1 ∧ 0 < x.1 ∧ x.1 / pageSize < pageNum := by
  have hm : (x.1, pageSize) ∈ pageLive carved s.live := mem_pageLive_carved hx
  refine ⟨(h.mmSafe.liveStart _ hm).1, (h.tracks.addr _ hm).2.1, ?_⟩
  have hin := h.mmSafe.liveInside _ hm (x.1 / pageSize)
    (liveSpan_page x.1 ▸ Finset.mem_singleton_self _)
  rw [← pageNum_mul_pageSize] at hin
  exact Nat.le_of_mul_le_mul_right hin pageSize_pos

theorem Inv.large_carved (h : Inv fixed carved F s p) (ha : a ∈ s.live) (hl : maxChunkSize < a.2)
    (hx : x ∈ carved) : x.1 / pageSize ∉ liveSpan a := by
  have hpw := h.mmSafe.liveApart
  rw [pageLive, List.pairwise_append] at hpw
  have hdis := hpw.2.2 a (List.mem_filter.2 ⟨ha, by simpa using hl⟩) (x.1, pageSize)
    (List.mem_map_of_mem hx)
  rw [liveSpan_page] at hdis
  exact fun hin => Finset.disjoint_left.1 hdis hin (Finset.mem_singleton_self _)

theorem Inv.carved_inj (h : Inv fixed carved F s p) {y : ℕ × ℕ} (hx : x ∈ carved) (hy : y ∈ carved)
    (heq : x.1 / pageSize = y.1 / pageSize) : x = y := by
  have hnd := h.tracks.nodup
  rw [pageLive, List.map_append, List.map_map] at hnd
  have hnd' := (List.nodup_append.1 hnd).2.1
  refine List.inj_on_of_nodup_map hnd' hx hy ?_
  simp only [Function.comp_apply, liveBlock, heq]

theorem slot_dvd (c : ℕ) : 16 ∣ slot c := by
  rw [slot, pow_add]
  exact Nat.dvd_add (Nat.dvd_mul_left _ _) (Nat.dvd_refl 16)

theorem slot_pos (c : ℕ) : 0 < slot c := Nat.add_pos_right _ (by decide)

theorem IsChunk.in_page (he : IsChunk carved c e) :
    ∃ page, (page, c) ∈ carved ∧ page ≤ e ∧ e + slot c ≤ page + pageSize := by
  obtain ⟨page, hp, j, hj, rfl⟩ := he
  rw [Nat.add_mul, Nat.one_mul] at hj
  exact ⟨page, hp, by omega, by omega⟩

theorem Inv.chunk_aligned (h : Inv fixed carved F s p) (he : IsChunk carved c e) :
    16 ∣ e ∧ e ≠ 0 := by
  obtain ⟨page, hp, j, hj, rfl⟩ := he
  obtain ⟨hdvd, hpos, -⟩ := h.carved_page hp
  have h16 : 16 ∣ page := (show 16 ∣ pageSize by decide).trans hdvd
  have hpos' : 0 < page := hpos
  exact ⟨Nat.dvd_add h16 ((slot_dvd c).trans (Nat.dvd_mul_left _ _)), by omega⟩

/-- All bytes of a chunk lie in its page. -/
theorem Inv.chunk_page (h : Inv fixed carved F s p) (he : IsChunk carved c e) :
    ∃ x ∈ carved, x.2 = c ∧ ∀ i, e ≤ i → i < e + slot c → i / pageSize = x.1 / pageSize := by
  obtain ⟨page, hp, hlo, hhi⟩ := he.in_page
  obtain ⟨⟨q, hq⟩, -, -⟩ := h.carved_page hp
  refine ⟨_, hp, rfl, fun i hi hi' => ?_⟩
  have hps : pageSize = 4096 := rfl
  simp only [hps] at *
  omega

/-- Two chunks that share a byte are the same chunk. -/
theorem Inv.chunk_apart (h : Inv fixed carved F s p) (he : IsChunk carved c e)
    (he' : IsChunk carved c' e') (hi : e ≤ i ∧ i < e + slot c) (hi' : e' ≤ i ∧ i < e' + slot c') :
    c = c' ∧ e = e' := by
  obtain ⟨x, hx, hxc, hbytes⟩ := h.chunk_page he
  obtain ⟨y, hy, hyc, hbytes'⟩ := h.chunk_page he'
  obtain ⟨page, hp, j, hj, rfl⟩ := he
  obtain ⟨page', hp', j', hj', rfl⟩ := he'
  have hpage : ∀ z ∈ carved, ∀ j k, (j + 1) * slot k ≤ pageSize → z.1 + j * slot k ≤ i →
      i < z.1 + j * slot k + slot k → i / pageSize = z.1 / pageSize := by
    intro z hz j k hj hlo hhi
    obtain ⟨⟨q, hq⟩, -, -⟩ := h.carved_page hz
    rw [Nat.add_mul, Nat.one_mul] at hj
    have hps : pageSize = 4096 := rfl
    simp only [hps] at *
    omega
  have heq := h.carved_inj hp hp' (((hpage _ hp j c hj hi.1 hi.2).symm.trans
    (hpage _ hp' j' c' hj' hi'.1 hi'.2)))
  obtain ⟨rfl, rfl⟩ := Prod.mk.inj heq
  refine ⟨rfl, ?_⟩
  rcases Nat.lt_trichotomy j j' with hlt | rfl | hlt
  · have := Nat.mul_le_mul_right (slot c) hlt
    rw [Nat.succ_mul] at this
    omega
  · rfl
  · have := Nat.mul_le_mul_right (slot c) hlt
    rw [Nat.succ_mul] at this
    omega

theorem Inv.aligned (h : Inv fixed carved F s p) : Aligned F :=
  fun c e he => h.chunk_aligned (h.freeChunk c e he).2

def area (a : ℕ × ℕ) : Finset ℕ := Finset.Ico a.1 (a.1 + a.2)

theorem Inv.area_large (h : Inv fixed carved F s p) (ha : a ∈ s.live) (hl : maxChunkSize < a.2)
    (hi : i ∈ area a) : i / pageSize ∈ liveSpan a := by
  have hm : a ∈ pageLive carved s.live := mem_pageLive_large ha hl
  obtain ⟨⟨q, hq⟩, -⟩ := h.mmSafe.liveStart a hm
  have hle : a.2 ≤ 2 ^ reqOrder a.2 * pageSize := (h.mmSafe.liveOrder a hm).2.1
  obtain ⟨hlo, hhi⟩ := Finset.mem_Ico.1 hi
  rw [liveSpan, span, Finset.mem_Ico]
  have hps : pageSize = 4096 := rfl
  simp only [hps] at *
  omega

/-- A small block lies behind the header of its chunk. -/
theorem Inv.area_small (h : Inv fixed carved F s p) (ha : a ∈ s.live) (hs : a.2 ≤ maxChunkSize)
    (hi : i ∈ area a) : a.1 - headerSize + headerSize ≤ i ∧
      i < a.1 - headerSize + slot (cacheOf a.2) := by
  obtain ⟨hlo, hhi⟩ := Finset.mem_Ico.1 hi
  have hge := (h.liveChunk a ha hs).1
  have hsz := (cacheOf_spec hs).2.2
  rw [slot]
  omega

/-- The block at `e` is a chunk of cache `c` that is on its list or held by a client. -/
def Chunk (F : ℕ → ℕ → Prop) (live : List (ℕ × ℕ)) (c e : ℕ) : Prop :=
  F c e ∨ ∃ a ∈ live, a.2 ≤ maxChunkSize ∧ c = cacheOf a.2 ∧ e = a.1 - headerSize

theorem Inv.chunk (h : Inv fixed carved F s p) (he : Chunk F s.live c e) :
    c < cacheNum ∧ IsChunk carved c e := by
  rcases he with he | ⟨a, ha, hs, rfl, rfl⟩
  · exact h.freeChunk c e he
  · exact ⟨(cacheOf_spec hs).2.1, (h.liveChunk a ha hs).2.1⟩

/-- No byte of a held block lies in the header of a piece of a carved page. -/
theorem Inv.area_piece (h : Inv fixed carved F s p) (ha : a ∈ s.live) (hi : i ∈ area a)
    (hch : IsChunk carved c e) : ¬ (e ≤ i ∧ i < e + headerSize) := by
  rintro ⟨hlo, hhi⟩
  have hslot : i < e + slot c := by
    have hpow : 0 < 2 ^ (c + 4) := by positivity
    rw [slot]
    omega
  by_cases hs : a.2 ≤ maxChunkSize
  · obtain ⟨hlo', hhi'⟩ := h.area_small ha hs hi
    obtain ⟨rfl, rfl⟩ := h.chunk_apart hch (h.liveChunk a ha hs).2.1 ⟨hlo, hslot⟩ ⟨by omega, hhi'⟩
    omega
  · obtain ⟨x, hx, -, hbytes⟩ := h.chunk_page hch
    apply h.large_carved ha (not_le.1 hs) hx
    rw [← hbytes i hlo hslot]
    exact h.area_large ha (not_le.1 hs) hi

/-- No byte of a held block lies in the header of a chunk. -/
theorem Inv.area_header (h : Inv fixed carved F s p) (ha : a ∈ s.live) (hi : i ∈ area a)
    (he : Chunk F s.live c e) : ¬ (e ≤ i ∧ i < e + headerSize) :=
  h.area_piece ha hi (h.chunk he).2

theorem Inv.area_apart (h : Inv fixed carved F s p) (ha : a ∈ s.live) (hb : b ∈ s.live)
    (hne : a.1 ≠ b.1) : Disjoint (area a) (area b) := by
  rw [Finset.disjoint_left]
  intro i hia hib
  have hmix : ∀ a ∈ s.live, ∀ b ∈ s.live, a.2 ≤ maxChunkSize → maxChunkSize < b.2 → i ∈ area a →
      i ∉ area b := by
    intro a ha b hb hs hl hia hib
    obtain ⟨hlo, hhi⟩ := h.area_small ha hs hia
    obtain ⟨x, hx, -, hbytes⟩ := h.chunk_page (h.liveChunk a ha hs).2.1
    apply h.large_carved hb hl hx
    rw [← hbytes i (by omega) hhi]
    exact h.area_large hb hl hib
  by_cases hs : a.2 ≤ maxChunkSize <;> by_cases hs' : b.2 ≤ maxChunkSize
  · obtain ⟨hlo, hhi⟩ := h.area_small ha hs hia
    obtain ⟨hlo', hhi'⟩ := h.area_small hb hs' hib
    have heq := (h.chunk_apart (h.liveChunk a ha hs).2.1 (h.liveChunk b hb hs').2.1
      ⟨by omega, hhi⟩ ⟨by omega, hhi'⟩).2
    have := (h.liveChunk a ha hs).1
    have := (h.liveChunk b hb hs').1
    omega
  · exact hmix a ha b hb hs (not_le.1 hs') hia hib
  · exact hmix b hb a ha hs' (not_le.1 hs) hib hia
  · have hm : a ∈ pageLive carved s.live := mem_pageLive_large ha (not_le.1 hs)
    have hm' : b ∈ pageLive carved s.live := mem_pageLive_large hb (not_le.1 hs')
    have hab : a ≠ b := fun he => hne (congrArg Prod.fst he)
    have hsymm : Std.Symm fun a b : ℕ × ℕ => Disjoint (liveSpan a) (liveSpan b) :=
      ⟨fun _ _ hd => hd.symm⟩
    have hdis := h.mmSafe.liveApart.forall hm hm' hab
    exact Finset.disjoint_left.1 hdis (h.area_large ha (not_le.1 hs) hia)
      (h.area_large hb (not_le.1 hs') hib)

end OscKernel.Alloc
