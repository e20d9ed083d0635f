import OscKernel.HeapInvariant

/-!
# The steps of the dynamic allocator keep its invariant

Popping a chunk for a client, pushing it back, carving a fresh page, and the calls that go through
to the page allocator.
-/

namespace OscKernel.Alloc

open Linked Mm

variable {fixed : Finset DyadicBlock} {carved : List (ℕ × ℕ)} {F F' : ℕ → ℕ → Prop} {s : Sys}
  {st : State} {live : List (ℕ × ℕ)} {p : BlockPool} {a b x : ℕ × ℕ} {c e i size : ℕ}

theorem Inv.area_start (h : Inv fixed carved F s p) (ha : a ∈ s.live) :
    (∀ x ∈ carved, a.1 / pageSize ≠ x.1 / pageSize) ∧ maxChunkSize < a.2 ∨
      a.2 ≤ maxChunkSize ∧ ∃ x ∈ carved, x.2 = cacheOf a.2 ∧ a.1 / pageSize = x.1 / pageSize := by
  by_cases hs : a.2 ≤ maxChunkSize
  · right
    obtain ⟨hge, hch, -⟩ := h.liveChunk a ha hs
    obtain ⟨x, hx, hxc, hbytes⟩ := h.chunk_page hch
    have hpow : 0 < 2 ^ (cacheOf a.2 + 4) := by positivity
    exact ⟨hs, x, hx, hxc, hbytes _ (by omega) (by rw [slot]; omega)⟩
  · left
    have hl := not_le.1 hs
    exact ⟨fun x hx heq => h.large_carved ha hl hx (heq ▸ start_mem_liveSpan a), hl⟩

theorem Inv.start_page (h : Inv fixed carved F s p) (ha : a ∈ s.live) :
    a.1 / pageSize < pageNum ∧ a.1 / pageSize ∉ fixed.biUnion DyadicBlock.pages ∧ 0 < a.1 := by
  have hreserved : ∀ y ∈ pageLive carved s.live,
      y.1 / pageSize < pageNum ∧ y.1 / pageSize ∉ fixed.biUnion DyadicBlock.pages := by
    intro y hy
    have hmem := start_mem_liveSpan y
    have hin := h.mmSafe.liveInside y hy _ hmem
    rw [← pageNum_mul_pageSize] at hin
    exact ⟨Nat.le_of_mul_le_mul_right hin pageSize_pos,
      Finset.disjoint_left.1 (h.mmSafe.liveReserved y hy) hmem⟩
  rcases h.area_start ha with ⟨-, hl⟩ | ⟨hs, x, hx, -, heq⟩
  · have hm : a ∈ pageLive carved s.live := mem_pageLive_large ha hl
    exact ⟨(hreserved a hm).1, (hreserved a hm).2, (h.tracks.addr a hm).2.1⟩
  · have hm : (x.1, pageSize) ∈ pageLive carved s.live := mem_pageLive_carved hx
    have hge := (h.liveChunk a ha hs).1
    rw [heq]
    exact ⟨(hreserved _ hm).1, (hreserved _ hm).2, lt_of_lt_of_le (by decide) hge⟩

theorem Inv.pop (h : Inv fixed carved F ⟨st, live⟩ p) (hs : size ≤ maxChunkSize)
    (hne : st.freeList (cacheOf size) ≠ 0) :
    Inv fixed carved (fun c e => F c e ∧ e ≠ st.freeList (cacheOf size))
      ⟨kmemFreelistPop st (cacheOf size), (st.freeList (cacheOf size) + headerSize, size) :: live⟩
      p := by
  set e := st.freeList (cacheOf size)
  have hc := (cacheOf_spec hs).2.1
  have hmem : F (cacheOf size) e := ListsHold.head_mem h.lists hc (toPtr_of_ne hne)
  have hch := (h.freeChunk _ _ hmem).2
  have hsub : e + headerSize - headerSize = e := Nat.add_sub_cancel _ _
  have hlists : ListsHold (kmemFreelistPop st (cacheOf size)) fun c i => F c i ∧ i ≠ e :=
    ListsHold.pop h.lists h.aligned hc hne fun c' i => Iff.rfl
  refine ⟨?_, h.zero, ?_, ?_, ?_, hlists, ?_, ?_, ?_⟩
  · rw [pageLive_small (show size ≤ maxChunkSize from hs), pop_mm]
    exact h.tracks
  · intro c' hc'
    rw [pop_cacheSize]
    exact h.cacheSize c' hc'
  · rw [pop_mm]
    exact h.carvedOrder
  · rw [pop_mm]
    exact h.plainOrder
  · exact fun c' i hi => h.freeChunk c' i hi.1
  · intro a ha has
    rcases List.mem_cons.1 ha with rfl | ha
    · refine ⟨Nat.le_add_left _ _, ?_, ?_⟩
      · rw [hsub]
        exact hch
      · rw [hsub]
        exact fun c' hF => hF.2 rfl
    · obtain ⟨hge, hach, hafree⟩ := h.liveChunk a ha has
      exact ⟨hge, hach, fun c' hF => hafree c' hF.1⟩
  · refine List.nodup_cons.2 ⟨fun hin => ?_, h.nodup⟩
    obtain ⟨a, ha, heq⟩ := List.mem_map.1 hin
    by_cases has : a.2 ≤ maxChunkSize
    · refine (h.liveChunk a ha has).2.2 (cacheOf size) ?_
      rwa [heq, hsub]
    · -- a large block does not start in a carved page
      obtain ⟨x, hx, -, hbytes⟩ := h.chunk_page hch
      have hpow : 0 < 2 ^ (cacheOf size + 4) := by positivity
      rcases h.area_start ha with ⟨hfar, -⟩ | ⟨hsmall, -⟩
      · apply hfar x hx
        rw [heq]
        exact hbytes _ (by omega) (by rw [slot]; omega)
      · exact has hsmall

theorem Inv.push (h : Inv fixed carved F ⟨st, live⟩ p) (ha : a ∈ live)
    (hs : a.2 ≤ maxChunkSize) :
    Inv fixed carved (fun c e => F c e ∨ (c = cacheOf a.2 ∧ e = a.1 - headerSize))
      ⟨kmemFreelistPush st (a.1 - headerSize) (cacheOf a.2), live.erase a⟩ p := by
  obtain ⟨hge, hch, hfresh⟩ := h.liveChunk a ha hs
  obtain ⟨h16, hpos⟩ := h.chunk_aligned hch
  have hc := (cacheOf_spec hs).2.1
  have hmem : ∀ b ∈ live.erase a, b ∈ live ∧ b ≠ a := fun b hb =>
    ((h.nodup.of_map.mem_erase_iff).1 hb).symm
  have hlists := ListsHold.push h.lists h.aligned hc h16 hpos hfresh fun c' i => Iff.rfl
  refine ⟨?_, h.zero, ?_, ?_, ?_, hlists, ?_, ?_, h.nodup.sublist (List.erase_sublist.map _)⟩
  · rw [pageLive_erase_small hs, push_mm]
    exact h.tracks
  · intro c' hc'
    rw [push_cacheSize]
    exact h.cacheSize c' hc'
  · rw [push_mm]
    exact h.carvedOrder
  · rw [push_mm]
    exact h.plainOrder
  · rintro c' i (hi | ⟨rfl, rfl⟩)
    · exact h.freeChunk c' i hi
    · exact ⟨hc, hch⟩
  · intro b hb hbs
    obtain ⟨hb, hne⟩ := hmem b hb
    obtain ⟨hbge, hbch, hbfree⟩ := h.liveChunk b hb hbs
    refine ⟨hbge, hbch, ?_⟩
    rintro c' (hF | ⟨rfl, heq⟩)
    · exact hbfree c' hF
    · exact hne (List.inj_on_of_nodup_map h.nodup hb ha (by omega))

/-- Writes of the clients inside their blocks. -/
theorem Inv.write (h : Inv fixed carved F ⟨st, live⟩ p) {addr value : ℕ} (h8 : 8 ∣ addr)
    (ha : a ∈ live) (hi : i ∈ area a) (hlo : addr ≤ i) (hhi : i < addr + 8) :
    Inv fixed carved F ⟨st.store addr value, live⟩ p := by
  have hspare : ∀ c e, F c e → addr ≠ e ∧ addr ≠ e + 8 := by
    intro c e he
    have h16 := (h.aligned c e he).1
    have hhead := h.area_header ha hi (Or.inl he)
    have hh : headerSize = 16 := rfl
    constructor <;> omega
  have hlists : ListsHold (st.store addr value) F := by
    apply ListsHold.write h.lists
    intro c e he
    obtain ⟨h₁, h₂⟩ := hspare c e he
    exact ⟨Function.update_of_ne h₁.symm _ _, Function.update_of_ne h₂.symm _ _⟩
  exact ⟨h.tracks, h.zero, h.cacheSize, h.carvedOrder, h.plainOrder, hlists, h.freeChunk, h.liveChunk,
    h.nodup⟩

theorem Inv.freeLarge (h : Inv fixed carved F ⟨st, live⟩ p) (ha : a ∈ live)
    (hl : maxChunkSize < a.2) :
    ∃ p', Inv fixed carved F ⟨{ st with mm := Mm.free st.mm a.1 }, live.erase a⟩ p' := by
  have hm : a ∈ pageLive carved live := mem_pageLive_large ha hl
  obtain ⟨p', ht, -⟩ := h.tracks.free hm
  have hcache := sameCache_free st.mm a.1
  refine ⟨p', ?_, h.zero, h.cacheSize, ?_, ?_, h.lists, h.freeChunk, ?_,
    h.nodup.sublist (List.erase_sublist.map _)⟩
  · rw [pageLive_erase_large ha hl]
    exact ht
  · intro x hx
    change x.2 < cacheNum ∧ ((Mm.free st.mm a.1).pageList _).cacheOrder = _
    rw [hcache]
    exact h.carvedOrder x hx
  · intro i hi hx
    change ((Mm.free st.mm a.1).pageList _).cacheOrder = _
    rw [hcache]
    exact h.plainOrder i hi hx
  · exact fun b hb => h.liveChunk b (List.mem_of_mem_erase hb)

theorem Inv.candidate_ne_zero (h : Inv fixed carved F ⟨st, live⟩ p) :
    candidate st.mm size ≠ some 0 := by
  intro hc
  obtain ⟨-, -, st', p', B, -, -, hal, hB, -⟩ := Mm.alloc_some h.tracks.rep hc
  exact h.tracks.zero_not_free h.zero (hal.pages (hB ▸ B.start_mem_pages))

theorem Inv.alloc_null (h : Inv fixed carved F ⟨st, live⟩ p) (hc : candidate st.mm size = none) :
    Mm.alloc st.mm size = (st.mm, 0) :=
  Mm.alloc_none h.tracks.rep hc

/-- A successful `_alloc` returns a block apart from all held ones. -/
theorem Inv.alloc_block (h : Inv fixed carved F ⟨st, live⟩ p) {i : ℕ}
    (hc : candidate st.mm size = some i) : ∃ p', (Mm.alloc st.mm size).2 = i * pageSize ∧ i ≠ 0 ∧
      Tracks fixed ⟨(Mm.alloc st.mm size).1, (i * pageSize, size) :: pageLive carved live⟩ p' := by
  have hi : i ≠ 0 := fun h0 => h.candidate_ne_zero (h0 ▸ hc)
  obtain ⟨p', B, ht, -, hlive, -⟩ := h.tracks.alloc_some hc hi
  obtain ⟨-, -, st', -, -, heq, -⟩ := Mm.alloc_some h.tracks.rep hc
  refine ⟨p', by rw [heq], hi, ?_⟩
  have hstep : Mm.Sys.step ⟨st.mm, pageLive carved live⟩ (.alloc size) =
      ⟨(Mm.alloc st.mm size).1, (i * pageSize, size) :: pageLive carved live⟩ := by
    rw [Mm.Sys.step] at hlive ⊢
    exact congrArg (Mm.Sys.mk _) hlive
  rwa [hstep] at ht

theorem Inv.allocLarge (h : Inv fixed carved F ⟨st, live⟩ p) {i : ℕ}
    (hc : candidate st.mm size = some i) (hl : maxChunkSize < size) :
    ∃ p', Inv fixed carved F
      ⟨{ st with mm := (Mm.alloc st.mm size).1 }, (i * pageSize, size) :: live⟩ p' := by
  obtain ⟨p', -, -, ht⟩ := h.alloc_block hc
  have hcache := sameCache_alloc st.mm size
  have hsafe := ht.safe (ht.zero_not_free h.zero)
  -- the new block starts on a page that no held block and no carved page has
  have hfresh : ∀ y ∈ pageLive carved live, y.1 / pageSize ≠ i := by
    intro y hy heq
    have hdis := (List.pairwise_cons.1 hsafe.liveApart).1 y hy
    have hmem : i ∈ liveSpan (i * pageSize, size) := by
      have hm := start_mem_liveSpan (i * pageSize, size)
      rwa [Nat.mul_div_cancel _ pageSize_pos] at hm
    have hmem' : i ∈ liveSpan y := heq ▸ start_mem_liveSpan y
    exact Finset.disjoint_left.1 hdis hmem hmem'
  refine ⟨p', ?_, h.zero, h.cacheSize, ?_, ?_, h.lists, h.freeChunk, ?_, ?_⟩
  · rw [pageLive_large (show maxChunkSize < size from hl)]
    exact ht
  · intro x hx
    change x.2 < cacheNum ∧ ((Mm.alloc st.mm size).1.pageList _).cacheOrder = _
    rw [hcache]
    exact h.carvedOrder x hx
  · intro j hj hx
    change ((Mm.alloc st.mm size).1.pageList _).cacheOrder = _
    rw [hcache]
    exact h.plainOrder j hj hx
  · intro b hb hbs
    rcases List.mem_cons.1 hb with rfl | hb
    · exact absurd hl (not_lt.2 hbs)
    · exact h.liveChunk b hb hbs
  · refine List.nodup_cons.2 ⟨fun hin => ?_, h.nodup⟩
    obtain ⟨b, hb, heq⟩ := List.mem_map.1 hin
    have hbi : b.1 / pageSize = i := by
      rw [heq, Nat.mul_div_cancel _ pageSize_pos]
    rcases h.area_start hb with ⟨-, hbl⟩ | ⟨-, x, hx, -, hbx⟩
    · exact hfresh b (mem_pageLive_large hb hbl) hbi
    · exact hfresh _ (mem_pageLive_carved hx) (hbx.symm.trans hbi)

/-- A fresh page from `_alloc`, marked with its cache and cut into its first `n` chunks. -/
def carvePage (st : State) (c n : ℕ) : State :=
  let page := (Mm.alloc st.mm pageSize).2
  pushChunks c (slot c) n page (({ st with mm := (Mm.alloc st.mm pageSize).1 } : State).setCacheOrder
    (page / pageSize) (c + 4 : ℕ))

theorem tracks_perm {mm : Mm.State} {l l' : List (ℕ × ℕ)} (h : Tracks fixed ⟨mm, l⟩ p)
    (hp : l.Perm l') : Tracks fixed ⟨mm, l'⟩ p := by
  have hmap := hp.map liveBlock
  exact ⟨h.rep, h.used.trans (by rw [List.toFinset_eq_of_perm _ _ hmap]), hmap.nodup_iff.1 h.nodup,
    fun a ha => h.fresh a (hp.mem_iff.2 ha), fun a ha => h.addr a (hp.mem_iff.2 ha)⟩

theorem tracks_sameBuddy {mm mm' : Mm.State} {l : List (ℕ × ℕ)} (h : Tracks fixed ⟨mm, l⟩ p)
    (hs : SameBuddy mm mm') : Tracks fixed ⟨mm', l⟩ p :=
  ⟨h.rep.sameBuddy hs, h.used, h.nodup, h.fresh, h.addr⟩

theorem setCacheOrder_sameBuddy (mm : Mm.State) (i : ℕ) (k : ℤ) :
    SameBuddy mm (mm.modify i fun e => { e with cacheOrder := k }) := by
  refine ⟨rfl, fun j => ?_⟩
  rw [modify_pageList]
  split_ifs
  · exact ⟨k, rfl⟩
  · exact ⟨_, rfl⟩

/-- The page that `_alloc` returns was not carved before. -/
theorem Inv.carve_fresh (h : Inv fixed carved F ⟨st, live⟩ p) (hi : candidate st.mm pageSize = some i)
    (hx : x ∈ carved) : x.1 / pageSize ≠ i := by
  obtain ⟨p', -, -, ht⟩ := h.alloc_block hi
  have hsafe := ht.safe (ht.zero_not_free h.zero)
  have hdis := (List.pairwise_cons.1 hsafe.liveApart).1 _ (mem_pageLive_carved hx)
  intro heq
  rw [liveSpan_page, liveSpan_page, heq, Nat.mul_div_cancel _ pageSize_pos,
    Finset.disjoint_singleton] at hdis
  exact hdis rfl

/-- The chunks of a fresh page are no chunks yet: they lie in a page that was not carved. -/
theorem Inv.new_chunk (h : Inv fixed carved F ⟨st, live⟩ p) (hi : candidate st.mm pageSize = some i)
    {n : ℕ} (hn : n * slot c ≤ pageSize) (c' : ℕ) {j : ℕ} (hj : j < n) :
    ¬ IsChunk carved c' (i * pageSize + j * slot c) := by
  intro hch
  obtain ⟨x, hx, -, hbytes⟩ := h.chunk_page hch
  have hpow : 0 < slot c' := slot_pos c'
  have hat := hbytes (i * pageSize + j * slot c) le_rfl (by omega)
  have hjn := Nat.mul_le_mul_right (slot c) (Nat.succ_le_of_lt hj)
  rw [Nat.succ_mul] at hjn
  have hpow' : 0 < slot c := slot_pos c
  apply h.carve_fresh hi hx
  rw [← hat, Nat.add_comm, Nat.add_mul_div_right _ _ pageSize_pos, Nat.div_eq_of_lt (by omega),
    Nat.zero_add]

theorem Inv.carve (h : Inv fixed carved F ⟨st, live⟩ p) (hc : c < cacheNum) {i n : ℕ}
    (hi : candidate st.mm pageSize = some i) (hn : n * slot c ≤ pageSize) :
    ∃ p', Inv fixed ((i * pageSize, c) :: carved)
      (fun c' e => F c' e ∨ (c' = c ∧ ∃ j < n, e = i * pageSize + j * slot c))
      ⟨carvePage st c n, live⟩ p' := by
  obtain ⟨p', hpage, hi0, ht⟩ := h.alloc_block hi
  have hcache := sameCache_alloc st.mm pageSize
  have hdiv : i * pageSize / pageSize = i := Nat.mul_div_cancel _ pageSize_pos
  have hfresh : ∀ x ∈ carved, x.1 / pageSize ≠ i := fun x hx => h.carve_fresh hi hx
  set mm' := (Mm.alloc st.mm pageSize).1.modify i fun e => { e with cacheOrder := (c + 4 : ℕ) }
  have hcarve : carvePage st c n = pushChunks c (slot c) n (i * pageSize) { st with mm := mm' } := by
    rw [carvePage, hpage, hdiv]
    rfl
  have horder : ∀ j, (mm'.pageList j).cacheOrder =
      if j = i then ((c + 4 : ℕ) : ℤ) else (st.mm.pageList j).cacheOrder := by
    intro j
    rw [modify_pageList]
    split_ifs
    · rfl
    · exact hcache j
  have hsub : ∀ c' e, IsChunk carved c' e → IsChunk ((i * pageSize, c) :: carved) c' e := by
    rintro c' e ⟨page, hp, he⟩
    exact ⟨page, List.mem_cons_of_mem _ hp, he⟩
  have h16 : 16 ∣ pageSize := by decide
  have hpos : 0 < i * pageSize := Nat.mul_pos (Nat.pos_of_ne_zero hi0) pageSize_pos
  have hnew : ∀ c', ∀ j < n, ¬ IsChunk carved c' (i * pageSize + j * slot c) :=
    fun c' j hj => h.new_chunk hi hn c' hj
  have hstart : ListsHold { st with mm := mm' } F := h.lists
  have hlists := hstart.pushChunks h.aligned hc (slot_dvd c) (slot_pos c)
    (h16.trans (Nat.dvd_mul_left _ i)) hpos.ne' n
    (fun c' j hj hin => hnew c' j hj (h.freeChunk c' _ hin).2)
  refine ⟨p', ?_, h.zero, ?_, ?_, ?_, hcarve ▸ hlists, ?_, ?_, h.nodup⟩
  · rw [hcarve, pushChunks_mm]
    apply tracks_sameBuddy _ (setCacheOrder_sameBuddy _ _ _)
    apply tracks_perm ht
    rw [pageLive, pageLive, List.map_cons]
    exact List.perm_middle.symm
  · intro c' hc'
    rw [hcarve, pushChunks_cacheSize]
    exact h.cacheSize c' hc'
  · intro x hx
    rw [hcarve, pushChunks_mm]
    change x.2 < cacheNum ∧ (mm'.pageList _).cacheOrder = _
    rw [horder]
    rcases List.mem_cons.1 hx with rfl | hx
    · rw [if_pos hdiv]
      exact ⟨hc, rfl⟩
    · rw [if_neg (hfresh x hx)]
      exact h.carvedOrder x hx
  · intro j hj hx
    have hji : j ≠ i := by
      rintro rfl
      exact hx _ List.mem_cons_self hdiv
    rw [hcarve, pushChunks_mm]
    change (mm'.pageList _).cacheOrder = _
    rw [horder, if_neg hji]
    exact h.plainOrder j hj fun x hxc => hx x (List.mem_cons_of_mem _ hxc)
  · rintro c' e (he | ⟨rfl, j, hj, rfl⟩)
    · exact ⟨(h.freeChunk c' e he).1, hsub c' e (h.freeChunk c' e he).2⟩
    · refine ⟨hc, _, List.mem_cons_self, j, ?_, rfl⟩
      exact (Nat.mul_le_mul_right _ (Nat.succ_le_of_lt hj)).trans hn
  · intro a ha hs
    obtain ⟨hge, hch, hfree⟩ := h.liveChunk a ha hs
    refine ⟨hge, hsub _ _ hch, ?_⟩
    rintro c' (hF | ⟨rfl, j, hj, heq⟩)
    · exact hfree c' hF
    · exact hnew _ j hj (heq ▸ hch)

end OscKernel.Alloc
