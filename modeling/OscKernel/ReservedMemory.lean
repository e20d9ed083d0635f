import OscKernel.HeapSafety

/-!
# What the heap leaves alone

`main` reserves the spin tables, the kernel image, the initramfs and the devicetree before
`kmem_cache_init`. Whatever the clients of the heap do afterwards, no block meets a reserved page and
no word in one is written: the allocator writes only the headers of chunks, which lie in carved pages.
-/

namespace OscKernel.Alloc

open Linked Mm Relation

variable {fixed : Finset DyadicBlock} {carved carved' : List (ℕ × ℕ)} {F : ℕ → ℕ → Prop} {s s' : Sys}
  {st : State} {live : List (ℕ × ℕ)} {p : BlockPool} {a : ℕ × ℕ} {addr c e i n size : ℕ} {L : Layout}
  {reserved : Finset ℕ}

def Outside (carved : List (ℕ × ℕ)) (addr : ℕ) : Prop :=
  ∀ x ∈ carved, addr / pageSize ≠ x.1 / pageSize

def Clear (carved : List (ℕ × ℕ)) (addr : ℕ) : Prop :=
  ∀ c e, IsChunk carved c e → addr ≠ e ∧ addr ≠ e + 8

theorem Inv.clear_of_outside (h : Inv fixed carved F s p) (hout : Outside carved addr) :
    Clear carved addr := by
  intro c e he
  obtain ⟨x, hx, -, hbytes⟩ := h.chunk_page he
  have hpow : 0 < 2 ^ (c + 4) := by positivity
  have hslot : slot c = 2 ^ (c + 4) + 16 := rfl
  constructor
  · rintro rfl
    exact hout x hx (hbytes _ le_rfl (by omega))
  · rintro rfl
    exact hout x hx (hbytes _ (by omega) (by omega))

theorem Clear.tail {x : ℕ × ℕ} (h : Clear (x :: carved) addr) : Clear carved addr := by
  rintro c e ⟨page, hp, j, hj, rfl⟩
  exact h c _ ⟨page, List.mem_cons_of_mem _ hp, j, hj, rfl⟩

theorem Inv.clear_head (h : Inv fixed carved F ⟨st, live⟩ p) (hout : Clear carved addr)
    (hc : c < cacheNum) : toPtr (st.freeList c) ≠ some addr := by
  intro hhead
  have hF : F c addr := ListsHold.head_mem h.lists hc hhead
  exact (hout c addr (h.freeChunk c addr hF).2).1 rfl

theorem Inv.push_clear (h : Inv fixed carved F ⟨st, live⟩ p) (hout : Clear carved addr)
    (ha : a ∈ live) (hs : a.2 ≤ maxChunkSize) :
    (kmemFreelistPush st (a.1 - headerSize) (cacheOf a.2)).mem addr = st.mem addr := by
  obtain ⟨-, hch, -⟩ := h.liveChunk a ha hs
  obtain ⟨hne, hne'⟩ := hout _ _ hch
  rw [push_mem, if_neg hne, if_neg (h.clear_head hout (cacheOf_spec hs).2.1), if_neg hne']

theorem Inv.pop_clear (h : Inv fixed carved F ⟨st, live⟩ p) (hout : Clear carved addr)
    (hc : c < cacheNum) (hne : st.freeList c ≠ 0) : (kmemFreelistPop st c).mem addr = st.mem addr := by
  have hmem : F c (st.freeList c) := ListsHold.head_mem h.lists hc (toPtr_of_ne hne)
  obtain ⟨hhead, hhead'⟩ := hout c _ (h.freeChunk c _ hmem).2
  rw [pop_mem, if_neg]
  rintro (heq | heq | hnext)
  · exact hhead heq
  · exact hhead' heq
  · obtain ⟨l, hd, hl⟩ := h.lists.linked c hc
    have hF : F c addr := (hl addr).1 (hd.chain.next_mem ((hl _).2 hmem) hnext)
    exact (hout c addr (h.freeChunk c addr hF).2).1 rfl

theorem pushChunks_clear {step page : ℕ} (n : ℕ)
    (hne : ∀ j < n, addr ≠ page + j * step ∧ addr ≠ page + j * step + 8)
    (hhead : toPtr (st.freeList c) ≠ some addr) :
    (pushChunks c step n page st).mem addr = st.mem addr := by
  induction n generalizing st page with
  | zero => rfl
  | succ n ih =>
      obtain ⟨hpage, hpage'⟩ := hne 0 (Nat.succ_pos n)
      rw [Nat.zero_mul, Nat.add_zero] at hpage hpage'
      rw [pushChunks, ih, push_mem, if_neg hpage, if_neg hhead, if_neg hpage']
      · intro j hj
        have hnext := hne (j + 1) (Nat.succ_lt_succ hj)
        rwa [Nat.succ_mul, Nat.add_comm (j * step), ← Nat.add_assoc] at hnext
      · rw [push_freeList, if_pos rfl]
        exact fun heq => hpage (toPtr_eq_some.1 heq).1.symm

theorem Inv.carve_clear (h : Inv fixed carved F ⟨st, live⟩ p) (hc : c < cacheNum)
    (hi : candidate st.mm pageSize = some i) (hn : n * slot c ≤ pageSize)
    (hout : Clear ((i * pageSize, c) :: carved) addr) : (carvePage st c n).mem addr = st.mem addr := by
  obtain ⟨-, hpage, -⟩ := h.alloc_block hi
  rw [carvePage, hpage, pushChunks_clear]
  · rfl
  · intro j hj
    apply hout c
    exact ⟨_, List.mem_cons_self, j, (Nat.mul_le_mul_right _ (Nat.succ_le_of_lt hj)).trans hn, rfl⟩
  · exact h.clear_head hout.tail hc

/-- What keeps a word through every state of the allocator is kept by `alloc`: the page that it may carve
does not hold the word either. -/
theorem Inv.alloc_clear (h : Inv fixed carved F ⟨st, live⟩ p) (size : ℕ)
    (hclear : ∀ {carved F st p}, Inv fixed carved F ⟨st, live⟩ p → Clear carved addr) :
    (Alloc.alloc st size).1.mem addr = st.mem addr := by
  rcases heq : Alloc.alloc st size with ⟨st', ptr⟩
  have hcase := heq ▸ h.alloc_cases size
  cases hcase with
  | null _ => rfl
  | large _ _ _ => rfl
  | small _ hs hne => exact h.pop_clear (hclear h) (cacheOf_spec hs).2.1 hne
  | carve _ hs _ hi hst hne =>
      have hc := (cacheOf_spec hs).2.1
      obtain ⟨p', h'⟩ := h.carve_page hc hi
      subst hst
      exact (h'.pop_clear (hclear h') hc hne).trans
        (h.carve_clear hc hi ((Nat.mul_le_mul_right _ (Nat.sub_le _ _)).trans (Nat.div_mul_le_self _ _))
          (hclear h'))

theorem Inv.free_clear (h : Inv fixed carved F ⟨st, live⟩ p)
    (hker : rangePages 0x80000 L.stackTop ⊆ fixed.biUnion DyadicBlock.pages) (ha : a ∈ live)
    (hout : Clear carved addr) : (Alloc.free L st a.1).mem addr = st.mem addr := by
  rcases h.free_cases hker ha with ⟨hs, heq⟩ | ⟨-, heq⟩
  · rw [heq]
    exact h.push_clear hout ha hs
  · rw [heq]

/-- The reserved pages are not carved. -/
theorem Inv.outside (h : Inv fixed carved F s p)
    (hr : addr / pageSize ∈ fixed.biUnion DyadicBlock.pages) : Outside carved addr := by
  intro x hx heq
  have hdis := h.mmSafe.liveReserved _ (mem_pageLive_carved hx)
  rw [liveSpan_page, Finset.disjoint_singleton_left] at hdis
  exact hdis (heq ▸ hr)

theorem Inv.area_reserved (h : Inv fixed carved F s p) (ha : a ∈ s.live) (hi : i ∈ area a) :
    i / pageSize ∉ fixed.biUnion DyadicBlock.pages := by
  intro hr
  by_cases hs : a.2 ≤ maxChunkSize
  · obtain ⟨hlo, hhi⟩ := h.area_small ha hs hi
    obtain ⟨x, hx, -, hbytes⟩ := h.chunk_page (h.liveChunk a ha hs).2.1
    exact h.outside hr x hx (hbytes i (by omega) hhi)
  · have hl := not_le.1 hs
    have hdis := h.mmSafe.liveReserved a (mem_pageLive_large ha hl)
    exact Finset.disjoint_left.1 hdis (h.area_large ha hl hi) hr

/-- A state along a run, in which the reserved words are as in `mem`. -/
def Keeping (fixed : Finset DyadicBlock) (mem : ℕ → ℕ) (s : Sys) : Prop :=
  Running fixed s ∧ ∀ addr, addr / pageSize ∈ fixed.biUnion DyadicBlock.pages → s.heap.mem addr = mem addr

theorem Inv.clear_reserved (h : Inv fixed carved F s p)
    (hr : addr / pageSize ∈ fixed.biUnion DyadicBlock.pages) : Clear carved addr :=
  h.clear_of_outside (h.outside hr)

/-- A word that a client may write lies in a page of one of its blocks. -/
theorem Inv.write_reserved (h : Inv fixed carved F ⟨st, live⟩ p) {value : ℕ} (h8 : 8 ∣ e) (ha : a ∈ live)
    (hi : i ∈ area a) (hlo : e ≤ i) (hhi : i < e + 8)
    (hr : addr / pageSize ∈ fixed.biUnion DyadicBlock.pages) : (st.store e value).mem addr = st.mem addr := by
  have hpage : e / pageSize = i / pageSize := by
    have hps : pageSize = 4096 := rfl
    rw [hps]
    omega
  have hne : addr ≠ e := by
    rintro rfl
    exact h.area_reserved ha hi (hpage ▸ hr)
  rw [store_mem, Function.update_of_ne hne]

theorem keeping_stable {mem : ℕ → ℕ}
    (hker : rangePages 0x80000 L.stackTop ⊆ fixed.biUnion DyadicBlock.pages) :
    Runs.Stable (Sys.Step L) (Keeping fixed mem) := by
  rintro ⟨st, live⟩ s' ⟨hrunning, hkept⟩ hstep
  refine ⟨running_stable hker hrunning hstep, fun addr hr => Eq.trans ?_ (hkept addr hr)⟩
  obtain ⟨carved, F, p, h⟩ := hrunning
  obtain ⟨op, hvalid, rfl⟩ := hstep
  cases op with
  | alloc size => exact h.alloc_clear size fun h' => h'.clear_reserved hr
  | free ptr size => exact h.free_clear hker hvalid (h.clear_reserved hr)
  | write e value =>
      obtain ⟨h8, a, ha, i, hi, hlo, hhi⟩ := hvalid
      exact h.write_reserved h8 ha hi hlo hhi hr

theorem kmemCacheInitLoop_keeping (n i : ℕ) (hn : i + n = cacheNum)
    (h : Inv fixed carved F ⟨st, []⟩ p) (hempty : ∀ c, i ≤ c → c < cacheNum → st.freeList c = 0) :
    Keeping fixed st.mem ⟨kmemCacheInitLoop n i st, []⟩ := by
  refine ⟨kmemCacheInitLoop_running n i hn h hempty, ?_⟩
  intro addr hr
  induction n generalizing i st carved F p with
  | zero => rfl
  | succ n ih =>
      have hi : i < cacheNum := by omega
      rcases h.initLoop_cases hi (hempty i le_rfl hi) n with heq | ⟨b, hcand, heq⟩
      · rw [heq]
      · obtain ⟨p', h'⟩ := h.carve hi hcand (Nat.div_mul_le_self pageSize (slot i))
        rw [heq]
        refine (ih (i + 1) (by omega) h' fun c hc hlt => ?_).trans ?_
        · rw [carvePage_freeList (by omega)]
          exact hempty c (by omega) hlt
        · exact h.carve_clear hi hcand (Nat.div_mul_le_self pageSize (slot i)) (h'.clear_reserved hr)

/-- `kmem_cache_init` after any reservations. -/
theorem kmemCacheInit_keeping {mm : Mm.State} (hboot : Booted mm reserved) (mem : ℕ → ℕ)
    (kmemCaches : ℕ → KmemCache) : ∃ fixed : Finset DyadicBlock,
      fixed.biUnion DyadicBlock.pages = reserved ∧
        Keeping fixed mem ⟨kmemCacheInit ⟨mm, mem, kmemCaches⟩, []⟩ := by
  obtain ⟨p, hp⟩ := hboot.bootPool
  have hcaches : ∀ c < cacheNum,
      (if c < cacheNum then { cacheSize := 1 <<< (c + 4), freeList := 0 } else kmemCaches c :
        KmemCache) = ⟨2 ^ (c + 4), 0⟩ := by
    intro c hc
    rw [if_pos hc, Nat.one_shiftLeft]
  have hinv := BootPool.inv hp (fun i hi => hboot.cacheOrder hi) hboot.zero_mem mem hcaches
  refine ⟨p.used, hp.used, ?_⟩
  exact kmemCacheInitLoop_keeping cacheNum 0 (Nat.zero_add _) hinv fun c _ hc =>
    congrArg KmemCache.freeList (hcaches c hc)

structure Images where
  cpioAddr : ℕ
  cpioEnd : ℕ
  dtbAddress : ℕ
  fdtTotalSize : ℕ

def Images.ranges (m : Images) (L : Layout) : List (ℕ × ℕ) :=
  [(0, 0x1000), (0x80000, L.stackTop), (m.cpioAddr, m.cpioEnd),
    (m.dtbAddress, m.dtbAddress + m.fdtTotalSize)]

def Images.boot (m : Images) (L : Layout) (mem : ℕ → ℕ) (kmemCaches : ℕ → KmemCache) : State :=
  let mm := mmInit
  let mm := reserve mm 0 0x1000
  let mm := reserve mm 0x80000 L.stackTop
  let mm := reserve mm m.cpioAddr m.cpioEnd
  let mm := reserve mm m.dtbAddress (m.dtbAddress + m.fdtTotalSize)
  kmemCacheInit { mm := mm, mem := mem, kmemCaches := kmemCaches }

/-- The images are not empty, lie in memory, and share no page with each other or with the kernel. -/
structure Images.Apart (m : Images) (L : Layout) : Prop where
  inside : ∀ r ∈ m.ranges L, r.1 < r.2 ∧ r.2 ≤ memorySize
  disjoint : (m.ranges L).Pairwise fun r r' => Disjoint (rangePages r.1 r.2) (rangePages r'.1 r'.2)

theorem mem_rangePages {start stop : ℕ} (hlo : start ≤ addr) (hhi : addr < stop) :
    addr / pageSize ∈ rangePages start stop := by
  rw [rangePages, Finset.mem_Icc]
  exact ⟨Nat.div_le_div_right hlo, Nat.div_le_div_right (by omega)⟩

def Images.pages (m : Images) (L : Layout) : Finset ℕ :=
  rangePages 0 0x1000 ∪ rangePages 0x80000 L.stackTop ∪ rangePages m.cpioAddr m.cpioEnd ∪
    rangePages m.dtbAddress (m.dtbAddress + m.fdtTotalSize)

theorem Images.mem_pages {m : Images} {r : ℕ × ℕ} (hr : r ∈ m.ranges L) (hlo : r.1 ≤ addr)
    (hhi : addr < r.2) : addr / pageSize ∈ m.pages L := by
  have hin := mem_rangePages hlo hhi
  simp only [Images.ranges, List.mem_cons, List.not_mem_nil, or_false] at hr
  simp only [Images.pages, Finset.mem_union]
  rcases hr with rfl | rfl | rfl | rfl
  · exact Or.inl (Or.inl (Or.inl hin))
  · exact Or.inl (Or.inl (Or.inr hin))
  · exact Or.inl (Or.inr hin)
  · exact Or.inr hin

theorem Images.kernel_pages (m : Images) (L : Layout) : rangePages 0x80000 L.stackTop ⊆ m.pages L := by
  intro i hi
  simp only [Images.pages, Finset.mem_union]
  exact Or.inl (Or.inl (Or.inr hi))

theorem Images.Apart.booted {m : Images} (h : m.Apart L) :
    Booted (reserve (reserve (reserve (reserve mmInit 0 0x1000) 0x80000 L.stackTop) m.cpioAddr m.cpioEnd)
      m.dtbAddress (m.dtbAddress + m.fdtTotalSize)) (m.pages L) := by
  have hinside := h.inside
  have hdisjoint := h.disjoint
  simp only [Images.ranges, List.mem_cons, List.not_mem_nil, or_false, forall_eq_or_imp, forall_eq] at hinside
  simp only [Images.ranges, List.pairwise_cons, List.mem_cons, List.not_mem_nil, or_false, forall_eq_or_imp,
    forall_eq, false_imp_iff, implies_true, List.Pairwise.nil, and_true] at hdisjoint
  obtain ⟨hspin, hkernel, hcpio, hdtb⟩ := hinside
  obtain ⟨⟨hsk, hsc, hsd⟩, ⟨hkc, hkd⟩, hcd⟩ := hdisjoint
  have hfirst : Booted (reserve mmInit 0 0x1000) (rangePages 0 0x1000) :=
    Booted.first hspin.1 hspin.2 pageSize_pos
  refine ((hfirst.next hkernel.1 hkernel.2 hsk.symm).next hcpio.1 hcpio.2 ?_).next hdtb.1 hdtb.2 ?_
  · rw [Finset.disjoint_union_right]
    exact ⟨hsc.symm, hkc.symm⟩
  · rw [Finset.disjoint_union_right, Finset.disjoint_union_right]
    exact ⟨⟨hsd.symm, hkd.symm⟩, hcd.symm⟩

theorem Images.Apart.keeping {m : Images} {mem : ℕ → ℕ} {kmemCaches : ℕ → KmemCache} (h : m.Apart L)
    (hrun : ReflTransGen (Sys.Step L) ⟨m.boot L mem kmemCaches, []⟩ s) :
    ∃ fixed, fixed.biUnion DyadicBlock.pages = m.pages L ∧ Keeping fixed mem s := by
  obtain ⟨fixed, hfixed, hstart⟩ := kmemCacheInit_keeping h.booted mem kmemCaches
  exact ⟨fixed, hfixed, (keeping_stable (hfixed ▸ m.kernel_pages L)).run hstart hrun⟩

/-- Whatever the clients of the heap do, the memory that `main` reserved is theirs at no time and keeps
its contents. -/
theorem reserved_kept {m : Images} {mem : ℕ → ℕ} {kmemCaches : ℕ → KmemCache} (h : m.Apart L)
    (hrun : ReflTransGen (Sys.Step L) ⟨m.boot L mem kmemCaches, []⟩ s) {r : ℕ × ℕ} (hr : r ∈ m.ranges L)
    (hlo : r.1 ≤ addr) (hhi : addr < r.2) :
    (∀ a ∈ s.live, addr ∉ area a) ∧ s.heap.mem addr = mem addr := by
  obtain ⟨fixed, hfixed, ⟨carved, F, p, hinv⟩, hkept⟩ := h.keeping hrun
  have hin : addr / pageSize ∈ fixed.biUnion DyadicBlock.pages := hfixed ▸ Images.mem_pages hr hlo hhi
  exact ⟨fun a ha hi => hinv.area_reserved ha hi hin, hkept addr hin⟩

theorem disjoint_rangePages {start stop start' stop' : ℕ} (h : (stop - 1) / pageSize < start' / pageSize) :
    Disjoint (rangePages start stop) (rangePages start' stop') := by
  rw [Finset.disjoint_left]
  intro i hi hi'
  rw [rangePages, Finset.mem_Icc] at hi hi'
  omega

theorem sample_image : 0x80000 ≤ 0x90000 := by decide

theorem sample_fits : (0x90000 + 15) / 16 * 16 + 0x10000 ≤ memorySize := by decide

def sampleLayout : Layout := ⟨0x90000, sample_image, sample_fits⟩

def sampleImages : Images := ⟨0x8000000, 0x8000800, 0x8200000, 0x1000⟩

theorem sampleImages_apart : sampleImages.Apart sampleLayout := by
  constructor
  · decide
  · simp only [Images.ranges, List.pairwise_cons, List.mem_cons, List.not_mem_nil, or_false, forall_eq_or_imp,
      forall_eq, false_imp_iff, implies_true, List.Pairwise.nil, and_true]
    refine ⟨⟨?_, ?_, ?_⟩, ⟨?_, ?_⟩, ?_⟩ <;> exact disjoint_rangePages (by decide)

/-- The archive after one allocation. -/
theorem reserved_kept_archive :
    (∀ a ∈ (Sys.step sampleLayout
        ⟨sampleImages.boot sampleLayout (fun _ => 0) (fun _ => ⟨0, 0⟩), []⟩ (.alloc 100)).live,
      0x8000400 ∉ area a) ∧
    (Sys.step sampleLayout ⟨sampleImages.boot sampleLayout (fun _ => 0) (fun _ => ⟨0, 0⟩), []⟩
      (.alloc 100)).heap.mem 0x8000400 = 0 :=
  reserved_kept sampleImages_apart (ReflTransGen.single ⟨.alloc 100, trivial, rfl⟩)
    (List.mem_cons_of_mem _ (List.mem_cons_of_mem _ List.mem_cons_self)) (by decide) (by decide)

end OscKernel.Alloc
