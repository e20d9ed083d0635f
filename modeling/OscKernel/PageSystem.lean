import OscKernel.PageReserve
import OscKernel.Runs

/-!
# Booting and running the page allocator

`Booted st reserved` describes the states after `mm_init` and some calls of `reserve`. `Sys` adds
the blocks that the clients of the allocator hold, by address and requested size. The pool of a
running system has the held blocks and the reserved blocks as its used ones.
-/

namespace OscKernel.Mm

open DyadicBlock Relation

variable {st st' : State} {p p' : BlockPool} {B C : DyadicBlock}

def topBlock (j : ℕ) : DyadicBlock := ⟨j * maxBlockSize, maxOrder - 1, by
  rw [maxBlockSize_eq]
  exact Nat.dvd_mul_left _ _⟩

def initPool (n : ℕ) : BlockPool where
  free := (Finset.range n).image topBlock
  used := ∅
  disjoint := Finset.disjoint_empty_right _
  apart := by
    intro B hB C hC i hiB hiC
    rw [Finset.union_empty, Finset.mem_image] at hB hC
    obtain ⟨j, -, rfl⟩ := hB
    obtain ⟨k, -, rfl⟩ := hC
    exact eq_of_mem_of_order_eq rfl hiB hiC

theorem topBlock_start (j : ℕ) : (topBlock j).start = j * maxBlockSize := rfl

theorem topBlock_size (j : ℕ) : 2 ^ (topBlock j).order = maxBlockSize := by
  rw [maxBlockSize_eq]
  rfl

theorem initPool_succ (n : ℕ) : (initPool (n + 1)).free = insert (topBlock n) (initPool n).free := by
  change Finset.image topBlock (Finset.range (n + 1)) = _
  rw [Finset.range_add_one, Finset.image_insert]
  rfl

theorem topBlock_bound {j : ℕ} (hj : j < pageNum / maxBlockSize) :
    (topBlock j).order < maxOrder ∧ (topBlock j).pages ⊆ Finset.range pageNum := by
  refine ⟨show maxOrder - 1 < maxOrder by decide, fun i hi => ?_⟩
  have hlast : (pageNum / maxBlockSize) * maxBlockSize = pageNum := by decide
  have hle : (j + 1) * maxBlockSize ≤ (pageNum / maxBlockSize) * maxBlockSize :=
    Nat.mul_le_mul_right _ hj
  rw [mem_pages, topBlock_size, topBlock_start] at hi
  rw [Finset.mem_range]
  rw [Nat.add_mul, Nat.one_mul] at hle
  omega

theorem initPool_bound {n : ℕ} (hn : n ≤ pageNum / maxBlockSize) :
    ∀ B ∈ (initPool n).blocks, B.order < maxOrder ∧ B.pages ⊆ Finset.range pageNum := by
  intro B hB
  rw [BlockPool.blocks, initPool, Finset.union_empty, Finset.mem_image] at hB
  obtain ⟨j, hj, rfl⟩ := hB
  exact topBlock_bound ((Finset.mem_range.1 hj).trans_le hn)

theorem mmInitBlock_inserted (i : ℕ) : Inserted st (mmInitBlock st i) i (maxOrder - 1) := by
  unfold mmInitBlock
  refine inserted_of_add (by decide) ?_ ?_ ?_
  · exact fun e => ⟨rfl, rfl⟩
  · exact fun e => ⟨rfl, rfl⟩
  · exact fun e he => ⟨he.idx, rfl, rfl, he.cacheOrder⟩

theorem mmInitLoop_spec (n : ℕ) (hn : n ≤ pageNum / maxBlockSize)
    (h : Rep st (initPool 0)) (hc : Clean st (initPool 0)) :
    Rep (mmInitLoop st n) (initPool n) ∧ Clean (mmInitLoop st n) (initPool n) := by
  induction n with
  | zero => exact ⟨h, hc⟩
  | succ n ih =>
      obtain ⟨hrep, hclean⟩ := ih (by omega)
      have hins : Inserted (mmInitLoop st n) (mmInitLoop st (n + 1)) (topBlock n).start
          (topBlock n).order := mmInitBlock_inserted (n * maxBlockSize)
      constructor
      · apply hrep.insert hins _ (initPool_succ n) (initPool_bound hn)
        · exact fun C hC => absurd hC (Finset.notMem_empty C)
        · exact fun i hi _ => hi
        · intro C hC hs
          obtain ⟨j, hj, rfl⟩ := Finset.mem_image.1 hC
          rw [topBlock_start, topBlock_start] at hs
          have := Nat.eq_of_mul_eq_mul_right (by decide) hs
          have := Finset.mem_range.1 hj
          omega
      · intro i hi
        by_cases hin : i = (topBlock n).start
        · refine ⟨topBlock n, ?_, hin.symm⟩
          apply BlockPool.mem_blocks_of_free
          rw [initPool_succ]
          exact Finset.mem_insert_self _ _
        · rw [(hins.elsewhere i hin).order] at hi
          obtain ⟨B, hB, hBi⟩ := hclean i hi
          refine ⟨B, ?_, hBi⟩
          rw [BlockPool.blocks, initPool_succ]
          rw [BlockPool.blocks] at hB
          exact (Finset.union_subset_union_left (Finset.subset_insert _ _)) hB

structure SameBuddy (st st' : State) : Prop where
  freeList : st'.freeList = st.freeList
  page : ∀ i, ∃ c, st'.pageList i = { st.pageList i with cacheOrder := c }

theorem RepExcept.sameBuddy {c : Option ℕ} (h : RepExcept c st p) (hs : SameBuddy st st') :
    RepExcept c st' p := by
  have hidx : ∀ i, (st'.pageList i).idx = (st.pageList i).idx := fun i => by
    obtain ⟨d, hd⟩ := hs.page i
    rw [hd]
  have horder : ∀ i, (st'.pageList i).order = (st.pageList i).order := fun i => by
    obtain ⟨d, hd⟩ := hs.page i
    rw [hd]
  have hentry : ∀ i, (st'.pageList i).entryInList = (st.pageList i).entryInList := fun i => by
    obtain ⟨d, hd⟩ := hs.page i
    rw [hd]
  refine ⟨h.lists.congr (fun k _ => by rw [hs.freeList]) ?_ ?_, h.bound, ?_, ?_, ?_⟩
  · intro _ i _
    obtain ⟨d, hd⟩ := hs.page i
    rw [State.next, hd, State.next]
  · intro _ i _
    obtain ⟨d, hd⟩ := hs.page i
    rw [State.prev, hd, State.prev]
  · intro B hB
    rw [hidx, horder, hentry]
    exact h.freeEntry B hB
  · intro B hB hcB
    rw [horder, hentry]
    exact h.usedEntry B hB hcB
  · intro i hi he
    rw [hentry] at he
    rw [horder]
    exact h.heads i hi he

theorem Clean.sameBuddy (h : Clean st p) (hs : SameBuddy st st') : Clean st' p := by
  intro i hi
  obtain ⟨d, hd⟩ := hs.page i
  rw [hd] at hi
  exact h i hi

def blank : State := { freeList := fun _ => none, pageList := fun _ => zeroPage }

theorem blank_rep : Rep blank (initPool 0) := by
  refine ⟨⟨fun k _ => ⟨[], rfl, fun i => ?_⟩, ?_⟩, ?_, ?_, ?_, ?_⟩
  · simp [freeAt, initPool]
  · rintro k k' i ⟨B, hB, -⟩
    exact absurd hB (by simp [initPool])
  · exact fun B hB => absurd hB (by simp [BlockPool.blocks, initPool])
  · exact fun B hB => absurd hB (by simp [initPool])
  · exact fun B hB => absurd hB (by simp [initPool])
  · exact fun i _ hi => absurd rfl hi

theorem blankLoop_spec {n : ℕ} (hn : n ≤ pageNum / maxBlockSize) :
    Rep (mmInitLoop blank n) (initPool n) ∧ Clean (mmInitLoop blank n) (initPool n) :=
  mmInitLoop_spec n hn blank_rep fun _ hi => absurd hi (lt_irrefl 0)

theorem sameBuddy_cacheOrder (st : State) : SameBuddy st { st with pageList := fun i =>
    if i < pageNum then { st.pageList i with cacheOrder := -1 } else st.pageList i } := by
  refine ⟨rfl, fun i => ?_⟩
  by_cases hi : i < pageNum
  · exact ⟨-1, if_pos hi⟩
  · exact ⟨_, if_neg hi⟩

theorem mmInit_sameBuddy : SameBuddy (mmInitLoop blank (pageNum / maxBlockSize)) mmInit := by
  unfold mmInit blank
  exact sameBuddy_cacheOrder _

theorem mmInit_spec : Rep mmInit (initPool (pageNum / maxBlockSize)) ∧
    Clean mmInit (initPool (pageNum / maxBlockSize)) := by
  obtain ⟨hrep, hclean⟩ := blankLoop_spec le_rfl
  exact ⟨hrep.sameBuddy mmInit_sameBuddy, hclean.sameBuddy mmInit_sameBuddy⟩

theorem initPool_freePages : (initPool (pageNum / maxBlockSize)).freePages = Finset.range pageNum := by
  have hlast : (pageNum / maxBlockSize) * maxBlockSize = pageNum := by decide
  have hpos : 0 < maxBlockSize := by decide
  apply Finset.Subset.antisymm
  · intro i hi
    obtain ⟨B, hB, hiB⟩ := (BlockPool.mem_freePages _).1 hi
    exact (initPool_bound le_rfl B (BlockPool.mem_blocks_of_free _ hB)).2 hiB
  · intro i hi
    refine (BlockPool.mem_freePages _).2 ⟨topBlock (i / maxBlockSize), ?_, ?_⟩
    · apply Finset.mem_image_of_mem
      rw [Finset.mem_range] at hi ⊢
      apply Nat.div_lt_of_lt_mul
      rw [Nat.mul_comm, hlast]
      exact hi
    · rw [mem_pages, topBlock_size, topBlock_start]
      exact ⟨Nat.div_mul_le_self _ _, Nat.lt_div_mul_add hpos⟩

theorem initPool_owned : (initPool (pageNum / maxBlockSize)).owned = Finset.range pageNum := by
  rw [BlockPool.owned, initPool_freePages]
  exact Finset.union_empty _

theorem initPool_coalesced (n : ℕ) : (initPool n).Coalesced (maxOrder - 1) := by
  intro B hB ho
  obtain ⟨j, -, rfl⟩ := Finset.mem_image.1 hB
  exact absurd ho (lt_irrefl _)

/-- The state after `mm_init` and at least one `reserve`, the first of them around page 0, each of
a nonempty range in memory that is still free. -/
inductive Booted : State → Finset ℕ → Prop
  | first {start stop : ℕ} (hlt : start < stop) (hle : stop ≤ memorySize) (hpage : start < pageSize) :
      Booted (reserve mmInit start stop) (rangePages start stop)
  | next {st : State} {reserved : Finset ℕ} {start stop : ℕ} (h : Booted st reserved)
      (hlt : start < stop) (hle : stop ≤ memorySize)
      (hfree : Disjoint (rangePages start stop) reserved) :
      Booted (reserve st start stop) (reserved ∪ rangePages start stop)

theorem rangePages_subset {start stop : ℕ} (hle : stop ≤ memorySize) (hlt : start < stop) :
    rangePages start stop ⊆ Finset.range pageNum := by
  intro i hi
  have hi' := (Finset.mem_Icc.1 hi).2
  have hlast : (stop - 1) / pageSize < pageNum := by
    apply Nat.div_lt_of_lt_mul
    rw [Nat.mul_comm, pageNum_mul_pageSize]
    omega
  rw [Finset.mem_range]
  omega

/-- A booted allocator has every page of the memory in its pool, the reserved ones as used. -/
structure BootPool (st : State) (reserved : Finset ℕ) (p : BlockPool) : Prop where
  rep : Rep st p
  clean : Clean st p
  owned : p.owned = Finset.range pageNum
  used : p.usedPages = reserved

theorem Reserved.bootPool {reserved : Finset ℕ} {start stop : ℕ} (h : p.owned = Finset.range pageNum)
    (hu : p.usedPages = reserved)
    (hr : Reserved st' p p' (start / pageSize) ((stop - 1) / pageSize)) :
    BootPool st' (reserved ∪ rangePages start stop) p' :=
  ⟨hr.rep, hr.clean, hr.owned.trans h, by rw [hr.pages, hu, rangePages]⟩

theorem Booted.bootPool {reserved : Finset ℕ} (h : Booted st reserved) :
    ∃ p, BootPool st reserved p := by
  induction h with
  | first hlt hle hpage =>
      obtain ⟨hrep, hclean⟩ := mmInit_spec
      have hfree := rangePages_subset hle hlt
      rw [← initPool_freePages] at hfree
      obtain ⟨p', hr, -⟩ := reserve_spec hrep hclean hlt hfree
      have hb := hr.bootPool initPool_owned rfl
      rw [initPool, BlockPool.usedPages, Finset.biUnion_empty, Finset.empty_union] at hb
      exact ⟨p', hb⟩
  | next _ hlt hle hdisj ih =>
      obtain ⟨p, hp⟩ := ih
      have hfree := rangePages_subset hle hlt
      rw [← hp.owned] at hfree
      have hfree' := Finset.subset_sdiff.2 ⟨hfree, hp.used ▸ hdisj⟩
      rw [← p.freePages_eq] at hfree'
      obtain ⟨p', hr, -⟩ := reserve_spec hp.rep hp.clean hlt hfree'
      exact ⟨p', hr.bootPool hp.owned hp.used⟩

theorem Booted.zero_mem {reserved : Finset ℕ} (h : Booted st reserved) : 0 ∈ reserved := by
  induction h with
  | first hlt hle hpage =>
      rw [rangePages, Finset.mem_Icc, Nat.div_eq_of_lt hpage]
      exact ⟨le_rfl, Nat.zero_le _⟩
  | next _ _ _ _ ih => exact Finset.mem_union_left _ ih

structure Sys where
  mm : State
  live : List (ℕ × ℕ)

inductive Op where
  | alloc (size : ℕ)
  | free (ptr size : ℕ)
  deriving DecidableEq

def Op.Valid (s : Sys) : Op → Prop
  | .alloc _ => True
  | .free ptr size => (ptr, size) ∈ s.live

def Sys.step (s : Sys) : Op → Sys
  | .alloc size =>
    let r := Mm.alloc s.mm size
    { mm := r.1, live := if r.2 = 0 then s.live else (r.2, size) :: s.live }
  | .free ptr size => { mm := Mm.free s.mm ptr, live := s.live.erase (ptr, size) }

def Sys.Step (ok : Sys → Op → Prop) (s s' : Sys) : Prop :=
  ∃ op : Op, op.Valid s ∧ ok s op ∧ s' = s.step op

def liveBlock (a : ℕ × ℕ) : DyadicBlock := containing (a.1 / pageSize) (reqOrder a.2)

/-- The pool of a running system: its used blocks are the held ones and the fixed set `fixed`. -/
structure Tracks (fixed : Finset DyadicBlock) (s : Sys) (p : BlockPool) : Prop where
  rep : Rep s.mm p
  used : p.used = fixed ∪ (s.live.map liveBlock).toFinset
  nodup : (s.live.map liveBlock).Nodup
  fresh : ∀ a ∈ s.live, liveBlock a ∉ fixed
  addr : ∀ a ∈ s.live, a.1 = (liveBlock a).start * pageSize ∧ 0 < a.1 ∧ a.2 ≤ maxAllocSize

variable {fixed : Finset DyadicBlock} {s : Sys} {a : ℕ × ℕ}

/-- Before the first call of a client all used blocks are fixed. -/
theorem RepExcept.tracks (h : Rep st p) : Tracks p.used ⟨st, []⟩ p := by
  refine ⟨h, ?_, List.nodup_nil, ?_, ?_⟩
  · rw [List.map_nil, List.toFinset_nil, Finset.union_empty]
  · exact fun a ha => absurd ha List.not_mem_nil
  · exact fun a ha => absurd ha List.not_mem_nil

theorem Tracks.mem_used (h : Tracks fixed s p) (ha : a ∈ s.live) : liveBlock a ∈ p.used := by
  rw [h.used]
  exact Finset.mem_union_right _ (List.mem_toFinset.2 (List.mem_map_of_mem ha))

theorem liveBlock_eq {ptr size : ℕ} (hp : ptr = B.start * pageSize) (ho : B.order = reqOrder size) :
    liveBlock (ptr, size) = B := by
  have hdiv : ptr / pageSize = B.start := by
    rw [hp, Nat.mul_div_cancel _ pageSize_pos]
  refine eq_of_mem_of_order_eq ho.symm (mem_containing _ _) ?_
  rw [hdiv]
  exact B.start_mem_pages

theorem Tracks.alloc_null (h : Tracks fixed s p) {size : ℕ} (hc : candidate s.mm size = none) :
    s.step (.alloc size) = s := by
  simp only [Sys.step, alloc_none h.rep hc, if_true]

/-- A step that returns a block other than the one at page 0, whose address is null. -/
theorem Tracks.alloc_some (h : Tracks fixed s p) {size b : ℕ} (hc : candidate s.mm size = some b)
    (hb : b ≠ 0) : ∃ p' B, Tracks fixed (s.step (.alloc size)) p' ∧ Allocated p p' B ∧
      (s.step (.alloc size)).live = (b * pageSize, size) :: s.live ∧
      liveBlock (b * pageSize, size) = B := by
  obtain ⟨-, hmax, st', p', B, heq, hrep, hal, rfl, ho⟩ := Mm.alloc_some h.rep hc
  have hpos : 0 < B.start * pageSize := Nat.mul_pos (Nat.pos_of_ne_zero hb) pageSize_pos
  have hlive : (s.step (.alloc size)).live = (B.start * pageSize, size) :: s.live := by
    simp only [Sys.step, heq, if_neg hpos.ne']
  have hmm : (s.step (.alloc size)).mm = st' := by simp only [Sys.step, heq]
  have hblock : liveBlock (B.start * pageSize, size) = B := liveBlock_eq rfl ho
  refine ⟨p', B, ⟨hmm ▸ hrep, ?_, ?_, ?_, ?_⟩, hal, hlive, hblock⟩
  · rw [hal.used, h.used, hlive, List.map_cons, List.toFinset_cons, hblock, Finset.union_insert]
  · rw [hlive, List.map_cons, hblock, List.nodup_cons]
    refine ⟨fun hm => hal.not_used ?_, h.nodup⟩
    rw [h.used]
    exact Finset.mem_union_right _ (List.mem_toFinset.2 hm)
  · rw [hlive]
    rintro a ha hfix
    rcases List.mem_cons.1 ha with rfl | ha
    · rw [hblock] at hfix
      exact hal.not_used (h.used ▸ Finset.mem_union_left _ hfix)
    · exact h.fresh a ha hfix
  · rw [hlive]
    intro a ha
    rcases List.mem_cons.1 ha with rfl | ha
    · rw [hblock]
      exact ⟨rfl, hpos, hmax⟩
    · exact h.addr a ha

theorem Tracks.free (h : Tracks fixed s p) {ptr size : ℕ} (ha : (ptr, size) ∈ s.live) :
    ∃ p', Tracks fixed (s.step (.free ptr size)) p' ∧
      (Freed p p' (liveBlock (ptr, size)) ∨ Lost p p' (liveBlock (ptr, size))) := by
  obtain ⟨hp, hpos, -⟩ := h.addr _ ha
  have hBu := h.mem_used ha
  set B := liveBlock (ptr, size)
  have hpos' : 0 < B.start := Nat.pos_of_mul_pos_right (hp ▸ hpos)
  obtain ⟨p', hrep, hres⟩ := free_spec h.rep hBu hpos'
  have hused : p'.used = p.used.erase B := hres.elim Freed.used Lost.used
  have hsub : ∀ x ∈ s.live.erase (ptr, size), x ∈ s.live := fun x hx => List.mem_of_mem_erase hx
  refine ⟨p', ⟨?_, ?_, ?_, fun x hx => h.fresh x (hsub x hx), fun x hx => h.addr x (hsub x hx)⟩, hres⟩
  · change Rep (Mm.free s.mm ptr) p'
    rw [show ptr = B.start * pageSize from hp]
    exact hrep
  · have hmem : ∀ C, C ∈ (s.live.erase (ptr, size)).map liveBlock ↔ C ≠ B ∧ C ∈ s.live.map liveBlock := by
      intro C
      simp only [List.mem_map, h.nodup.of_map.mem_erase_iff]
      constructor
      · rintro ⟨x, ⟨hne, hx⟩, rfl⟩
        exact ⟨fun he => hne (List.inj_on_of_nodup_map h.nodup hx ha he), x, hx, rfl⟩
      · rintro ⟨hne, x, hx, rfl⟩
        exact ⟨x, ⟨fun he => hne (congrArg liveBlock he), hx⟩, rfl⟩
    change p'.used = fixed ∪ ((s.live.erase (ptr, size)).map liveBlock).toFinset
    rw [hused, h.used]
    ext C
    rw [Finset.mem_erase, Finset.mem_union, Finset.mem_union, List.mem_toFinset, List.mem_toFinset,
      hmem]
    have hfix : C ∈ fixed → C ≠ B := by
      rintro hC rfl
      exact h.fresh _ ha hC
    tauto
  · exact h.nodup.sublist ((List.erase_sublist).map liveBlock)

end OscKernel.Mm
